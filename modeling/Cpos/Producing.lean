import Cpos.Acts

/-!
# What a node produces

`generate_block` makes a block for each ticket (`ticketBlock`), with parent
and index from the table and the round in which the node is. What it
produces is one of these, and valid (`Generated`).
-/

namespace Cpos

open Python ByteString LinkedChain BlockChain

variable {K : Type} [PyNum K] {env : NodeEnv K} {mock : Int → TransactionList}
  {s s' : BlockChain} {b : Block}

/-! ## A ticket -/

/-- The block that `generate_block` makes for ticket `i`, before it is
validated. -/
def ticketBlock (env : NodeEnv K) (mock : Int → TransactionList) (i : Int) : Call Block := do
  let tx := if env.useMockTransactions then mock i else TransactionList.new
  let block ← eval (Block.init (← getLastBlockHash) tx env.publicKey [] (← get).currentRound
    (← numberOfBlocks) i)
  let block ← eval (block.sign env.sign)
  return { block with ticketNumber := i }

theorem ticketBlock_keeps (mock : Int → TransactionList) (i : Int) :
    Keeps Eq (ticketBlock env mock i) :=
  keeps_bind keeps_getLastBlockHash fun _ => keeps_bind keeps_get fun _ =>
    keeps_bind keeps_numberOfBlocks fun _ => keeps_bind (keeps_eval _) fun _ =>
    keeps_bind (keeps_eval _) fun _ => keeps_pure _

theorem ticketBlock_bind {A : Type} (i : Int) (f : Block → Call A) :
    ticketBlock env mock i >>= f = (do
      let tx := if env.useMockTransactions then mock i else TransactionList.new
      let block ← eval (Block.init (← getLastBlockHash) tx env.publicKey [] (← get).currentRound
        (← numberOfBlocks) i)
      let block ← eval (block.sign env.sign)
      f { block with ticketNumber := i }) := by
  simp only [ticketBlock, bind_assoc, pure_bind]

theorem generateCandidate_eq (candidate : Option Block) (i : Int) :
    generateCandidate env mock candidate i = (do
      let block ← ticketBlock env mock i
      match ← eval (validateBlock env.toEnv block) with
      | none => return candidate
      | some winningTickets =>
          if winningTickets = 0 then return candidate
          match candidate with
          | none => return some block
          | some best =>
              return if block.proofHash < best.proofHash then some block else some best) := by
  refine Eq.trans ?_ (ticketBlock_bind i _).symm
  rfl

/-- What is made for ticket `i` in state `s`. -/
structure MadeFor (env : NodeEnv K) (mock : Int → TransactionList) (s : BlockChain) (i : Int)
    (b : Block) : Prop where
  parentHash : getLastBlockHash s = .ok b.parentHash s
  round : b.round = s.currentRound
  index : b.index = s.localChains.length
  ownerPubkey : b.ownerPubkey = env.publicKey
  ticketNumber : b.ticketNumber = i
  transactions :
    b.transactions
      = (if env.useMockTransactions then mock i else TransactionList.new).transactions
  bound : b.Bound

theorem ticketBlock_ok {i : Int} (h : ticketBlock env mock i s = .ok b s') :
    MadeFor env mock s i b := by
  obtain ⟨parentHash, s₁, hparent, h₁⟩ := bind_eq_ok h
  obtain rfl : s = s₁ := keeps_getLastBlockHash.of_ok hparent
  obtain ⟨_, _, hget, h₂⟩ := bind_eq_ok h₁
  cases hget
  obtain ⟨_, _, hnumber, h₃⟩ := bind_eq_ok h₂
  cases hnumber
  obtain ⟨b₁, _, hcall₁, h₄⟩ := bind_eq_ok h₃
  obtain ⟨hinit, rfl⟩ := eval_eq_ok hcall₁
  obtain ⟨b₂, _, hcall₂, h₅⟩ := bind_eq_ok h₄
  obtain ⟨hsign, rfl⟩ := eval_eq_ok hcall₂
  have hbound := Block.Bound.of_update hsign
  obtain ⟨_, _, -, -, hb₁⟩ := Block.update_eq_ok hinit
  obtain ⟨_, _, -, -, hb₂⟩ := Block.update_eq_ok hsign
  subst hb₁
  have hticket : { b₂ with ticketNumber := i } = b₂ := by rw [hb₂]
  rw [hticket] at h₅
  cases h₅
  refine ⟨?_, ?_, ?_, ?_, ?_, ?_, hbound⟩
  · rw [hb₂]; exact hparent
  · rw [hb₂]
  · rw [hb₂]
  · rw [hb₂]
  · rw [hb₂]
  · rw [hb₂]

/-! ## What is produced -/

/-- What `generate_block` makes in state `s`. -/
structure Generated (env : NodeEnv K) (mock : Int → TransactionList) (s : BlockChain) (b : Block) :
    Prop where
  parentHash : getLastBlockHash s = .ok b.parentHash s
  round : b.round = s.currentRound
  index : b.index = s.localChains.length
  ownerPubkey : b.ownerPubkey = env.publicKey
  ticketNumber : 0 ≤ b.ticketNumber ∧ b.ticketNumber < lookupNodeStake env.id
  transactions :
    b.transactions
      = (if env.useMockTransactions then mock b.ticketNumber else TransactionList.new).transactions
  bound : b.Bound
  valid : b.Valid env.toEnv

/-- It is made for the end of the chain. -/
theorem Generated.on_tip (h : Generated env mock s b) {c : Chain (rules env.toEnv)}
    (hc : Represents env.toEnv s c) {tip : Block} (htip : c.blocks.getLast? = some tip) :
    b.index = c.blocks.length ∧ b.parentHash = tip.hash := by
  have hparent := h.parentHash.symm.trans (hc.run_getLastBlockHash htip)
  refine ⟨?_, (EStateM.Result.ok.inj hparent).1⟩
  rw [h.index, hc.length]

theorem MadeFor.generated {i : Int} (h : MadeFor env mock s i b) (hi : 0 ≤ i)
    (hstake : i < lookupNodeStake env.id) (hvalid : b.Valid env.toEnv) :
    Generated env mock s b := by
  obtain ⟨hparent, hround, hindex, howner, rfl, htransactions, hbound⟩ := h
  exact ⟨hparent, hround, hindex, howner, ⟨hi, hstake⟩, htransactions, hbound, hvalid⟩

theorem generateCandidate_ok {candidate : Option Block} {i : Int} (hi : 0 ≤ i)
    (hstake : i < lookupNodeStake env.id)
    (h : generateCandidate env mock candidate i s = .ok (some b) s') :
    candidate = some b ∨ Generated env mock s b := by
  rw [generateCandidate_eq] at h
  obtain ⟨b₁, s₁, hticket, h₁⟩ := bind_eq_ok h
  obtain rfl : s = s₁ := (ticketBlock_keeps mock i).of_ok hticket
  obtain ⟨r, _, hcall, h₂⟩ := bind_eq_ok h₁
  obtain ⟨hvalid, rfl⟩ := eval_eq_ok hcall
  cases r with
  | none =>
      cases h₂
      exact .inl rfl
  | some w =>
      by_cases hw : w = 0
      · simp only [if_pos hw] at h₂
        cases h₂
        exact .inl rfl
      simp only [if_neg hw] at h₂
      have hgenerated := (ticketBlock_ok hticket).generated hi hstake ⟨w, hvalid, hw⟩
      cases candidate with
      | none =>
          cases h₂
          exact .inr hgenerated
      | some best =>
          have hbest : EStateM.Result.ok
              (if b₁.proofHash < best.proofHash then some b₁ else some best) s
              = .ok (some b) s' := h₂
          have h₃ := (EStateM.Result.ok.inj hbest).1
          split at h₃
          · cases h₃
            exact .inr hgenerated
          · exact .inl h₃

theorem generateCandidates_ok {indices : List Int}
    (hindices : ∀ i ∈ indices, 0 ≤ i ∧ i < lookupNodeStake env.id) :
    ∀ {candidate : Option Block}, indices.foldlM (generateCandidate env mock) candidate s
      = .ok (some b) s' → candidate = some b ∨ Generated env mock s b := by
  induction indices with
  | nil =>
      intro candidate h
      cases h
      exact .inl rfl
  | cons i indices ih =>
      intro candidate h
      rw [List.foldlM_cons] at h
      obtain ⟨hi, hrest⟩ := List.forall_mem_cons.mp hindices
      obtain ⟨candidate', s₁, hturn, h₁⟩ := bind_eq_ok h
      obtain rfl : s = s₁ := (generateCandidate_keeps mock candidate i).of_ok hturn
      rcases ih hrest h₁ with rfl | hgenerated
      · exact generateCandidate_ok hi.1 hi.2 hturn
      · exact .inr hgenerated

/-- A produced block is one that some ticket won. -/
theorem generateBlock_ok (h : generateBlock env mock s = .ok (some b) s') :
    Generated env mock s b := by
  have hindices : ∀ i ∈ rangeUp 0 (lookupNodeStake env.id), 0 ≤ i ∧ i < lookupNodeStake env.id := by
    intro i hi
    have hzero : i ∈ ([0] : List Int) := hi
    obtain rfl := List.mem_singleton.mp hzero
    exact ⟨le_refl _, show (0 : Int) < 1 by decide⟩
  rcases generateCandidates_ok hindices h with hnone | hgenerated
  · cases hnone
  · exact hgenerated

/-- A node has one ticket, and produces its block if that is valid. -/
theorem generateBlock_of_valid (hblock : returned (ticketBlock env mock 0) s = some b)
    (hvalid : b.Valid env.toEnv) : generateBlock env mock s = .ok (some b) s := by
  obtain ⟨w, hw, hne⟩ := hvalid
  have hticket := ok_of_returned hblock
  have hkeeps : s = after (ticketBlock env mock 0) s := ticketBlock_keeps mock 0 s
  rw [← hkeeps] at hticket
  have hone : generateBlock env mock = generateCandidate env mock none 0 := by
    show (generateCandidate env mock none 0 >>= fun candidate => pure candidate) = _
    rw [bind_pure]
  have heval : (eval (validateBlock env.toEnv b) : Call (Option Int)) s = .ok (some w) s := by
    simp only [eval, hw]
  rw [hone, generateCandidate_eq, bind_ok hticket, bind_ok heval]
  show (if w = 0 then _ else _ : Call (Option Block)) s = _
  rw [if_neg hne]
  rfl

end Cpos
