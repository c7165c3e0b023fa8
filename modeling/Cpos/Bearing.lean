import Cpos.Convergence
import Cpos.Posts

/-!
# Where a node's blocks come from

A node keeps blocks in its chain, among the missed ones and in the list
of a resync, and it posts blocks. Apart from the genesis block, each of
them is one that it was sent or has made, or one that `compose_block` has
read back from a row (`Act.Leads.bears`). This holds of every node and
whatever it is sent: the property `O` that the blocks have is arbitrary,
as long as reading back preserves it.

Requests are for blocks counted from the end, so that none is answered
with the genesis block.
-/

namespace Cpos

open Python ByteString LinkedChain BlockChain

variable {K : Type} [PyNum K] {O : Block → Prop}

/-- Every block that the node keeps is a genesis block or satisfies `O`. -/
structure Node.Holds (env : Env K) (O : Block → Prop) (n : Node) : Prop where
  chain : ∃ c : Chain (rules env), Represents env n.bc c ∧ ∀ b ∈ c.blocks, b = genesisBlock ∨ O b
  missed : ∀ missed ∈ n.missedBlocks, O missed.1
  received : ∀ b ∈ n.receivedResyncBlocks, O b
  asks : n.state = .resyncing → ∃ requestIndex < 0, n.requestIndex = some requestIndex

/-- The block that comes with the message satisfies `O`. -/
def Message.Bears (O : Block → Prop) : Message → Prop
  | .blockBroadcast block _ => O block
  | .resyncResponse (some block) => O block
  | .resyncRequest _ blockIndex => blockIndex < 0
  | _ => True

/-! ## The chain -/

section Chain

variable {env : Env K} {s : BlockChain} {c : Chain (rules env)}

/-- An answer is a block of the chain, read back. -/
theorem Represents.answer_reloaded (h : Represents env s c) {blockIndex : Int}
    (hneg : blockIndex < 0) {block : Block}
    (hanswer : returned (resyncAnswer blockIndex) s = some (some block)) :
    ∃ i b, c.blocks[i + 1]? = some b ∧ b.reloaded = .ok block := by
  have hrun : resyncAnswer blockIndex s = (if c.blocks.length > |blockIndex| then
      blockByIndex blockIndex >>= fun b => pure (some b) else pure none :
      Call (Option Block)) s := by
    rw [resyncAnswer, bind_ok h.run_numberOfBlocks]
  have hok := ok_of_returned hanswer
  rw [hrun] at hok
  by_cases hlt : c.blocks.length > |blockIndex|
  swap
  · rw [if_neg hlt] at hok
    cases hok
  rw [if_pos hlt] at hok
  have habs : |blockIndex| = -blockIndex := abs_of_neg hneg
  obtain ⟨i, hi⟩ : ∃ i : Nat, c.blocks.length + blockIndex = (i + 1 : Nat) :=
    ⟨(c.blocks.length + blockIndex - 1).toNat, by omega⟩
  have hb := List.getElem?_eq_getElem (l := c.blocks) (i := i + 1) (by omega)
  obtain ⟨b', s', hblock, hrest⟩ := bind_eq_ok hok
  cases hrest
  rw [h.run_blockByIndex (by rw [if_pos hneg, hi]) hb] at hblock
  exact ⟨i, _, hb, (eval_eq_ok hblock).1⟩

/-- Blocks satisfy `O` above the genesis block. -/
def Chain.Holds (O : Block → Prop) (c : Chain (rules env)) : Prop :=
  ∀ b ∈ c.blocks, b = genesisBlock ∨ O b

theorem Chain.Holds.of_subset {c' : Chain (rules env)} {bs : List Block} (hc : Chain.Holds O c)
    (hbs : ∀ b ∈ bs, O b) (hsub : c'.blocks ⊆ c.blocks ++ bs) : Chain.Holds O c' := fun b hb =>
  (List.mem_append.mp (hsub hb)).elim (hc b) fun hb => .inr (hbs b hb)

theorem Chain.Holds.at_succ (hc : Chain.Holds O c) {i : Nat} {b : Block}
    (hb : c.blocks[i + 1]? = some b) : O b := by
  rcases hc b (List.mem_of_getElem? hb) with rfl | hO
  · have hidx := index_at hb
    have hzero : genesisBlock.index = 0 := rfl
    omega
  · exact hO

theorem returned_merge_subset (h : Represents env s c) {first : Block} {rest left : List Block}
    {merged : Bool} {s' : BlockChain} (hrun : merge env (first :: rest) s = .ok (merged, left) s') :
    left ⊆ first :: rest := by
  have hspec := merge_spec h (allPrintable_of_returned (returned_ok hrun))
  rw [hrun] at hspec
  cases hspec with
  | noAncestor _ => exact List.Subset.refl _
  | rejected _ _ _ _ => exact List.subset_cons_self ..
  | sameRound _ _ _ _ _ _ => exact List.subset_cons_self ..
  | adopted _ _ _ _ _ _ _ _ => exact List.subset_cons_self ..

end Chain

/-! ## One act -/

section Acts

variable {env : LoopEnv K} {n n' : Node} {a : Act}

theorem Quiet.holds (h : Quiet n n') (hn : n.Holds env.toEnv O) : n'.Holds env.toEnv O where
  chain := h.bc ▸ hn.chain
  missed := h.missedBlocks ▸ hn.missed
  received := h.receivedResyncBlocks ▸ hn.received
  asks := by
    rw [h.state, h.requestIndex]
    exact hn.asks

/-- A block of the list is offered to the chain, or the whole list. -/
theorem Node.Holds.chain_of {bc : BlockChain} {bs : List Block} (hn : n.Holds env.toEnv O)
    (hbs : ∀ b ∈ bs, O b) (h : ∀ {c : Chain (rules env.toEnv)}, Represents env.toEnv n.bc c →
      ∃ c', Represents env.toEnv bc c' ∧ c'.blocks ⊆ c.blocks ++ bs) :
    ∃ c : Chain (rules env.toEnv), Represents env.toEnv bc c ∧ Chain.Holds O c := by
  obtain ⟨c, hc, hblocks⟩ := hn.chain
  obtain ⟨c', hc', hsub⟩ := h hc
  exact ⟨c', hc', Chain.Holds.of_subset hblocks hbs hsub⟩

theorem Node.Holds.inserted {bc : BlockChain} {block : Block} {stored : Bool}
    (hn : n.Holds env.toEnv O) (hblock : O block)
    (hrun : insert env.toEnv block n.bc = .ok stored bc) :
    ∃ c : Chain (rules env.toEnv), Represents env.toEnv bc c ∧ Chain.Holds O c := by
  refine hn.chain_of (List.forall_mem_singleton.mpr hblock) fun hc => ?_
  rw [← after_ok hrun]
  exact insert_represents hc block

theorem Effect.holds (h : Effect env n a n') (hmade : ∀ b ∈ a.made env n, O b)
    (hmsg : ∀ msg, a = .handle msg → msg.Bears O) (hn : n.Holds env.toEnv O) :
    n'.Holds env.toEnv O := by
  have hmerges {block : Block} {merged : Bool} {left : List Block} {bc : BlockChain}
      (hblock : O block)
      (hrun : merge env.toEnv (block :: n.receivedResyncBlocks) n.bc = .ok (merged, left) bc) :
      (∃ c : Chain (rules env.toEnv), Represents env.toEnv bc c ∧ Chain.Holds O c) ∧
        ∀ b ∈ left, O b := by
    have hall : ∀ b ∈ block :: n.receivedResyncBlocks, O b :=
      List.forall_mem_cons.mpr ⟨hblock, hn.received⟩
    refine ⟨hn.chain_of hall fun hc => after_ok hrun ▸ merge_represents hc _, fun b hb => ?_⟩
    obtain ⟨c, hc, -⟩ := hn.chain
    exact hall b (returned_merge_subset hc hrun hb)
  have hunforked {bc : BlockChain} (forkDetected : Bool)
      (h : ∃ c : Chain (rules env.toEnv), Represents env.toEnv bc c ∧ Chain.Holds O c) :
      ∃ c : Chain (rules env.toEnv), Represents env.toEnv { bc with forkDetected } c ∧
        Chain.Holds O c := by
    obtain ⟨c, hc, hblocks⟩ := h
    exact ⟨c, hc.of_rows rfl, hblocks⟩
  cases h with
  | quiet h => exact h.holds hn
  | rounds fuel bc hrun =>
      obtain ⟨c, hc, hblocks⟩ := hn.chain
      exact ⟨⟨c, hc.confirms ((updateRound_confirms fuel).of_ok hrun), hblocks⟩, hn.missed,
        hn.received, hn.asks⟩
  | @produced mock _ block hcreated hgenerated stored hrun hrest =>
      have hblock : O block := hmade block (by
        rw [Act.made, if_pos hcreated, hgenerated]
        exact List.mem_singleton_self _)
      exact hrest.holds ⟨hn.inserted hblock hrun, hn.missed, hn.received, hn.asks⟩
  | @delivered block peerId _ hlistening hadmits stored hrun hrest =>
      have hblock : O block := hmsg _ rfl
      refine hrest.holds ⟨hn.inserted hblock hrun, fun missed hmem => ?_, hn.received, hn.asks⟩
      simp only at hmem
      split at hmem
      · exact hn.missed missed hmem
      · rcases List.mem_append.mp hmem with hmem | hmem
        · exact hn.missed missed hmem
        · rw [List.mem_singleton.mp hmem]
          exact hblock
  | started hdue hbc hmissed hreceived hasks =>
      exact ⟨hbc ▸ hn.chain, fun missed hmem => hn.missed missed (hmissed hmem),
        hreceived ▸ hn.received, fun hresyncing => ⟨-1, by decide, hasks hresyncing⟩⟩
  | noBlock hresyncing hmissed hrest =>
      let chosen : Node := { n with receivedResyncBlocks := [] }
      have hframe := chooseMissed_frame env.toNodeEnv chosen
      have hindex : (chooseMissed env.toNodeEnv chosen).requestIndex = some (-1) :=
        (chooseMissed_of_ne_nil (n := chosen) hmissed).1
      refine hrest.holds ⟨?_, fun missed hmem => ?_, ?_, fun _ => ⟨-1, by decide, hindex⟩⟩
      · rw [hframe.1]
        exact hn.chain
      · exact hn.missed missed (chooseMissed_missedBlocks _ chosen hmem)
      · rw [hframe.2.2]
        simp [chosen]
  | aborted _ _ hrest =>
      exact hrest.holds ⟨hunforked false hn.chain, hn.missed, by simp, by simp⟩
  | @merged block _ _ left bc hrun hrest =>
      have hblock : O block := hmsg _ rfl
      exact hrest.holds ⟨hunforked false (hmerges hblock hrun).1, by simp, by simp, by simp⟩
  | @unmerged block _ hresyncing left bc hrun hrest =>
      have hblock : O block := hmsg _ rfl
      obtain ⟨hchain, hleft⟩ := hmerges hblock hrun
      refine hrest.holds ⟨hchain, hn.missed, hleft, fun hstate => ?_⟩
      obtain ⟨index, hneg, hindex⟩ := hn.asks hstate
      exact ⟨index - 1, by omega, by rw [hindex]; rfl⟩

/-- **Where blocks come from.** Whatever a node does, the blocks that it
keeps and those it posts satisfy `O`, if the ones it had, makes and is
sent do. -/
theorem Act.Leads.bears (hreload : ∀ {b b'}, O b → b.reloaded = .ok b' → O b')
    (h : a.Leads env n n') (hmade : ∀ b ∈ a.made env n, O b)
    (hmsg : ∀ msg, a = .handle msg → msg.Bears O) (hn : n.Holds env.toEnv O) :
    n'.Holds env.toEnv O ∧ ∀ p ∈ a.posts env n, p.2.Bears O := by
  have hn' := h.effect.holds hmade hmsg hn
  refine ⟨hn', fun p hp => ?_⟩
  cases h.posts hp with
  | asks _ hasks =>
      obtain ⟨missed, index, -, hindex, rfl⟩ := hasks.request
      obtain ⟨index', hneg, hindex'⟩ := hn'.asks hasks.resyncing
      obtain rfl := Option.some.inj (hindex.symm.trans hindex')
      exact hneg
  | @answers peerId blockIndex answer hanswer =>
      cases answer with
      | none => trivial
      | some block =>
          have hneg : blockIndex < 0 := hmsg _ rfl
          obtain ⟨c, hc, hblocks⟩ := hn.chain
          obtain ⟨i, b, hb, hre⟩ := hc.answer_reloaded hneg hanswer
          exact hreload (Chain.Holds.at_succ hblocks hb) hre
  | forwards _ => exact (hmsg _ rfl : O _)
  | announces hmem => exact hmade _ hmem
  | parts => trivial

end Acts

end Cpos
