import Cpos.Deployment

/-!
# Every block has an author

In a deployment all blocks come from `generate_block`. A block that a node
has made is its own: it carries the node's key and signature, hashes that
are those of its contents, a ticket that exists, and a place above the
genesis block (`MadeBy`). Reading it back from a row changes the
transaction hash and the hash, and nothing else.

Every block that a node stores, misses or has received in a resync, and
every block under way, is a block that its owner has made, or one read
back from its row (`provenance`).
-/

namespace Cpos

open Python ByteString Sha256 LinkedChain BlockChain Actors

variable {ι K : Type} [PyNum K]

/-! ## What a ticket is made into -/

section Tickets

variable {env : NodeEnv K} {mock : Int → TransactionList} {s s' : BlockChain} {b b' : Block}

/-- The node hash is signed; the transaction hash is the list's. -/
theorem ticketBlock_signed {i : Int} (h : ticketBlock env mock i s = .ok b s') :
    b.signedNodeHash = env.sign b.nodeHash ∧ b.transactionHash
      = (if env.useMockTransactions then mock i else TransactionList.new).transactionsHash := by
  obtain ⟨parentHash, s₁, -, h₁⟩ := bind_eq_ok h
  obtain ⟨_, _, hget, h₂⟩ := bind_eq_ok h₁
  cases hget
  obtain ⟨_, _, hnumber, h₃⟩ := bind_eq_ok h₂
  cases hnumber
  obtain ⟨b₁, _, hcall₁, h₄⟩ := bind_eq_ok h₃
  obtain ⟨hinit, rfl⟩ := eval_eq_ok hcall₁
  obtain ⟨b₂, _, hcall₂, h₅⟩ := bind_eq_ok h₄
  obtain ⟨hsign, rfl⟩ := eval_eq_ok hcall₂
  cases h₅
  obtain ⟨r, _, hr, -, hb₁⟩ := Block.update_eq_ok hinit
  obtain ⟨r', _, hr', -, hb₂⟩ := Block.update_eq_ok hsign
  subst hb₁
  obtain rfl : r = r' := Option.some.inj (hr.symm.trans hr')
  subst hb₂
  exact ⟨rfl, rfl⟩

/-- A node has one ticket. -/
theorem generateBlock_eq : generateBlock env mock = generateCandidate env mock none 0 := by
  show (generateCandidate env mock none 0 >>= fun candidate => pure candidate) = _
  rw [bind_pure]

theorem generateBlock_ticket (h : generateBlock env mock s = .ok (some b) s') :
    ticketBlock env mock 0 s = .ok b s := by
  rw [generateBlock_eq, generateCandidate_eq] at h
  obtain ⟨b₁, s₁, hticket, h₁⟩ := bind_eq_ok h
  obtain rfl : s = s₁ := (ticketBlock_keeps mock 0).of_ok hticket
  obtain ⟨r, _, hcall, h₂⟩ := bind_eq_ok h₁
  cases r with
  | none => cases h₂
  | some w =>
      by_cases hw : w = 0
      · simp only [if_pos hw] at h₂
        cases h₂
      · simp only [if_neg hw] at h₂
        cases h₂
        exact hticket

/-- The text of a list has brackets. -/
theorem strList_ne_empty (xs : List String) : strList xs ≠ "" := by
  intro h
  have hlength := congrArg String.length h
  rw [strList, String.length_append] at hlength
  have hclose : "]".length = 1 := rfl
  have hempty : "".length = 0 := rfl
  omega

/-- Read back, a bound block has an empty transaction hash, and another
hash. -/
theorem Block.Bound.reloaded_eq (hb : b.Bound) (h : b.reloaded = .ok b') :
    b' = { b with transactionHash := [], hash := b'.hash } := by
  obtain ⟨r, t, hr, ht, hnode, hproof, -, -⟩ := hb.hashes
  obtain ⟨r', t', hr', ht', hb'⟩ := Block.update_eq_ok h
  obtain rfl : r = r' := Option.some.inj (hr.symm.trans hr')
  obtain rfl : t = t' := Option.some.inj (ht.symm.trans ht')
  subst hb'
  rw [hnode] at hproof
  rw [Block.mk.injEq]
  exact ⟨rfl, rfl, rfl, rfl, rfl, rfl, rfl, rfl, hnode.symm, hproof.symm, rfl⟩

/-- Without transactions, it comes back as it was. -/
theorem reloaded_of_plain (hb : b.Bound) (h : b.transactionHash = []) : b.reloaded = .ok b := by
  have hb' : ({ b with transactionHash := [] } : Block) = b := by
    rw [← h]
  rw [Block.reloaded, hb']
  exact hb

/-- Read back again, it is the same. -/
theorem reloaded_reloaded (h : b.reloaded = .ok b') : b'.reloaded = .ok b' :=
  reloaded_of_plain (Block.Bound.of_update h) (transactionHash_reloaded h)

theorem Block.Valid.key_length {env : Env K} (h : b.Valid env) : b.ownerPubkey.length = 32 := by
  obtain ⟨w, hw, -⟩ := h
  refine env.fromPublicBytes_length _ ?_
  by_contra hkey
  rw [validateBlock, validateBlockOfStake, if_pos (by simpa using hkey)] at hw
  cases hw

end Tickets

/-! ## The author of a block -/

namespace Deployment

variable {D : Deployment ι K} {S S' : System ι} {i : ι} {b b' m : Block}

/-- The block is one that node `i` can have made. -/
structure MadeBy (D : Deployment ι K) (i : ι) (b : Block) : Prop where
  ownerPubkey : b.ownerPubkey = (D.member i).publicKey
  signedNodeHash : b.signedNodeHash = (D.member i).sign b.nodeHash
  isSealed : b.Sealed
  parentHash_length : b.parentHash.length = 1 ∨ b.parentHash.length = 32
  index_pos : 1 ≤ b.index
  ticketNumber : b.ticketNumber = 0
  transactions : fitsLongtext b.transactions = true
  valid : b.Valid D.base

/-- Some node can have made the block. -/
def Authored (D : Deployment ι K) (b : Block) : Prop := ∃ i, D.MadeBy i b

theorem valid_iff : b.Valid (D.member i).toEnv ↔ b.Valid D.base := by
  obtain ⟨time, h⟩ := D.shares i
  rw [h]
  exact Iff.rfl

theorem MadeBy.reloaded (h : D.MadeBy i b) (hre : b.reloaded = .ok b') : D.MadeBy i b' := by
  have hbound : b'.Bound := Block.Bound.of_update hre
  have hhash := transactionHash_reloaded hre
  have hb' := h.isSealed.bound.reloaded_eq hre
  have hvalid : b'.Valid D.base := by
    rw [hb']
    exact h.valid
  refine ⟨?_, ?_, ⟨hbound, .inl hhash⟩, ?_, ?_, ?_, ?_, hvalid⟩
  · rw [hb']; exact h.ownerPubkey
  · rw [hb']; exact h.signedNodeHash
  · rw [hb']; exact h.parentHash_length
  · rw [hb']; exact h.index_pos
  · rw [hb']; exact h.ticketNumber
  · rw [hb']; exact h.transactions

theorem Authored.reloaded (h : D.Authored b) (hre : b.reloaded = .ok b') : D.Authored b' :=
  ⟨h.choose, h.choose_spec.reloaded hre⟩

/-- Above a chain of such blocks, a node makes such a block. -/
theorem madeBy_of_generated {mock : Int → TransactionList} (hdraws : Draws mock) {n : Node}
    (hn : n.Holds (D.member i).toEnv D.Authored)
    (h : generateBlock (D.member i).toNodeEnv mock n.bc = .ok (some b) n.bc) : D.MadeBy i b := by
  have hmade := generateBlock_ok h
  have hticket := generateBlock_ticket h
  obtain ⟨hsigned, htxhash⟩ := ticketBlock_signed hticket
  have hzero := (ticketBlock_ok hticket).ticketNumber
  have htx : b.transactionHash = [] ∨ b.transactionHash.length = 32 := by
    rw [htxhash]
    split
    · obtain ⟨rows, hrows, -⟩ := hdraws 0
      rw [hrows]
      show (mockGetHash (strList rows) : Bytes) = [] ∨ (mockGetHash (strList rows)).length = 32
      rw [mockGetHash, if_neg (strList_ne_empty rows)]
      exact .inr (sha256_length _)
    · exact .inl rfl
  have htext : fitsLongtext b.transactions = true := by
    rw [hmade.transactions]
    split
    · obtain ⟨rows, hrows, hfits⟩ := hdraws b.ticketNumber
      rw [hrows]
      exact hfits
    · rfl
  obtain ⟨c, hc, hblocks⟩ := hn.chain
  obtain ⟨tip, htip⟩ := c.exists_tip
  obtain ⟨hindex, hparent⟩ := hmade.on_tip hc htip
  have hlen := c.length_pos
  refine ⟨hmade.ownerPubkey, hsigned, ⟨hmade.bound, htx⟩, ?_, by omega, hzero, htext,
    valid_iff.mp hmade.valid⟩
  rw [hparent]
  rcases hblocks tip (List.mem_of_mem_getLast? htip) with rfl | ⟨j, hj⟩
  · exact .inl rfl
  · exact .inr hj.isSealed.hash_length

end Deployment

/-! ## The acts of a move -/

section Acts

variable {env : LoopEnv K} {n n' : Node} {a : Act} {b : Block}
  {input : Option (Bytes × Message)} {O : Block → Prop}

theorem of_mem_made (h : b ∈ a.made env n) : ∃ mock, a = .produce mock ∧
    generateBlock env.toNodeEnv mock n.bc = .ok (some b) n.bc := by
  cases a with
  | produce mock =>
      refine ⟨mock, rfl, ?_⟩
      rw [Act.made] at h
      split at h
      · have hsome : (returned (generateBlock env.toNodeEnv mock) n.bc).getD none = some b :=
          Option.mem_toList.mp h
        have hret := ok_of_returned (Option.getD_eq_iff.mp hsome |>.resolve_right (by simp))
        rwa [← (generateBlock_keeps mock).of_ok hret] at hret
      · cases h
  | startResync => cases h
  | updateRound _ => cases h
  | read _ => cases h
  | handle _ => cases h
  | controlPeers _ _ => cases h

theorem Allowed.draws {mock : Int → TransactionList} (h : Allowed input (.produce mock)) :
    Draws mock := by
  cases h with
  | produce h => exact h

theorem Allowed.handled {msg : Message} (h : Allowed input (.handle msg)) :
    ∃ sender, input = some (sender, msg) := by
  cases h with
  | handle h => exact ⟨_, h⟩

theorem Node.Started.holds (h : n.Started env.toNodeEnv) : n.Holds env.toEnv O := by
  obtain ⟨fuel, hrun⟩ := h.bc
  have hconfirms : Confirms .init n.bc := (updateRound_confirms fuel).of_ok hrun
  have h₀ : Represents env.toEnv .init (genesisChain env.toEnv) := represents_genesis rfl
  refine ⟨⟨_, h₀.confirms hconfirms, fun b hb => .inl (List.mem_singleton.mp hb)⟩, ?_, ?_, ?_⟩
  · rw [h.missedBlocks]
    simp
  · rw [h.receivedResyncBlocks]
    simp
  · rw [h.state]
    simp

end Acts

namespace Deployment

variable {D : Deployment ι K} {S S' : System ι} {i : ι} {b b' m : Block}

/-! ## Provenance -/

/-- The nodes keep and post blocks that some node can have made, and make
blocks of their own. -/
theorem Reachable.authored (h : D.Reachable S) :
    S.Holds (fun _ i p => p.node.Holds (D.member i).toEnv D.Authored ∧ ∀ m ∈ p.made, D.MadeBy i m)
      fun _ e => e.msg.Bears D.Authored := by
  obtain ⟨S₀, hstarted, hleadsTo⟩ := h
  refine hleadsTo.always ?_ ⟨fun i => ⟨(hstarted.nodes i).node.holds, ?_⟩, fun e he => ?_⟩
  · intro i p input p' posts hmove hp hinput
    obtain ⟨hnode, hmade⟩ := hp
    have hkeeps : p'.node.Holds (D.member i).toEnv D.Authored ∧
        (∀ post ∈ posts, post.2.Bears D.Authored) ∧ ∀ b ∈ p'.made, b ∈ p.made ∨ D.MadeBy i b := by
      refine Process.Move.keeps (fun {a n n'} hallowed hleads _ hn => ?_) hmove hnode
      have hmakes : ∀ b ∈ a.made (D.member i) n, D.MadeBy i b := fun b hb => by
        obtain ⟨mock, rfl, hrun⟩ := of_mem_made hb
        exact madeBy_of_generated hallowed.draws hn hrun
      obtain ⟨hn', hposts⟩ := hleads.bears (fun hO hre => Authored.reloaded hO hre)
        (fun b hb => ⟨i, hmakes b hb⟩) (fun msg ha => by
          obtain ⟨sender, hread⟩ := (ha ▸ hallowed).handled
          exact hinput sender msg hread) hn
      exact ⟨hn', hposts, hmakes⟩
    obtain ⟨hnode', hposts, hmade'⟩ := hkeeps
    exact ⟨⟨hnode', fun m hm => (hmade' m hm).elim (hmade m) id⟩, hposts⟩
  · rw [(hstarted.nodes i).made]
    simp
  · rw [(hstarted.hellos e he).1]
    trivial

theorem Reachable.represented (h : D.Reachable S) (i : ι) :
    ∃ c, Represents (D.member i).toEnv (S.party i).node.bc c := by
  obtain ⟨c, hc, -⟩ := (h.authored.parties i).1.chain
  exact ⟨c, hc⟩

/-- The block is one that a node has made, or one that `compose_block` has
read back from its row. -/
def Traced (S : System ι) (b : Block) : Prop :=
  ∃ i, ∃ m ∈ (S.party i).made, b = m ∨ m.reloaded = .ok b

theorem Traced.reloaded (h : Traced S b) (hre : b.reloaded = .ok b') : Traced S b' := by
  obtain ⟨i, m, hm, rfl | hcopy⟩ := h
  · exact ⟨i, b, hm, .inr hre⟩
  · rw [reloaded_reloaded hcopy] at hre
    cases hre
    exact ⟨i, m, hm, .inr hcopy⟩

theorem made_subset (h : Step D.parties S S') (i : ι) :
    (S.party i).made ⊆ (S'.party i).made := by
  cases h with
  | @moves j input rest posts h =>
      by_cases hij : i = j
      · subst hij
        exact Process.Move.made_subset h.move
      · rw [h.others i hij]
        exact List.Subset.refl _
  | loses h hparty =>
      rw [hparty]
      exact List.Subset.refl _

theorem Traced.step (hstep : Step D.parties S S') (h : Traced S b) : Traced S' b := by
  obtain ⟨i, m, hm, hcopy⟩ := h
  exact ⟨i, m, made_subset hstep i hm, hcopy⟩

end Deployment

section Mono

variable {O O' : Block → Prop} (hO : ∀ b, O b → O' b)
include hO

theorem Node.Holds.mono {env : Env K} {n : Node} (h : n.Holds env O) : n.Holds env O' := by
  obtain ⟨⟨c, hc, hblocks⟩, hmissed, hreceived, hasks⟩ := h
  exact ⟨⟨c, hc, fun b hb => (hblocks b hb).imp_right (hO b)⟩,
    fun missed hmem => hO _ (hmissed missed hmem), fun b hb => hO b (hreceived b hb), hasks⟩

theorem Message.Bears.mono : ∀ {msg : Message}, msg.Bears O → msg.Bears O'
  | .blockBroadcast _ _, h => hO _ h
  | .resyncResponse (some _), h => hO _ h
  | .resyncResponse none, _ => trivial
  | .resyncRequest _ _, h => h
  | .hello _, _ => trivial
  | .peerListRequest, _ => trivial
  | .peerList, _ => trivial
  | .peerForgetRequest _, _ => trivial

end Mono

namespace Deployment

variable {D : Deployment ι K} {S S' : System ι} {i : ι} {b b' m : Block}

/-- An act of a move keeps to blocks that nodes have made. -/
theorem leads_traced {env : LoopEnv K} {input : Option (Bytes × Message)} {a : Act} {n n' : Node}
    (hallowed : Allowed input a) (hleads : a.Leads env n n')
    (hmade : a.made env n ⊆ (S.party i).made)
    (hinput : ∀ sender msg, input = some (sender, msg) → msg.Bears (Traced S))
    (hn : n.Holds env.toEnv (Traced S)) :
    n'.Holds env.toEnv (Traced S) ∧ ∀ p ∈ a.posts env n, p.2.Bears (Traced S) :=
  hleads.bears (fun hO hre => Traced.reloaded hO hre) (fun b hb => ⟨i, b, hmade hb, .inl rfl⟩)
    (fun msg ha => by
      obtain ⟨sender, hread⟩ := (ha ▸ hallowed).handled
      exact hinput sender msg hread) hn

/-- The nodes keep and post blocks that they have made. -/
theorem Reachable.traced (h : D.Reachable S) :
    S.Holds (fun S i p => p.node.Holds (D.member i).toEnv (Traced S))
      fun S e => e.msg.Bears (Traced S) := by
  obtain ⟨S₀, hstarted, hleadsTo⟩ := h
  refine hleadsTo.holds_of_stable (fun hstep hI => hI.mono fun b => Traced.step hstep)
    (fun hstep hJ => hJ.mono fun b => Traced.step hstep) ?_
    ⟨fun i => (hstarted.nodes i).node.holds, fun e he => ?_⟩
  · intro S i input rest posts S' _ hholds hmoves hinput
    have hstep := hmoves.step
    have hnode : (S.party i).node.Holds (D.member i).toEnv (Traced S') :=
      (hholds.parties i).mono fun b => Traced.step hstep
    have hkeeps : (S'.party i).node.Holds (D.member i).toEnv (Traced S') ∧
        (∀ post ∈ posts, post.2.Bears (Traced S')) ∧
        ∀ b ∈ (S'.party i).made, b ∈ (S.party i).made ∨ True := by
      refine Process.Move.keeps (fun {a n n'} hallowed hleads hsub hn => ?_) hmoves.move hnode
      obtain ⟨hn', hposts⟩ := leads_traced hallowed hleads hsub (fun sender msg hread =>
        (hinput sender msg hread).mono fun b => Traced.step hstep) hn
      exact ⟨hn', hposts, fun _ _ => trivial⟩
    exact ⟨hkeeps.1, hkeeps.2.1⟩
  · rw [(hstarted.hellos e he).1]
    trivial

/-- The block is one that its owner has made, with the owner's key and
signature, or one read back from the row of such a block. -/
def Original (D : Deployment ι K) (S : System ι) (b : Block) : Prop :=
  ∃ i, D.MadeBy i b ∧ ∃ m ∈ (S.party i).made, b = m ∨ m.reloaded = .ok b

theorem Reachable.original (h : D.Reachable S) (hb : Traced S b) : D.Original S b := by
  obtain ⟨i, m, hm, hcopy⟩ := hb
  have hmade := (h.authored.parties i).2 m hm
  refine ⟨i, ?_, m, hm, hcopy⟩
  rcases hcopy with rfl | hre
  · exact hmade
  · exact hmade.reloaded hre

/-- **Provenance.** Whatever is delivered, lost or delayed: every block
that a node stores above the genesis block, misses or has received in a
resync, and every block under way, is one that its owner has made. -/
theorem provenance (h : D.Reachable S) :
    (∀ i, (S.party i).node.Holds (D.member i).toEnv (D.Original S)) ∧
      ∀ e ∈ S.underWay, e.msg.Bears (D.Original S) :=
  ⟨fun i => (h.traced.parties i).mono fun _ => h.original,
    fun e he => (h.traced.messages e he).mono fun _ => h.original⟩

end Deployment

/-- The row that the second node has stored, and its request. -/
theorem pair_provenance :
    (pairSystem.party .second).node.bc.localChains.length = 2 ∧ pairSystem.underWay.length = 1 ∧
      (∀ i, (pairSystem.party i).node.Holds (pair.member i).toEnv (pair.Original pairSystem)) ∧
        ∀ e ∈ pairSystem.underWay, e.msg.Bears (pair.Original pairSystem) :=
  ⟨pairSystem_run.2.stored, pairSystem_run.2.underWay, Deployment.provenance pairSystem_reachable⟩

end Cpos
