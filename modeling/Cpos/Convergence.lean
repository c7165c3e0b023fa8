import Cpos.HashLinks
import Cpos.MergeLaws
import Cpos.Reload
import Cpos.Session

/-!
# Resynchronizing with an honest peer

A node resynchronizes with a peer whose chain was built by the same
rules. The blocks it is sent collect in front of each other until one
has its parent in the local chain; then the list is merged, and the local
chain becomes the peer's (`resync_converges`).

Two facts carry the argument. Hash links determine positions: where
blocks are what the constructor made of their contents, and no two
strings hashed for them collide, equal hashes have equal parents and
rounds (`header_eq`), so chains that share a block share everything below
it, at the same positions (`fork_of_known`). And what the peer accepted
is accepted again: validation and the rules between a block and its
predecessor do not depend on the clock, so blocks that follow one another
are absorbed one after another (`absorbed_of_follows`).
-/

namespace Cpos

open Python ByteString Sha256 LinkedChain BlockChain

variable {K : Type} [PyNum K] {env : Env K} {s : BlockChain} {c : Chain (rules env)}

/-! ## Hashes determine headers -/

theorem Block.BuiltFrom.isSealed {b : Block} (h : b.BuiltFrom TransactionList.new) : b.Sealed :=
  ⟨h.bound, .inl h.transactions.2⟩

/-- Blocks with one hash have one parent and one round. -/
theorem header_eq {blocks : List Block} (hcol : CollisionFree blocks) {b b' : Block}
    (hmem : b ∈ blocks) (hmem' : b' ∈ blocks) (hb : b.BuiltFrom TransactionList.new)
    (hb' : b'.BuiltFrom TransactionList.new) (h : b.hash = b'.hash) :
    b.parentHash = b'.parentHash ∧ b.round = b'.round := by
  obtain ⟨r, t, hr, ht, hnode, hproof, hhash, hstrings⟩ := hb.bound.hashes
  obtain ⟨r', t', hr', ht', hnode', hproof', hhash', hstrings'⟩ := hb'.bound.hashes
  have hsame {x y : Bytes} (hx : x ∈ b.hashed) (hy : y ∈ b'.hashed)
      (hxy : sha256 x = sha256 y) : x = y :=
    hcol (List.mem_flatMap.mpr ⟨b, hmem, hx⟩) (List.mem_flatMap.mpr ⟨b', hmem', hy⟩) hxy
  have htx : b.transactionHash = [] := hb.transactions.2
  have htx' : b'.transactionHash = [] := hb'.transactions.2
  -- from the hash to the proof hash and the parent
  have hparts := hsame (by rw [hstrings]; simp) (by rw [hstrings']; simp)
    (hhash.symm.trans (h.trans hhash'))
  rw [htx, htx', List.append_nil, List.append_nil] at hparts
  obtain ⟨hproofs, hparents⟩ := List.append_inj hparts (by
    rw [hproof, hproof', sha256_length, sha256_length])
  -- from the proof hash to the node hash
  have htickets := hsame (by rw [hstrings]; simp) (by rw [hstrings']; simp)
    (hproof.symm.trans (hproofs.trans hproof'))
  obtain ⟨hnodes, -⟩ := List.append_inj htickets (by
    rw [hnode, hnode', sha256_length, sha256_length])
  -- from the node hash to the round
  have hrounds := hsame (by rw [hstrings]; simp) (by rw [hstrings']; simp)
    (hnode.symm.trans (hnodes.trans hnode'))
  rw [hparents] at hrounds
  obtain ⟨-, hr_eq⟩ := List.append_inj' (List.append_cancel_right hrounds) (by
    rw [toBytesLE_length hr, toBytesLE_length hr'])
  refine ⟨hparents, ?_⟩
  rw [← fromBytesLE_toBytesLE hr, ← fromBytesLE_toBytesLE hr', hr_eq]

/-! ## Runs over given blocks -/

/-- A run from the genesis row alone, in which every block handed to a
call is one of `blocks`, leads to `s`. -/
def ReachableOver (env : Env K) (blocks : List Block) (s : BlockChain) : Prop :=
  ∃ s₀ ops, s₀.localChains = [genesisRow] ∧ (∀ op ∈ ops, Op.blocks op ⊆ blocks) ∧
    run env s₀ ops = s

theorem ReachableOver.represents {blocks : List Block} (h : ReachableOver env blocks s) :
    ∃ c, Represents env s c ∧ Over blocks c := by
  obtain ⟨s₀, ops, hs₀, hops, rfl⟩ := h
  have h₀ : Represents env s₀ (genesisChain env) := represents_genesis hs₀
  obtain ⟨c, hc, hsub⟩ := run_represents ops h₀
  refine ⟨c, hc, over_of_subset hsub fun b hb => ?_⟩
  obtain ⟨op, hop, hb⟩ := List.mem_flatMap.mp hb
  exact hops op hop hb

/-- The same node with another clock. -/
def Env.withTime (env : Env K) (time : Clock K) : Env K := { env with time }

section Honest

variable {time : Clock K} {c' : Chain (rules (env.withTime time))} {blocks : List Block}
  (hcol : CollisionFree blocks) (hbuilt : ∀ b ∈ blocks, b.BuiltFrom TransactionList.new)
  (hc : Over blocks c) (hc' : Over blocks c')

include hcol hbuilt hc hc' in
/-- Blocks of the two chains at one position with one hash have one
round. -/
theorem round_eq {k : Nat} {p p' : Block} (hp : c.blocks[k]? = some p)
    (hp' : c'.blocks[k]? = some p') (h : p.hash = p'.hash) : p.round = p'.round := by
  cases k with
  | zero =>
      obtain rfl := Option.some.inj (c.getElem?_zero.symm.trans hp)
      obtain rfl := Option.some.inj (c'.getElem?_zero.symm.trans hp')
      rfl
  | succ k =>
      have hmem := hc.mem_of_index hp
      have hmem' := hc'.mem_of_index hp'
      exact (header_eq hcol hmem hmem' (hbuilt p hmem) (hbuilt p' hmem') h).2

include hcol hbuilt hc hc' in
/-- A block of the peer whose parent is in the local chain: the two
chains agree up to the parent, and the block may follow it. -/
theorem fork_of_known {k : Nat} {b : Block} (hb : c'.blocks[k + 1]? = some b)
    (hknown : b.parentHash ∈ c.blocks.map Block.hash) :
    ∃ p, ForkAt c b k p ∧ Follows env p b ∧
      (c.blocks.take (k + 1)).map Block.hash = (c'.blocks.take (k + 1)).map Block.hash := by
  have hlt := (List.getElem?_eq_some_iff.mp hb).1
  have hp' := List.getElem?_eq_getElem (l := c'.blocks) (i := k) (by omega)
  have hfollows := follows_at hp' hb
  obtain ⟨p, hmem, hhash⟩ := List.mem_map.mp hknown
  obtain ⟨i, hp⟩ := List.mem_iff_getElem?.mp hmem
  have hsame : p.hash = c'.blocks[k].hash := hhash.trans hfollows.parent
  obtain ⟨rfl, htake⟩ := prefix_of_hash_eq hcol (fun b hb => (hbuilt b hb).isSealed) hc hc' hp hp' hsame
  have hround := round_eq hcol hbuilt hc hc' hp hp' hsame
  have hindex := index_at hp
  have hindex' := index_at hp'
  refine ⟨p, ⟨hp, hhash⟩, ⟨hhash.symm, ?_, by omega, ?_, hfollows.valid, hfollows.storable⟩, htake⟩
  · rw [hfollows.index, hindex, hindex']
  · rw [hround]
    exact hfollows.round

end Honest

/-! ## Absorbing what follows -/

/-- A block that follows the tip is taken. -/
theorem accepts_of_follows {tip b : Block} (htip : c.blocks.getLast? = some tip)
    (hb : Follows env tip b) (hfresh : b.hash ∉ c.blocks.map Block.hash) : c.Accepts b := by
  rw [List.getLast?_eq_getElem?] at htip
  have hlen := c.length_pos
  have hindex := index_at htip
  have hpos : (rules env).pos b = c.blocks.length := by
    show b.index.toNat = _
    rw [hb.index]
    omega
  refine ⟨⟨hfresh, tip, ?_, hb⟩, fun q hq => ?_⟩
  · rw [hpos]
    exact htip
  · rw [hpos, List.getElem?_eq_none (le_refl _)] at hq
    cases hq

/-- Blocks that follow one another from the tip are all taken. -/
theorem absorbed_of_follows : ∀ (bs : List Block) {d : Chain (rules env)} {tip : Block},
    d.blocks.getLast? = some tip → (tip :: bs).IsChain (Follows env) →
      ((d.blocks ++ bs).map Block.hash).Nodup → absorbed d bs = bs ∧ ¬TailRaises env d bs := by
  intro bs
  induction bs with
  | nil =>
      intro d tip _ _ _
      exact ⟨rfl, id⟩
  | cons b bs ih =>
      intro d tip htip hchain hnodup
      obtain ⟨hb, hchain'⟩ := List.isChain_cons_cons.mp hchain
      have hfresh : b.hash ∉ d.blocks.map Block.hash := by
        intro hmem
        rw [List.map_append, List.nodup_append] at hnodup
        exact hnodup.2.2 _ hmem b.hash (List.mem_cons_self ..) rfl
      have hacc := accepts_of_follows htip hb hfresh
      have hblocks := blocks_offer_of_tip hacc htip hb.parent
      have htip' : (d.offer b).blocks.getLast? = some b := by
        rw [hblocks, List.getLast?_append]
        rfl
      have hnodup' : (((d.offer b).blocks ++ bs).map Block.hash).Nodup := by
        rw [hblocks, List.append_assoc]
        exact hnodup
      obtain ⟨hall, hno⟩ := ih htip' hchain' hnodup'
      refine ⟨?_, ?_⟩
      · rw [absorbed, if_pos hacc, hall]
      · rintro (hr | ⟨-, hr⟩)
        · exact hr.not_accepts hacc
        · exact hno hr

/-! ## The session on the store -/

theorem run_merge_of_unrelated (h : Represents env s c) {first : Block} {rest : List Block}
    (hprints : AllPrintable (first :: rest))
    (hno : first.parentHash ∉ c.blocks.map Block.hash) :
    merge env (first :: rest) s = .ok (false, first :: rest) s := by
  obtain ⟨text, htext⟩ := strBlocks_ok hprints
  rw [merge, htext, bind_ok (eval_ok _)]
  show (blockOfHash first.parentHash >>= _) s = _
  rw [bind_ok (h.run_blockOfHash_none hno)]
  rfl

section Adoption

variable {time : Clock K} {c' : Chain (rules (env.withTime time))} {blocks : List Block}
  (hcol : CollisionFree blocks) (hbuilt : ∀ b ∈ blocks, b.BuiltFrom TransactionList.new)
  (hc : Over blocks c) (hc' : Over blocks c')
include hcol hbuilt hc hc'

/-- Where the head's parent is in the local chain, the peer's blocks from
the head on are adopted. -/
theorem merge_known (h : Represents env s c) {k : Nat} {b : Block} {rest : List Block}
    (hrest : c'.blocks.drop (k + 1) = b :: rest)
    (hknown : b.parentHash ∈ c.blocks.map Block.hash) :
    ∃ s' d, merge env (b :: rest) s = .ok (true, rest) s' ∧ Represents env s' d ∧
      d.blocks.map Block.hash = c'.blocks.map Block.hash := by
  have hb : c'.blocks[k + 1]? = some b := by
    rw [← List.head?_drop, hrest]
    rfl
  obtain ⟨p, hf, hfollows, htake⟩ := fork_of_known hcol hbuilt hc hc' hb hknown
  have htip : (upTo c k).blocks.getLast? = some p := getLast?_take k.succ_pos hf.parentAt
  have hchain : (p :: b :: rest).IsChain (Follows env) := by
    have hlinked : (b :: rest).IsChain (Follows (env.withTime time)) := by
      rw [← hrest]
      exact c'.linked.drop _
    refine List.isChain_cons_cons.mpr ⟨hfollows, hlinked.imp fun x y hxy => ?_⟩
    exact ⟨hxy.parent, hxy.index, hxy.nonneg, hxy.round, hxy.valid, hxy.storable⟩
  have hhashes : ((upTo c k).blocks ++ b :: rest).map Block.hash = c'.blocks.map Block.hash := by
    rw [List.map_append, blocks_upTo, htake, ← hrest, ← List.map_append, List.take_append_drop]
  obtain ⟨hall, hno⟩ := absorbed_of_follows (b :: rest) htip hchain (hhashes ▸ c'.nodup)
  have hacc : (upTo c k).Accepts b := by
    by_contra hacc
    rw [absorbed, if_neg hacc] at hall
    cases hall
  have hprints : AllPrintable (b :: rest) := fun x hx =>
    printable_of_mem (List.mem_of_mem_drop (hrest ▸ hx))
  have hret : returned (merge env (b :: rest)) s = some (true, rest) :=
    (returned_merge_iff h hf rest).mpr ⟨rfl, hprints, hacc, fun hr => hno (.inr ⟨hacc, hr⟩)⟩
  obtain ⟨k', p', hf', -, h'⟩ := merge_adopts_absorbed h hret
  obtain rfl := hf'.unique hf
  have hlinked : Linked (p :: b :: rest) := hchain.imp fun x y hxy => hxy.parent
  have hblocks := blocks_offers_absorbed (b :: rest) htip hlinked
  rw [hall] at hblocks h'
  exact ⟨_, _, ok_of_returned hret, h', hblocks ▸ hhashes⟩

/-- The session on the store ends with a merge: the first block to come
whose parent is in the local chain is merged with those received. The
invariant: what is to come, reversed, and what was received are the
peer's blocks. -/
theorem sessionOn_adopts (toCome : List Block) :
    ∀ {received : List Block}, Represents env s c → toCome ≠ [] →
      toCome.reverse ++ received = c'.blocks.tail →
        ∃ s' d, sessionOn env toCome received s = .ok true s' ∧ Represents env s' d ∧
          d.blocks.map Block.hash = c'.blocks.map Block.hash := by
  induction toCome with
  | nil =>
      intro received h hne hblocks
      exact absurd rfl hne
  | cons b toCome ih =>
      intro received h _ hblocks
      rw [List.reverse_cons, List.append_assoc, List.singleton_append] at hblocks
      have hdrop : c'.blocks.drop (toCome.length + 1) = b :: received := by
        rw [Nat.add_comm, ← List.drop_drop, List.drop_one, ← hblocks,
          List.drop_left' List.length_reverse]
      by_cases hknown : b.parentHash ∈ c.blocks.map Block.hash
      · obtain ⟨s', d, hrun, hd⟩ := merge_known hcol hbuilt hc hc' h hdrop hknown
        refine ⟨s', d, ?_, hd⟩
        rw [sessionOn, bind_ok hrun]
        rfl
      have hne : toCome ≠ [] := by
        rintro rfl
        -- the parent of the lowest block is the genesis block
        have hb : c'.blocks[0 + 1]? = some b := by
          rw [← List.head?_drop]
          exact congrArg List.head? hdrop
        refine hknown (List.mem_map.mpr ⟨genesisBlock, List.mem_of_getElem? c.getElem?_zero, ?_⟩)
        exact (follows_at c'.getElem?_zero hb).parent.symm
      have hprints : AllPrintable (b :: received) := fun x hx =>
        printable_of_mem (List.mem_of_mem_drop (hdrop ▸ hx))
      obtain ⟨s', d, hrun, hd⟩ := ih h hne hblocks
      refine ⟨s', d, ?_, hd⟩
      rw [sessionOn, bind_ok (run_merge_of_unrelated h hprints hknown)]
      exact hrun

end Adoption

/-! ## The session with the peer -/

/-- The peer's answers are the blocks of its chain. -/
theorem returned_resyncAnswer (h : Represents env s c)
    (hplain : ∀ {i : Nat} {b : Block}, c.blocks[i + 1]? = some b → b.reloaded = .ok b) {k : Int}
    (hk : k < 0) : returned (resyncAnswer k) s = some (peerAnswer c.blocks k) := by
  have hrun : resyncAnswer k s = (if c.blocks.length > |k| then
      blockByIndex k >>= fun b => pure (some b) else pure none : Call (Option Block)) s := by
    rw [resyncAnswer, bind_ok h.run_numberOfBlocks]
  rw [peerAnswer]
  by_cases hlt : c.blocks.length > |k|
  · have habs : |k| = -k := abs_of_neg hk
    obtain ⟨i, hi⟩ : ∃ i : Nat, c.blocks.length + k = (i + 1 : Nat) :=
      ⟨(c.blocks.length + k - 1).toNat, by omega⟩
    have hb := List.getElem?_eq_getElem (l := c.blocks) (i := i + 1) (by omega)
    have hblock : blockByIndex k s = .ok c.blocks[i + 1] s := by
      rw [h.run_blockByIndex (by rw [if_pos hk, hi]) hb, hplain hb]
      rfl
    rw [if_pos hlt, hi, Int.toNat_natCast, hb]
    refine @returned_ok _ _ _ _ s _ ?_
    rw [hrun, if_pos hlt, bind_ok hblock]
    rfl
  · rw [if_neg hlt]
    refine @returned_ok _ _ _ _ s _ ?_
    rw [hrun, if_neg hlt]
    rfl

/-- **Convergence.** A node whose chain and the peer's were reached over
blocks from the constructor, signed, with plain transaction lists, with
the same parameters and genesis: the session ends with a successful merge
after at most as many answers as the peer has blocks above the genesis
block, and then the chain has the peer's hashes. -/
theorem resync_converges {env : NodeEnv K} {n : Node} {peer : BlockChain} {time : Clock K}
    {blocks : List Block} (hbuilt : ∀ b ∈ blocks, b.BuiltFrom TransactionList.new)
    (hcol : CollisionFree blocks) (hn : ReachableOver env.toEnv blocks n.bc)
    (hpeer : ReachableOver (env.withTime time) blocks peer) (hlen : 2 ≤ peer.localChains.length)
    (hdelivers : ∀ k, env.delivers k = true) (hasking : Asking n 0 []) :
    ∃ n', session env (fun k => returned (resyncAnswer k) peer) (peer.localChains.length - 1) n
        = .ok () n' ∧
      n'.state = .listening ∧ n'.successfullResyncs = n.successfullResyncs + 1 ∧
      n'.bc.localChains.map Row.hash = peer.localChains.map Row.hash := by
  obtain ⟨c, hrep, hc⟩ := hn.represents
  obtain ⟨c', hrep', hc'⟩ := hpeer.represents
  have hplain {i : Nat} {b : Block} (hb : c'.blocks[i + 1]? = some b) : b.reloaded = .ok b :=
    (hbuilt b (hc'.mem_of_index hb)).reloaded
  have hlen' := hrep'.length
  have hne : c'.blocks.tail.reverse ≠ [] := by
    rw [Ne, List.reverse_eq_nil_iff, ← List.length_eq_zero_iff, List.length_tail]
    omega
  obtain ⟨s', d, hrun, hd, hhashes⟩ := sessionOn_adopts hcol hbuilt hc hc'
    c'.blocks.tail.reverse hrep hne (by rw [List.reverse_reverse, List.append_nil])
  have hturns : c'.blocks.tail.reverse.length ≤ peer.localChains.length - 1 := by
    rw [List.length_reverse, List.length_tail, hlen']
  have hends := session_ends hdelivers (fun k hk => returned_resyncAnswer hrep' hplain hk)
    c'.blocks.tail.reverse hasking rfl hturns
  rw [hrun] at hends
  generalize session env (fun k => returned (resyncAnswer k) peer) (peer.localChains.length - 1) n
    = r at hends ⊢
  cases hends with
  | adopted hrows hstate hcount =>
      exact ⟨_, rfl, hstate, hcount, by
        rw [hrows, hrep'.hashes_eq_iff hd, hhashes]⟩

theorem collisionFree_sample : CollisionFree [a1, b1, a2] :=
  collisionFree_of_nodup (fun b hb => sampleBlocks_bound b (List.mem_of_mem_take (i := 3) hb))
    (by decide +kernel)

/-- A peer whose clock is ahead. -/
def samplePeer : BlockChain :=
  run (sampleEnv.withTime (.ofNat fun k => 5 * k + 1)) .init [.insert a1, .insert a2]

/-- A node on `b1` and a peer on `a1` and `a2`. -/
theorem resync_converges_sample :
    ∃ n', session sampleNodeEnv (fun k => returned (resyncAnswer k) samplePeer)
        (samplePeer.localChains.length - 1) (resyncingNode (run sampleEnv .init [.insert b1]))
        = .ok () n' ∧
      n'.state = .listening ∧ n'.successfullResyncs = 1 ∧
      n'.bc.localChains.map Row.hash = samplePeer.localChains.map Row.hash := by
  have hbuilt : ∀ b ∈ [a1, b1, a2], b.BuiltFrom TransactionList.new := by
    intro b hb
    refine Block.builtFrom_iff.mpr
      ⟨sampleBlocks_bound b (List.mem_of_mem_take (i := 3) hb), ?_⟩
    simp only [List.mem_cons, List.not_mem_nil, or_false] at hb
    rcases hb with rfl | rfl | rfl
    · exact ⟨rfl, rfl⟩
    · exact ⟨rfl, rfl⟩
    · exact ⟨rfl, rfl⟩
  have hlen : 2 ≤ samplePeer.localChains.length := by decide +kernel
  exact @resync_converges _ _ sampleNodeEnv (resyncingNode _) _ _ [a1, b1, a2] hbuilt
    collisionFree_sample ⟨.init, [.insert b1], rfl, by simp [Op.blocks], rfl⟩
    ⟨.init, [.insert a1, .insert a2], rfl, by simp [Op.blocks], rfl⟩ hlen
    (fun _ => rfl) ⟨rfl, rfl, rfl, rfl⟩

end Cpos
