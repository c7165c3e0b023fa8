import Cpos.MergeLaws
import Cpos.Session

/-!
# Rejected forks

A fork that is refused need not leave the chain alone. After the refusal
the blocks further down are offered one by one, and one that the chain
already has is adopted as a new head, which drops the local blocks above
it. `Spared` is the condition on the peer's blocks under which the chain
keeps its hashes (`sessionOn_hashes_iff`); for a fork whose first block
`insert` rejects it comes down to where the fork begins
(`rejected_fork_iff`).
-/

namespace Cpos

open Python ByteString LinkedChain BlockChain

variable {K : Type} [PyNum K]

/-! ## What a session leaves alone -/

section Spared

variable {env : Env K} {s : BlockChain} {c d : Chain (rules env)} {block : Block}
  {blocks received : List Block}
  {i : Nat} {p : Block}

/-- A block whose parent is not among the first `m` leaves the first
`m + 1` alone. -/
theorem take_offer {m : Nat} (h : block.parentHash ∉ (d.blocks.take m).map Block.hash) :
    (d.offer block).blocks.take (m + 1) = d.blocks.take (m + 1) := by
  by_cases hacc : d.Accepts block
  swap
  · rw [Chain.offer_of_not_accepts hacc]
  obtain ⟨-, q, hq, hf⟩ := id hacc.1
  have hlt := (List.getElem?_eq_some_iff.mp hq).1
  have hpos := hacc.1.pos_pos
  have hge : m ≤ (rules env).pos block - 1 := by
    by_contra hsmall
    refine h (List.mem_map.mpr ⟨q, ?_, hf.parent.symm⟩)
    exact List.mem_of_getElem? ((List.getElem?_take_of_lt (by omega)).trans hq)
  rw [Chain.offer_of_accepts hacc, Chain.blocks_graft, List.take_append_of_le_length,
    List.take_take, Nat.min_eq_left (by omega)]
  rw [List.length_take]
  omega

theorem take_offers_absorbed {m : Nat} : ∀ (bs : List Block) {d : Chain (rules env)},
    (∀ b ∈ bs, b.parentHash ∉ (d.blocks.take m).map Block.hash) →
      (offers d (absorbed d bs)).blocks.take (m + 1) = d.blocks.take (m + 1)
  | [], d, _ => by
      rw [absorbed]
      rfl
  | b :: bs, d, h => by
      rw [absorbed]
      split
      · have hb := take_offer (h b (List.mem_cons_self ..))
        have hbelow : (d.offer b).blocks.take m = d.blocks.take m := by
          have := congrArg (List.take m) hb
          rwa [List.take_take, List.take_take, Nat.min_eq_left (Nat.le_succ m)] at this
        rw [← hb]
        refine take_offers_absorbed bs fun b' hb' => ?_
        rw [hbelow]
        exact h b' (List.mem_cons_of_mem _ hb')
      · rfl

theorem LeftBy.take_eq {m : Nat} {c' : Chain (rules env)} (h : LeftBy d block c')
    (hparent : block.parentHash ∉ (d.blocks.take m).map Block.hash) :
    c'.blocks.take (m + 1) = d.blocks.take (m + 1) := by
  rcases h with h | ⟨q, hq, h⟩
  · rw [h]
  · have hge : m ≤ block.index.toNat - 1 := by
      by_contra hsmall
      refine hparent (List.mem_map.mpr ⟨q, ?_, hq.parent⟩)
      exact List.mem_of_getElem? ((List.getElem?_take_of_lt (by omega)).trans hq.parentAt)
    have hpos := hq.pos
    rw [h, List.take_take, Nat.min_eq_left (by omega)]

/-- Inserting blocks whose parents are not among the first `m` leaves the
first `m + 1` alone. -/
theorem tail_take (h : Represents env s d) {m : Nat} {bs : List Block}
    (hbs : ∀ b ∈ bs, b.parentHash ∉ (d.blocks.take m).map Block.hash) :
    ∃ c', Represents env (after (insertUntilRejected env bs) s) c' ∧
      c'.blocks.take (m + 1) = d.blocks.take (m + 1) := by
  unfold after
  have hspec := tail_spec bs h
  generalize insertUntilRejected env bs s = r at hspec ⊢
  cases hspec with
  | returned _ h' => exact ⟨_, h', take_offers_absorbed bs hbs⟩
  | raised _ h' =>
      obtain ⟨c', h', b, hb, hleft⟩ := h'
      have htake := take_offers_absorbed bs hbs
      have hbelow := congrArg (List.take m) htake
      rw [List.take_take, List.take_take, Nat.min_eq_left (Nat.le_succ m)] at hbelow
      refine ⟨c', h', (hleft.take_eq ?_).trans htake⟩
      rw [hbelow]
      exact hbs b hb

/-- The blocks of the peer, tip first, under which the chain keeps its
hashes. One that cannot be printed ends the session. A block that knows
no ancestor, or is refused on the chain cut after its parent, leaves the
matter to the next one. One that is taken there has to be the only block
above its parent already; one that makes `insert` raise has to have the
tip as its parent. -/
inductive Spared (env : Env K) (c : Chain (rules env)) : List Block → Prop
  | done : Spared env c []
  | unprintable {block : Block} {blocks : List Block} (hno : ¬block.Printable) :
      Spared env c (block :: blocks)
  | unrelated {block : Block} {blocks : List Block}
      (hno : block.parentHash ∉ c.blocks.map Block.hash) (h : Spared env c blocks) :
      Spared env c (block :: blocks)
  | refused {block : Block} {blocks : List Block} {i : Nat} {p : Block}
      (hf : ForkAt c block i p) (hacc : ¬(upTo c i).Accepts block)
      (hr : ¬Raises env (upTo c i) block) (h : Spared env c blocks) :
      Spared env c (block :: blocks)
  | taken {block : Block} {blocks : List Block} {i : Nat} {p : Block}
      (hf : ForkAt c block i p) (hacc : (upTo c i).Accepts block)
      (hsame : (c.blocks.drop (i + 1)).map Block.hash = [block.hash]) :
      Spared env c (block :: blocks)
  | raised {block : Block} {blocks : List Block} {i : Nat} {p : Block}
      (hf : ForkAt c block i p) (hr : Raises env (upTo c i) block)
      (htip : i + 1 = c.blocks.length) : Spared env c (block :: blocks)

theorem spared_of_unrelated (hprints : block.Printable)
    (hno : block.parentHash ∉ c.blocks.map Block.hash) :
    Spared env c (block :: blocks) ↔ Spared env c blocks := by
  have hfork {i : Nat} {p : Block} (hf : ForkAt c block i p) : False := hno hf.parent_mem
  refine ⟨fun h => ?_, .unrelated hno⟩
  cases h with
  | unprintable hlong => exact absurd hprints hlong
  | unrelated _ h => exact h
  | refused hf _ _ _ => exact (hfork hf).elim
  | taken hf _ _ => exact (hfork hf).elim
  | raised hf _ _ => exact (hfork hf).elim

/-- What the next block has to be, by what becomes of it on the cut
chain. -/
theorem spared_of_forkAt (hf : ForkAt c block i p) (hprints : block.Printable) :
    (¬(upTo c i).Accepts block → ¬Raises env (upTo c i) block →
      (Spared env c (block :: blocks) ↔ Spared env c blocks)) ∧
    ((upTo c i).Accepts block →
      (Spared env c (block :: blocks) ↔
        (c.blocks.drop (i + 1)).map Block.hash = [block.hash])) ∧
    (Raises env (upTo c i) block →
      (Spared env c (block :: blocks) ↔ i + 1 = c.blocks.length)) := by
  have hknown (hno : block.parentHash ∉ c.blocks.map Block.hash) : False := hno hf.parent_mem
  refine ⟨fun hacc hr => ⟨fun h => ?_, .refused hf hacc hr⟩,
    fun hacc => ⟨fun h => ?_, .taken hf hacc⟩, fun hr => ⟨fun h => ?_, .raised hf hr⟩⟩
  · cases h with
    | unprintable hlong => exact absurd hprints hlong
    | unrelated hno _ => exact (hknown hno).elim
    | refused _ _ _ h => exact h
    | taken hf' hacc' _ => exact absurd (hf.unique hf' ▸ hacc') hacc
    | raised hf' hr' _ => exact absurd (hf.unique hf' ▸ hr') hr
  · cases h with
    | unprintable hlong => exact absurd hprints hlong
    | unrelated hno _ => exact (hknown hno).elim
    | refused hf' hacc' _ _ => exact absurd hacc (hf.unique hf' ▸ hacc')
    | taken hf' _ hsame => exact hf.unique hf' ▸ hsame
    | raised hf' hr' _ => exact absurd hacc (hf.unique hf' ▸ hr').not_accepts
  · cases h with
    | unprintable hlong => exact absurd hprints hlong
    | unrelated hno _ => exact (hknown hno).elim
    | refused hf' _ hr' _ => exact absurd hr (hf.unique hf' ▸ hr')
    | taken hf' hacc' _ => exact absurd (hf.unique hf' ▸ hacc') hr.not_accepts
    | raised hf' _ htip => exact hf.unique hf' ▸ htip

section Taken

variable (hf : ForkAt c block i p) (hacc : (upTo c i).Accepts block)
  (hreceived : ∀ b ∈ received, b.parentHash ∉ c.blocks.map Block.hash)
  (h : Represents env s ((upTo c i).offer block))

include hf in
theorem length_take_fork : (c.blocks.take (i + 1)).length = i + 1 := by
  have hi := (List.getElem?_eq_some_iff.mp hf.parentAt).1
  rw [List.length_take]
  omega

include hf hacc in
theorem blocks_taken : ((upTo c i).offer block).blocks = c.blocks.take (i + 1) ++ [block] :=
  blocks_offer_of_tip hacc (getLast?_take i.succ_pos hf.parentAt) hf.parent.symm

include hf hacc hreceived h

/-- After a block taken on the cut chain come others whose parents the
chain does not have. If the chain has the block itself, none of them finds
its parent; -/
theorem taken_of_known (hknown : block.hash ∈ c.blocks.map Block.hash) :
    ∃ c', Represents env (after (insertUntilRejected env received) s) c' ∧
      c'.blocks = c.blocks.take (i + 1) ++ [block] := by
  have hoffer := blocks_taken hf hacc
  have hlen := length_take_fork hf
  have habove : ∀ b ∈ received,
      b.parentHash ∉ (((upTo c i).offer block).blocks.take (i + 2)).map Block.hash := by
    intro b hb hmem
    rw [hoffer, List.take_of_length_le (by simp [hlen]), List.map_append, List.mem_append] at hmem
    rcases hmem with hmem | hmem
    · exact hreceived b hb (List.map_subset _ (List.take_subset ..) hmem)
    · rw [List.map_singleton, List.mem_singleton] at hmem
      exact hreceived b hb (hmem ▸ hknown)
  obtain ⟨c', h', htake⟩ := tail_take h habove
  have hlen' := congrArg List.length htake
  rw [hoffer, List.length_take, List.length_take, List.length_append, hlen] at hlen'
  simp only [List.length_singleton] at hlen'
  rw [hoffer, List.take_of_length_le (by omega), List.take_of_length_le (by simp [hlen])] at htake
  exact ⟨c', h', htake⟩

/-- otherwise they stay above it. -/
theorem mem_of_taken : ∃ c', Represents env (after (insertUntilRejected env received) s) c' ∧
    block ∈ c'.blocks := by
  have hoffer := blocks_taken hf hacc
  have hlen := length_take_fork hf
  have habove : ∀ b ∈ received,
      b.parentHash ∉ (((upTo c i).offer block).blocks.take (i + 1)).map Block.hash := by
    intro b hb hmem
    rw [hoffer, List.take_append_of_le_length (by omega), List.take_take, Nat.min_self] at hmem
    exact hreceived b hb (List.map_subset _ (List.take_subset ..) hmem)
  obtain ⟨c', h', htake⟩ := tail_take h habove
  refine ⟨c', h', List.mem_of_mem_take (i := i + 1 + 1) ?_⟩
  rw [htake, hoffer, List.take_of_length_le (by simp [hlen])]
  exact List.mem_append_right _ (List.mem_singleton_self _)

theorem taken_hashes_iff :
    ∃ c', Represents env (after (insertUntilRejected env received) s) c' ∧
      (c'.blocks.map Block.hash = c.blocks.map Block.hash ↔
        (c.blocks.drop (i + 1)).map Block.hash = [block.hash]) := by
  have hsplit : c.blocks.map Block.hash = (c.blocks.take (i + 1)).map Block.hash
      ++ (c.blocks.drop (i + 1)).map Block.hash := by
    rw [← List.map_append, List.take_append_drop]
  by_cases hknown : block.hash ∈ c.blocks.map Block.hash
  · obtain ⟨c', h', hblocks⟩ := taken_of_known hf hacc hreceived h hknown
    refine ⟨c', h', ?_⟩
    rw [hblocks, hsplit, List.map_append, List.map_singleton, List.append_cancel_left_eq]
    exact eq_comm
  · obtain ⟨c', h', hmem⟩ := mem_of_taken hf hacc hreceived h
    refine ⟨c', h', iff_of_false (fun heq => hknown ?_) (fun heq => hknown ?_)⟩
    · rw [← heq]
      exact List.mem_map_of_mem hmem
    · rw [hsplit, heq]
      exact List.mem_append_right _ (List.mem_singleton_self _)

end Taken

/-- A head that makes `insert` raise leaves the cut chain. -/
theorem ForkAt.leftBy (hf : ForkAt c block i p) {c' : Chain (rules env)}
    (h : LeftBy (upTo c i) block c') : c'.blocks = c.blocks.take (i + 1) := by
  rcases h with h | ⟨q, hq, h⟩
  · exact h
  · have hidx := (hf.candidate hq).2
    rw [h, blocks_upTo, List.take_take, Nat.min_eq_right (by omega)]

theorem after_sessionOn_of_refused {s' : BlockChain} {left : List Block}
    (hrun : merge env (block :: received) s = .ok (false, left) s') :
    after (sessionOn env (block :: blocks) received) s = after (sessionOn env blocks left) s' := by
  rw [sessionOn, after, bind_ok hrun]
  rfl

theorem after_sessionOn_of_taken {s' : BlockChain} {left : List Block}
    (hrun : merge env (block :: received) s = .ok (true, left) s') :
    after (sessionOn env (block :: blocks) received) s = s' := by
  rw [sessionOn, after, bind_ok hrun]
  rfl

theorem after_sessionOn_of_raised {s' : BlockChain} {e : PyErr}
    (hrun : merge env (block :: received) s = .error e s') :
    after (sessionOn env (block :: blocks) received) s = s' := by
  rw [sessionOn, after, bind_error hrun]

/-- Once a head is taken, the rest of the pass does not matter to the
hashes. -/
theorem taken_spared_iff {i : Nat} {p : Block} {s₂ s₃ : BlockChain} (h : Represents env s c)
    (hreceived : ∀ b ∈ received, b.parentHash ∉ c.blocks.map Block.hash)
    (hf : ForkAt c block i p) (hins : insert env block (s.cutTo (i + 1)) = .ok true s₂)
    (hacc : (upTo c i).Accepts block) (htail : after (insertUntilRejected env received) s₂ = s₃) :
    s₃.localChains.map Row.hash = s.localChains.map Row.hash ↔
      Spared env c (block :: blocks) := by
  have hout := insert_outcome (h.upTo i) block
  rw [hins] at hout
  cases hout with
  | accepted _ h₂ =>
      rw [← Chain.offer_of_accepts hacc] at h₂
      obtain ⟨c', h', hiff⟩ := taken_hashes_iff hf hacc hreceived h₂
      rw [htail] at h'
      obtain ⟨-, -, -, -, -, hfits⟩ := counted_of_accepts hacc
      rw [h.hashes_eq_iff h', hiff, (spared_of_forkAt hf hfits.printable).2.1 hacc]

/-- A session leaves the hashes alone exactly if the blocks of the peer
spare the chain. The invariant: the blocks received can be printed and
have parents that the chain does not have. -/
theorem sessionOn_hashes_iff (blocks : List Block) :
    ∀ {s : BlockChain} {received : List Block}, Represents env s c → AllPrintable received →
      (∀ b ∈ received, b.parentHash ∉ c.blocks.map Block.hash) →
        ((after (sessionOn env blocks received) s).localChains.map Row.hash
            = s.localChains.map Row.hash ↔ Spared env c blocks) := by
  induction blocks with
  | nil =>
      intro s received h _ hreceived
      exact iff_of_true rfl .done
  | cons block blocks ih =>
      intro s received h hprinted hreceived
      by_cases hprints : block.Printable
      swap
      · have hall : ¬AllPrintable (block :: received) := fun hall =>
          hprints (hall block (List.mem_cons_self ..))
        rw [after_sessionOn_of_raised (merge_unprintable hall s)]
        exact iff_of_true rfl (.unprintable hprints)
      have hall : AllPrintable (block :: received) := List.forall_mem_cons.mpr ⟨hprints, hprinted⟩
      have hspec := merge_spec h hall
      generalize hrun : merge env (block :: received) s = r at hspec
      cases hspec with
      | noAncestor hno =>
          rw [after_sessionOn_of_refused hrun, spared_of_unrelated hprints hno]
          refine ih h hall fun b hb => ?_
          rcases List.mem_cons.mp hb with rfl | hb
          · exact hno
          · exact hreceived b hb
      | rejected i p hf hrefused =>
          rw [after_sessionOn_of_refused hrun,
            (spared_of_forkAt hf hprints).1 hrefused.not_accepts hrefused.not_raises]
          exact ih h hprinted hreceived
      | sameRound i p w hf hc hround =>
          have hno : Beats (upTo c i) block → ¬p.round < block.round := fun _ => by omega
          have hcounted := h.counted block.index w
          rw [after_sessionOn_of_refused hrun,
            (spared_of_forkAt hf hprints).1 (hc.not_accepts hno) (hc.not_raises hno),
            ← ih hcounted hprinted hreceived, h.hashes, hcounted.hashes]
      | headRaised i p hf e s₂ hins hr =>
          have hout := insert_outcome (h.upTo i) block
          rw [hins] at hout
          rw [after_sessionOn_of_raised hrun, (spared_of_forkAt hf hprints).2.2 hr]
          cases hout with
          | raised _ h₂ =>
              obtain ⟨c₂, h₂, hleft⟩ := h₂
              have hi := (List.getElem?_eq_some_iff.mp hf.parentAt).1
              rw [h.hashes_eq_iff h₂, hf.leftBy hleft, List.map_take, List.take_eq_self_iff,
                List.length_map]
              omega
      | adopted i p hf s₂ s₃ hins hacc htail =>
          rw [after_sessionOn_of_taken hrun]
          exact taken_spared_iff h hreceived hf hins hacc (after_ok htail)
      | tailRaised i p hf e s₂ s₃ hins hacc htail =>
          rw [after_sessionOn_of_raised hrun]
          exact taken_spared_iff h hreceived hf hins hacc (after_error htail)

theorem spared_append (bs : List Block) (h : ∀ b ∈ bs, b.parentHash ∉ c.blocks.map Block.hash) :
    Spared env c (bs ++ blocks) ↔ ¬AllPrintable bs ∨ Spared env c blocks := by
  induction bs with
  | nil => exact (or_iff_right (not_not_intro fun b hb => absurd hb List.not_mem_nil)).symm
  | cons b bs ih =>
      rw [List.cons_append, AllPrintable, List.forall_mem_cons]
      by_cases hprints : b.Printable
      · rw [spared_of_unrelated hprints (h b (List.mem_cons_self ..)),
          ih fun b' hb' => h b' (List.mem_cons_of_mem _ hb'), and_iff_right hprints]
        rfl
      · exact iff_of_true (.unprintable hprints) (.inl fun hall => hprints hall.1)

end Spared

/-! ## A fork that insert rejects -/

instance (bs : List Block) : Decidable (Linked bs) := inferInstanceAs (Decidable (bs.IsChain _))

/-- The blocks of a peer, linked by their hashes from the common genesis
block on. `common` ends with the last block that the local chain has, and
`insert` rejects the one after it. -/
structure RejectedFork (env : Env K) (s : BlockChain) (common : List Block) (first : Block)
    (later : List Block) : Prop where
  genesis : common.head? = some genesisBlock
  linked : Linked (common ++ first :: later)
  known : ∀ b ∈ common.getLast?, ∃ r ∈ s.localChains, r.hash = hex b.hash
  unknown : ∀ b ∈ first :: later, ∀ r ∈ s.localChains, r.hash ≠ hex b.hash
  rejected : returned (insert env first) s = some false

instance (env : Env K) (s : BlockChain) (common : List Block) (first : Block)
    (later : List Block) : Decidable (RejectedFork env s common first later) :=
  decidable_of_iff
    (common.head? = some genesisBlock ∧ Linked (common ++ first :: later) ∧
      (∀ b ∈ common.getLast?, ∃ r ∈ s.localChains, r.hash = hex b.hash) ∧
      (∀ b ∈ first :: later, ∀ r ∈ s.localChains, r.hash ≠ hex b.hash) ∧
      returned (insert env first) s = some false)
    ⟨fun ⟨hgenesis, hlinked, hknown, hunknown, hrejected⟩ =>
      ⟨hgenesis, hlinked, hknown, hunknown, hrejected⟩,
     fun h => ⟨h.genesis, h.linked, h.known, h.unknown, h.rejected⟩⟩

theorem Linked.parent_mem : ∀ {first : Block} {later : List Block}, Linked (first :: later) →
    ∀ b ∈ later, ∃ a ∈ first :: later, b.parentHash = a.hash
  | first, [], _ => by simp
  | first, second :: later, h => by
      obtain ⟨hsecond, hlater⟩ := List.isChain_cons_cons.mp h
      intro b hb
      rcases List.mem_cons.mp hb with rfl | hb
      · exact ⟨first, List.mem_cons_self .., hsecond⟩
      · obtain ⟨a, ha, heq⟩ := Linked.parent_mem hlater b hb
        exact ⟨a, List.mem_cons_of_mem _ ha, heq⟩

section Rejected

variable {env : Env K} {s : BlockChain} {c : Chain (rules env)} {common later : List Block}
  {first : Block}

theorem RejectedFork.spared_iff (hfork : RejectedFork env s common first later)
    (hc : Represents env s c) :
    Spared env c (common ++ first :: later).tail.reverse ↔
      ¬AllPrintable later ∨ Spared env c (first :: common.tail.reverse) := by
  have hsplit : (common ++ first :: later).tail.reverse
      = later.reverse ++ (first :: common.tail.reverse) := by
    cases common with
    | nil => cases hfork.genesis
    | cons g common => simp
  have hreverse : AllPrintable later.reverse ↔ AllPrintable later :=
    forall_congr' fun b => by rw [List.mem_reverse]
  rw [hsplit, ← hreverse]
  refine spared_append _ fun b hb hmem => ?_
  obtain ⟨a, ha, heq⟩ := Linked.parent_mem (List.isChain_append.mp hfork.linked).2.1 b
    (List.mem_reverse.mp hb)
  exact (hc.no_row_iff _).mp (hfork.unknown a ha) (heq ▸ hmem)

theorem RejectedFork.first_unknown (hfork : RejectedFork env s common first later)
    (hc : Represents env s c) : first.hash ∉ c.blocks.map Block.hash :=
  (hc.no_row_iff _).mp (hfork.unknown first (List.mem_cons_self ..))

/-- A local block offered by the peer is taken. -/
theorem spared_own {i : Nat} {block : Block} {blocks : List Block}
    (hb : c.blocks[i + 1]? = some block) :
    Spared env c (block :: blocks) ↔ i + 2 = c.blocks.length := by
  have hlt := (List.getElem?_eq_some_iff.mp hb).1
  have hp := List.getElem?_eq_getElem (l := c.blocks) (i := i) (by omega)
  have hf : ForkAt c block i c.blocks[i] := ⟨hp, (follows_at hp hb).parent.symm⟩
  rcases own_block c i.succ_pos (by omega) (List.mem_of_getElem? hb) with ⟨-, hacc, -⟩ | ⟨hne, -⟩
  · have hprints := printable_of_mem (List.mem_of_getElem? hb)
    rw [(spared_of_forkAt hf hprints).2.1 hacc, List.drop_eq_getElem_cons hlt, List.map_cons,
      (List.getElem?_eq_some_iff.mp hb).2, List.cons_eq_cons, and_iff_right rfl,
      List.map_eq_nil_iff, List.drop_eq_nil_iff]
    omega
  · exact absurd hb hne

/-- Where the common blocks are the local ones, the fork leaves the chain
at the last of them. -/
theorem RejectedFork.forkAt_of_local (hfork : RejectedFork env s common first later)
    (hlocal : common = c.blocks.take common.length) :
    ∃ i p, common.length = i + 1 ∧ common.getLast? = some p ∧ ForkAt c first i p := by
  obtain ⟨i, hlen⟩ : ∃ i, common.length = i + 1 := by
    cases common with
    | nil => cases hfork.genesis
    | cons g common => exact ⟨common.length, rfl⟩
  rw [hlen] at hlocal
  have hle : i + 1 ≤ c.blocks.length := by
    have := congrArg List.length hlocal
    rw [List.length_take, hlen] at this
    omega
  have hp : c.blocks[i]? = some c.blocks[i] := List.getElem?_eq_getElem hle
  have hlast : common.getLast? = some c.blocks[i] := by
    rw [hlocal]
    exact getLast?_take i.succ_pos hp
  exact ⟨i, _, hlen, hlast, hp,
    ((List.isChain_append.mp hfork.linked).2.2 _ hlast _ rfl).symm⟩

/-- Where the common blocks are the local ones: the rejected block cannot
be printed, or the chain ends with the last of them, or only the genesis
block is common and the fork is rejected on top of it as well. -/
theorem RejectedFork.spared_iff_of_local (hfork : RejectedFork env s common first later)
    (hc : Represents env s c) (hlocal : common = c.blocks.take common.length) :
    Spared env c (first :: common.tail.reverse) ↔
      ¬first.Printable ∨ common.length = c.blocks.length ∨
        common.length = 1 ∧ returned (insert env first) (s.cutTo 1) = some false := by
  by_cases hprints : first.Printable
  swap
  · exact iff_of_true (.unprintable hprints) (.inl hprints)
  rw [or_iff_right (not_not_intro hprints)]
  obtain ⟨i, p, hlen, hlast, hf⟩ := hfork.forkAt_of_local hlocal
  have hle := (List.getElem?_eq_some_iff.mp hf.parentAt).1
  rw [hlen]
  obtain ⟨hrefused, htaken, hraised⟩ := @spared_of_forkAt _ _ _ _ _ common.tail.reverse _ _ hf
    hprints
  have hno := (returned_insert_false_iff hc first).mp hfork.rejected
  have hcut (hend : i + 1 = c.blocks.length) : upTo c i = c :=
    Chain.ext (List.take_of_length_le (by omega))
  have hfirst := returned_insert_false_iff (hc.upTo 0) first
  by_cases hacc : (upTo c i).Accepts first
  · rw [htaken hacc]
    refine iff_of_false (fun hsame => hfork.first_unknown hc ?_) ?_
    · rw [← List.take_append_drop (i + 1) c.blocks, List.map_append, hsame]
      exact List.mem_append_right _ (List.mem_singleton_self _)
    · rintro (hend | ⟨hone, hret⟩)
      · exact hno.1 (hcut hend ▸ hacc)
      · obtain rfl : i = 0 := by omega
        exact (hfirst.mp hret).1 hacc
  by_cases hr : Raises env (upTo c i) first
  · rw [hraised hr]
    refine iff_of_false (fun hend => hno.2 (hcut hend ▸ hr)) ?_
    rintro (hend | ⟨hone, hret⟩)
    · exact hno.2 (hcut hend ▸ hr)
    · obtain rfl : i = 0 := by omega
      exact (hfirst.mp hret).2 hr
  rw [hrefused hacc hr]
  cases i with
  | zero =>
      -- no older block is sent
      have hnil : common.tail.reverse = [] := by
        rw [List.reverse_eq_nil_iff, ← List.length_eq_zero_iff, List.length_tail, hlen]
      rw [hnil]
      exact iff_of_true .done (.inr ⟨rfl, hfirst.mpr ⟨hacc, hr⟩⟩)
  | succ i =>
      -- the next one is the local block itself
      have hhead : common.tail.reverse.head? = some p := by
        rw [List.head?_reverse, List.getLast?_tail, if_neg (by omega), hlast]
      rw [← List.cons_head?_tail hhead, spared_own hf.parentAt]
      omega

end Rejected

/-- **A rejected fork.** For every reachable state and every session in
which a peer sends the blocks of a fork that `insert` rejects: the chain
keeps its hashes exactly if a block above the rejected one cannot be
printed, or the blocks from the rejected one down spare the chain. -/
theorem rejected_fork_iff {env : NodeEnv K} {n : Node} (hn : Reachable env.toEnv n.bc)
    (hdelivers : ∀ k, env.delivers k = true) (hasking : Asking n 0 [])
    {common later : List Block} {first : Block}
    (hfork : RejectedFork env.toEnv n.bc common first later) {turns : Nat}
    (hturns : (common ++ first :: later).length ≤ turns + 1) :
    ∃ c, Represents env.toEnv n.bc c ∧
      ((after (session env (fun i => some (peerAnswer (common ++ first :: later) i)) turns) n
            ).bc.localChains.map Row.hash = n.bc.localChains.map Row.hash ↔
        ¬AllPrintable later ∨ Spared env.toEnv c (first :: common.tail.reverse)) ∧
      (common = c.blocks.take common.length →
        (Spared env.toEnv c (first :: common.tail.reverse) ↔
          ¬first.Printable ∨ common.length = c.blocks.length ∨
            common.length = 1 ∧
              returned (insert env.toEnv first) (n.bc.cutTo 1) = some false)) := by
  obtain ⟨c, hc⟩ := hn.represents
  refine ⟨c, hc, ?_, hfork.spared_iff_of_local hc⟩
  have hblocks : (common ++ first :: later).tail.reverse.length ≤ turns := by
    rw [List.length_reverse, List.length_tail]
    omega
  have hends := session_ends hdelivers (fun i _ => rfl) _ hasking rfl hblocks
  rw [hends.rows, List.drop_zero,
    sessionOn_hashes_iff _ hc (fun b hb => absurd hb List.not_mem_nil) (by simp),
    hfork.spared_iff hc]

/-- `b2` with a signature that does not verify. -/
def b2Unsigned : Block := { b2 with signedNodeHash := [] }

/-- The local chain ends with the last common block, and stays. -/
theorem rejected_fork_iff_sample :
    ∃ c, Represents sampleEnv (run sampleEnv .init [.insert a1]) c ∧
      ((after (session sampleNodeEnv (fun i => some (peerAnswer [genesisBlock, a1, b2Unsigned] i)) 2)
            (resyncingNode (run sampleEnv .init [.insert a1]))).bc.localChains.map Row.hash
          = (run sampleEnv .init [.insert a1]).localChains.map Row.hash ↔
        ¬AllPrintable [] ∨ Spared sampleEnv c [b2Unsigned, a1]) ∧
      ([genesisBlock, a1] = c.blocks.take 2 →
        (Spared sampleEnv c [b2Unsigned, a1] ↔
          ¬b2Unsigned.Printable ∨ 2 = c.blocks.length ∨ 2 = 1 ∧
          returned (insert sampleEnv b2Unsigned)
            ((run sampleEnv .init [.insert a1]).cutTo 1) = some false)) :=
  @rejected_fork_iff _ _ sampleNodeEnv (resyncingNode (run sampleEnv .init [.insert a1]))
    ⟨.init, _, rfl, rfl⟩ (fun _ => rfl) ⟨rfl, rfl, rfl, rfl⟩ [genesisBlock, a1] [] b2Unsigned
    (by decide +kernel) 2 (by decide)

/-- `b2Unsigned` is refused, and `a1`, which follows, is adopted: `a2` is
lost. -/
theorem rejected_fork_shortens :
    RejectedFork sampleEnv (run sampleEnv .init [.insert a1, .insert a2]) [genesisBlock, a1]
        b2Unsigned [] ∧
      (after (session sampleNodeEnv
            (fun i => some (peerAnswer [genesisBlock, a1, b2Unsigned] i)) 3)
          (resyncingNode (run sampleEnv .init [.insert a1, .insert a2]))).bc.localChains.map Row.hash
        ≠ (run sampleEnv .init [.insert a1, .insert a2]).localChains.map Row.hash := by
  decide +kernel

end Cpos
