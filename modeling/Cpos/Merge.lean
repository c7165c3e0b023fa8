import Cpos.Insert

/-!
# What merge does

The inversion theorem for `merge` (`merge_spec`). A call prints the
foreign blocks, looks up the parent of the first one, cuts the local
chain after it and inserts the first block there; if that is refused the
cut rows are put back, otherwise the other blocks are inserted until one
is refused. A block that cannot be printed ends the call before any of
this (`merge_unprintable`).

Cutting and putting back cancel (`appended_cutTo`): after a refusal the
state is the one before the call, except that a head refused for its
round has been counted. What becomes of the blocks after the head is a
recursion over the list in which no table occurs: `absorbed` are those
the chain takes, `TailRaises` says that one of them makes `insert` raise.
-/

namespace Cpos

open Python ByteString LinkedChain BlockChain

variable {K : Type} [PyNum K] {env : Env K} {s : BlockChain} {c : Chain (rules env)}

/-! ## Cutting after a block -/

/-- The chain up to and including position `i`. -/
def upTo (c : Chain (rules env)) (i : Nat) : Chain (rules env) := c.cut (i + 1) i.succ_pos

@[simp] theorem blocks_upTo (c : Chain (rules env)) (i : Nat) :
    (upTo c i).blocks = c.blocks.take (i + 1) := rfl

theorem Represents.upTo (h : Represents env s c) (i : Nat) :
    Represents env (s.cutTo (i + 1)) (upTo c i) := h.cutTo i.succ_pos

/-- `first`'s parent is the block `p` at position `i`. -/
structure ForkAt (c : Chain (rules env)) (first : Block) (i : Nat) (p : Block) : Prop where
  parentAt : c.blocks[i]? = some p
  parent : p.hash = first.parentHash

theorem ForkAt.unique {first p q : Block} {i j : Nat} (h : ForkAt c first i p)
    (h' : ForkAt c first j q) : i = j :=
  c.index_unique h.parentAt h'.parentAt (h.parent.trans h'.parent.symm)

theorem ForkAt.parent_mem {first p : Block} {i : Nat} (h : ForkAt c first i p) :
    first.parentHash ∈ c.blocks.map Block.hash :=
  List.mem_map.mpr ⟨p, List.mem_of_getElem? h.parentAt, h.parent⟩

theorem forkAt_or_not (c : Chain (rules env)) (first : Block) :
    (∃ i p, ForkAt c first i p) ∨ first.parentHash ∉ c.blocks.map Block.hash := by
  by_cases hmem : first.parentHash ∈ c.blocks.map Block.hash
  · obtain ⟨p, hp, heq⟩ := List.mem_map.mp hmem
    obtain ⟨i, hi⟩ := List.mem_iff_getElem?.mp hp
    exact .inl ⟨i, p, hi, heq⟩
  · exact .inr hmem

theorem getElem?_of_take {α : Type} {l : List α} {n i : Nat} {a : α}
    (h : (l.take n)[i]? = some a) : l[i]? = some a := by
  rw [List.getElem?_take] at h
  split at h
  · exact h
  · cases h

/-- On the cut chain a candidate has its parent at the tip. -/
theorem ForkAt.candidate {first p p' : Block} {i : Nat} (hf : ForkAt c first i p)
    (hc : Candidate (upTo c i) first p') : p' = p ∧ first.index = i + 1 := by
  have hp' := hc.parentAt
  rw [blocks_upTo] at hp'
  have hp'' := getElem?_of_take hp'
  have hi := c.index_unique hp'' hf.parentAt (hc.parent.trans hf.parent.symm)
  have hpos := hc.pos
  refine ⟨?_, by omega⟩
  rw [hi] at hp''
  exact Option.some.inj (hp''.symm.trans hf.parentAt)

/-- Nothing is left to compete with. -/
theorem ForkAt.beats {first p p' : Block} {i : Nat} (hf : ForkAt c first i p)
    (hc : Candidate (upTo c i) first p') : Beats (upTo c i) first := by
  intro q hq
  have hidx := (hf.candidate hc).2
  rw [blocks_upTo, List.getElem?_take, if_neg (by omega)] at hq
  cases hq

/-- The cut rows put back. -/
theorem appended_cutTo (s : BlockChain) (n : Nat) :
    (s.cutTo n).appended (s.localChains.drop n) = s := by
  simp only [BlockChain.cutTo, appended, List.take_append_drop]

/-- Counting reaches only rows below the cut, so putting the others back
gives the counted state. -/
theorem Represents.appended_counted (h : Represents env s c) (n : Nat) (w : Int) :
    ((s.cutTo n).counted n w).appended (s.localChains.drop n) = s.counted n w := by
  have hdrop : (s.localChains.drop n).map (Row.count n w) = s.localChains.drop n := by
    rw [List.map_congr_left (g := id) fun r hr => ?_, List.map_id]
    have := mem_drop_ge h.indexed hr
    rw [Row.count, if_neg (by omega)]
    rfl
  have hmap : s.localChains.map (Row.count n w)
      = (s.localChains.take n).map (Row.count n w) ++ s.localChains.drop n := by
    conv_lhs => rw [← List.take_append_drop n s.localChains, List.map_append, hdrop]
  simp only [BlockChain.cutTo, BlockChain.counted, appended, hmap]

theorem Represents.run_reintroduce (h : Represents env s c) {i : Nat} {s₂ : BlockChain}
    (hids : s₂.localChains.map Row.id = (s.localChains.take (i + 1)).map Row.id) :
    reintroduceBlocks (s.localChains.drop (i + 1)) s₂
      = .ok () (s₂.appended (s.localChains.drop (i + 1))) := by
  refine run_reintroduceBlocks (fun r hr => h.fits_of_mem_drop i.succ_pos hr) ?_
  rw [List.map_append, hids, ← List.map_append, List.take_append_drop]
  exact h.ids_nodup

/-! ## The blocks after the head -/

open Classical in
/-- The blocks the chain takes one after another, up to the first it
does not. -/
noncomputable def absorbed (c : Chain (rules env)) : List Block → List Block
  | [] => []
  | b :: bs => if c.Accepts b then b :: absorbed (c.offer b) bs else []

theorem absorbed_isPrefix : ∀ (c : Chain (rules env)) (bs : List Block), absorbed c bs <+: bs
  | _, [] => List.prefix_rfl
  | c, b :: bs => by
      rw [absorbed]
      split
      · exact List.cons_prefix_cons.mpr ⟨rfl, absorbed_isPrefix _ bs⟩
      · exact List.nil_prefix

/-- The first block of the list that is not taken makes `insert` raise. -/
def TailRaises (env : Env K) (c : Chain (rules env)) : List Block → Prop
  | [] => False
  | b :: bs => Raises env c b ∨ c.Accepts b ∧ TailRaises env (c.offer b) bs

/-- What is left when a block of the list makes `insert` raise. -/
def LeftByTail (c : Chain (rules env)) (bs : List Block) (c' : Chain (rules env)) : Prop :=
  ∃ y ∈ bs, LeftBy (offers c (absorbed c bs)) y c'

inductive TailSpec (env : Env K) (c : Chain (rules env)) (bs : List Block) :
    EStateM.Result PyErr BlockChain Unit → Prop
  | returned {s' : BlockChain} (hr : ¬TailRaises env c bs)
      (h : Represents env s' (offers c (absorbed c bs))) : TailSpec env c bs (.ok () s')
  | raised {s' : BlockChain} {e : PyErr} (hr : TailRaises env c bs)
      (h : ∃ c', Represents env s' c' ∧ LeftByTail c bs c') : TailSpec env c bs (.error e s')

theorem tail_spec : ∀ (bs : List Block) {s : BlockChain} {c : Chain (rules env)},
    Represents env s c → TailSpec env c bs (insertUntilRejected env bs s)
  | [], s, c, h => .returned id h
  | b :: bs, s, c, h => by
      have hout := insert_outcome h b
      rw [insertUntilRejected]
      generalize hrun : insert env b s = r at hout
      cases hout with
      | accepted hacc h' =>
          rw [bind_ok hrun]
          rw [← Chain.offer_of_accepts hacc] at h'
          have htail := tail_spec bs h'
          show TailSpec env c (b :: bs) (insertUntilRejected env bs _)
          generalize insertUntilRejected env bs _ = r' at htail
          cases htail with
          | returned hr h'' =>
              refine .returned ?_ ?_
              · rintro (hb | ⟨-, hbs⟩)
                · exact hb.not_accepts hacc
                · exact hr hbs
              · rw [absorbed, if_pos hacc]
                exact h''
          | raised hr h'' =>
              obtain ⟨c', h'', y, hy, hleft⟩ := h''
              refine .raised (.inr ⟨hacc, hr⟩) ⟨c', h'', y, List.mem_cons_of_mem _ hy, ?_⟩
              rw [absorbed, if_pos hacc]
              exact hleft
      | refused hacc hr h' =>
          rw [bind_ok hrun]
          refine .returned ?_ ?_
          · rintro (hb | ⟨hb, -⟩)
            · exact hr hb
            · exact hacc hb
          · rw [absorbed, if_neg hacc]
            exact h'
      | raised hr h' =>
          rw [bind_error hrun]
          obtain ⟨c', h', hleft⟩ := h'
          refine .raised (.inl hr) ⟨c', h', b, List.mem_cons_self .., ?_⟩
          rw [absorbed, if_neg hr.not_accepts]
          exact hleft

/-! ## Printing the foreign blocks -/

/-- Every block of the list can be printed. -/
def AllPrintable (bs : List Block) : Prop := ∀ b ∈ bs, b.Printable

instance (bs : List Block) : Decidable (AllPrintable bs) :=
  inferInstanceAs (Decidable (∀ b ∈ bs, b.Printable))

theorem mapM_str : ∀ bs : List Block,
    (AllPrintable bs ∧ ∃ texts, bs.mapM Block.str = .ok texts)
      ∨ (¬AllPrintable bs ∧ bs.mapM Block.str = .error intTooLong)
  | [] => .inl ⟨fun b hb => absurd hb (List.not_mem_nil), [], rfl⟩
  | b :: bs => by
      rw [List.mapM_cons, AllPrintable, List.forall_mem_cons]
      by_cases hb : b.Printable
      swap
      · exact .inr ⟨fun h => hb h.1, by rw [Block.str_error hb]; rfl⟩
      obtain ⟨text, htext⟩ := hb.str_ok
      rw [htext]
      rcases mapM_str bs with ⟨hbs, texts, htexts⟩ | ⟨hbs, herror⟩
      · exact .inl ⟨⟨hb, hbs⟩, text :: texts, by rw [htexts]; rfl⟩
      · exact .inr ⟨fun h => hbs h.2, by rw [herror]; rfl⟩

theorem strBlocks_ok {bs : List Block} (h : AllPrintable bs) :
    ∃ text, strBlocks bs = .ok text := by
  rcases mapM_str bs with ⟨-, texts, htexts⟩ | ⟨hno, -⟩
  · exact ⟨_, by rw [strBlocks, htexts]; rfl⟩
  · exact absurd h hno

theorem strBlocks_error {bs : List Block} (h : ¬AllPrintable bs) :
    strBlocks bs = .error intTooLong := by
  rcases mapM_str bs with ⟨hall, -⟩ | ⟨-, herror⟩
  · exact absurd hall h
  · rw [strBlocks, herror]
    rfl

/-- A block that cannot be printed ends the call at its first line. -/
theorem merge_unprintable {bs : List Block} (h : ¬AllPrintable bs) (s : BlockChain) :
    merge env bs s = .error intTooLong s := by
  unfold merge
  rw [strBlocks_error h, bind_error (eval_error _)]

theorem allPrintable_of_returned {bs : List Block} {r : Bool × List Block}
    (h : returned (merge env bs) s = some r) : AllPrintable bs := by
  by_contra hno
  rw [returned_error (merge_unprintable hno s)] at h
  cases h

/-! ## The inversion theorem -/

inductive MergeSpec (env : Env K) (s : BlockChain) (c : Chain (rules env)) (first : Block)
    (rest : List Block) : EStateM.Result PyErr BlockChain (Bool × List Block) → Prop
  | noAncestor (h : first.parentHash ∉ c.blocks.map Block.hash) :
      MergeSpec env s c first rest (.ok (false, first :: rest) s)
  | rejected (i : Nat) (p : Block) (hf : ForkAt c first i p) (h : Refused env (upTo c i) first) :
      MergeSpec env s c first rest (.ok (false, rest) s)
  | sameRound (i : Nat) (p : Block) (w : Int) (hf : ForkAt c first i p)
      (h : Counted env (upTo c i) first p w) (hround : first.round ≤ p.round) :
      MergeSpec env s c first rest (.ok (false, rest) (s.counted first.index w))
  | headRaised (i : Nat) (p : Block) (hf : ForkAt c first i p) (e : PyErr) (s₂ : BlockChain)
      (hrun : insert env first (s.cutTo (i + 1)) = .error e s₂)
      (hr : Raises env (upTo c i) first) : MergeSpec env s c first rest (.error e s₂)
  | adopted (i : Nat) (p : Block) (hf : ForkAt c first i p) (s₂ s₃ : BlockChain)
      (hrun : insert env first (s.cutTo (i + 1)) = .ok true s₂)
      (hacc : (upTo c i).Accepts first)
      (htail : insertUntilRejected env rest s₂ = .ok () s₃) :
      MergeSpec env s c first rest (.ok (true, rest) s₃)
  | tailRaised (i : Nat) (p : Block) (hf : ForkAt c first i p) (e : PyErr) (s₂ s₃ : BlockChain)
      (hrun : insert env first (s.cutTo (i + 1)) = .ok true s₂)
      (hacc : (upTo c i).Accepts first)
      (htail : insertUntilRejected env rest s₂ = .error e s₃) :
      MergeSpec env s c first rest (.error e s₃)

/-- `merge` once the ancestor is known. -/
theorem run_merge (h : Represents env s c) {first : Block} {i : Nat} {p : Block}
    (hf : ForkAt c first i p) {rest : List Block} (hprints : AllPrintable (first :: rest)) :
    merge env (first :: rest) s = (do
      if !(← insert env first) then
        reintroduceBlocks (s.localChains.drop (i + 1))
        return (false, rest)
      insertUntilRejected env rest
      return (true, rest) : Call (Bool × List Block)) (s.cutTo (i + 1)) := by
  have hidx : p.index + 1 = ((i + 1 : Nat) : Int) := by rw [index_at hf.parentAt]; omega
  obtain ⟨text, htext⟩ := strBlocks_ok hprints
  rw [merge, htext, bind_ok (eval_ok _)]
  show (blockOfHash first.parentHash >>= _) s = _
  rw [← hf.parent, bind_ok (h.run_blockOfHash hf.parentAt)]
  show (blocksSinceIndex (p.index + 1) >>= _) s = _
  rw [hidx, bind_ok (h.run_blocksSinceIndex (Int.natCast_nonneg _)),
    bind_ok (h.run_deleteBlocksSince (Int.natCast_nonneg _)), Int.toNat_natCast]

theorem map_id_counted (s : BlockChain) (index w : Int) :
    (s.counted index w).localChains.map Row.id = s.localChains.map Row.id := by
  simp only [BlockChain.counted, List.map_map]
  refine List.map_congr_left fun r _ => ?_
  simp only [Function.comp, Row.count]
  split <;> rfl

theorem merge_spec (h : Represents env s c) {first : Block} {rest : List Block}
    (hprints : AllPrintable (first :: rest)) :
    MergeSpec env s c first rest (merge env (first :: rest) s) := by
  rcases forkAt_or_not c first with ⟨i, p, hf⟩ | hno
  swap
  · obtain ⟨text, htext⟩ := strBlocks_ok hprints
    rw [merge, htext, bind_ok (eval_ok _)]
    show MergeSpec env s c first rest ((blockOfHash first.parentHash >>= _) s)
    rw [bind_ok (h.run_blockOfHash_none hno)]
    exact .noAncestor hno
  rw [run_merge h hf hprints]
  have hspec := insert_spec (h.upTo i) first
  have hout := insert_outcome (h.upTo i) first
  generalize hrun : insert env first (s.cutTo (i + 1)) = r at hspec hout
  cases hout with
  | accepted hacc h' =>
      rw [bind_ok hrun]
      show MergeSpec env s c first rest ((insertUntilRejected env rest >>= _) _)
      cases htail : insertUntilRejected env rest _ with
      | ok _ s₃ =>
          rw [bind_ok htail]
          exact .adopted i p hf _ s₃ hrun hacc htail
      | error e s₃ =>
          rw [bind_error htail]
          exact .tailRaised i p hf e _ s₃ hrun hacc htail
  | refused hacc hr h' =>
      rw [bind_ok hrun]
      show MergeSpec env s c first rest ((reintroduceBlocks _ >>= _) _)
      cases hspec with
      | rejected hno =>
          rw [bind_ok (h.run_reintroduce rfl), appended_cutTo]
          exact .rejected i p hf hno
      | beaten p' q w hc hq hle =>
          exact absurd (hf.beats hc.toCandidate q hq) (not_lt_of_ge hle)
      | sameRound p' w hc hb hround =>
          obtain ⟨rfl, hidx⟩ := hf.candidate hc.toCandidate
          have hn : first.index = ((i + 1 : Nat) : Int) := by omega
          rw [bind_ok (h.run_reintroduce (map_id_counted ..)), hn, h.appended_counted, ← hn]
          exact .sameRound i p' w hf hc hround
  | raised hr h' =>
      rw [bind_error hrun]
      exact .headRaised i p hf _ _ hrun hr

/-- What a call leaves behind, whether it returned or raised: a property
of the table in each case is one of the table after the call. -/
theorem after_merge_cases {P : BlockChain → Prop} (h : Represents env s c) (first : Block)
    (rest : List Block)
    (unprintable : ¬AllPrintable (first :: rest) → P s)
    (noAncestor : first.parentHash ∉ c.blocks.map Block.hash → P s)
    (rejected : ∀ i p, ForkAt c first i p → Refused env (upTo c i) first → P s)
    (sameRound : ∀ i p w, ForkAt c first i p → Counted env (upTo c i) first p w →
      first.round ≤ p.round → P (s.counted first.index w))
    (headRaised : ∀ i p, ForkAt c first i p → Raises env (upTo c i) first →
      P (after (insert env first) (s.cutTo (i + 1))))
    (adopted : ∀ i p s₂, ForkAt c first i p → insert env first (s.cutTo (i + 1)) = .ok true s₂ →
      (upTo c i).Accepts first → P (after (insertUntilRejected env rest) s₂)) :
    P (after (merge env (first :: rest)) s) := by
  by_cases hprints : AllPrintable (first :: rest)
  swap
  · rw [after_error (merge_unprintable hprints s)]
    exact unprintable hprints
  have hspec := merge_spec h hprints
  generalize hrun : merge env (first :: rest) s = r at hspec
  cases hspec with
  | noAncestor hno =>
      rw [after_ok hrun]
      exact noAncestor hno
  | rejected i p hf hrefused =>
      rw [after_ok hrun]
      exact rejected i p hf hrefused
  | sameRound i p w hf hc hround =>
      rw [after_ok hrun]
      exact sameRound i p w hf hc hround
  | headRaised i p hf e s₂ hhead hr =>
      rw [after_error hrun, ← after_error hhead]
      exact headRaised i p hf hr
  | adopted i p hf s₂ s₃ hhead hacc htail =>
      rw [after_ok hrun, ← after_ok htail]
      exact adopted i p s₂ hf hhead hacc
  | tailRaised i p hf e s₂ s₃ hhead hacc htail =>
      rw [after_error hrun, ← after_error htail]
      exact adopted i p s₂ hf hhead hacc

theorem offer_subset (c : Chain (rules env)) (b : Block) :
    (c.offer b).blocks ⊆ c.blocks ++ [b] := by
  by_cases hacc : c.Accepts b
  · rw [Chain.offer_of_accepts hacc]
    exact blocks_graft_subset hacc.1
  · rw [Chain.offer_of_not_accepts hacc]
    exact List.subset_append_left ..

theorem offers_absorbed_subset : ∀ (bs : List Block) (c : Chain (rules env)),
    (offers c (absorbed c bs)).blocks ⊆ c.blocks ++ bs
  | [], c => List.subset_append_left ..
  | b :: bs, c => by
      rw [absorbed]
      split
      · intro x hx
        rcases List.mem_append.mp (offers_absorbed_subset bs (c.offer b) hx) with hx | hx
        · rcases List.mem_append.mp (offer_subset c b hx) with hx | hx
          · exact List.mem_append_left _ hx
          · rw [List.mem_singleton.mp hx]
            exact List.mem_append_right _ (List.mem_cons_self ..)
        · exact List.mem_append_right _ (List.mem_cons_of_mem _ hx)
      · exact List.subset_append_left ..

theorem tail_represents {s : BlockChain} {c : Chain (rules env)} (h : Represents env s c)
    (bs : List Block) : ∃ c', Represents env (after (insertUntilRejected env bs) s) c' ∧
      c'.blocks ⊆ c.blocks ++ bs := by
  unfold after
  have hspec := tail_spec bs h
  generalize insertUntilRejected env bs s = r at hspec ⊢
  cases hspec with
  | returned _ h' => exact ⟨_, h', offers_absorbed_subset bs c⟩
  | raised _ h' =>
      obtain ⟨c', h', y, -, hleft⟩ := h'
      exact ⟨c', h', List.Subset.trans hleft.isPrefix.subset (offers_absorbed_subset bs c)⟩

/-- Every call leaves a table that represents a chain of the blocks there
were and the foreign ones, whether it returns or raises. -/
theorem merge_represents (h : Represents env s c) (bs : List Block) :
    ∃ c', Represents env (after (merge env bs) s) c' ∧ c'.blocks ⊆ c.blocks ++ bs := by
  cases bs with
  | nil => exact ⟨c, h, List.subset_append_left ..⟩
  | cons first rest =>
      -- the head on the cut chain, and the others after it
      have hhead (i : Nat) : ∃ c', Represents env (after (insert env first) (s.cutTo (i + 1))) c' ∧
          c'.blocks ⊆ c.blocks ++ [first] := by
        obtain ⟨c', h', hsub⟩ := insert_represents (h.upTo i) first
        refine ⟨c', h', List.Subset.trans hsub ?_⟩
        exact List.append_subset.mpr
          ⟨List.Subset.trans (List.take_subset ..) (List.subset_append_left ..),
            List.subset_append_right ..⟩
      have htail {i : Nat} {s₂ : BlockChain}
          (hrun : insert env first (s.cutTo (i + 1)) = .ok true s₂) :
          ∃ c', Represents env (after (insertUntilRejected env rest) s₂) c' ∧
            c'.blocks ⊆ c.blocks ++ first :: rest := by
        obtain ⟨c₂, h₂, hsub⟩ := hhead i
        rw [after_ok hrun] at h₂
        obtain ⟨c₃, h₃, hsub'⟩ := tail_represents h₂ rest
        refine ⟨c₃, h₃, List.Subset.trans hsub' ?_⟩
        rw [List.append_cons]
        exact List.append_subset.mpr
          ⟨List.Subset.trans hsub (List.subset_append_left ..), List.subset_append_right ..⟩
      refine after_merge_cases (P := fun t => ∃ c', Represents env t c' ∧
        c'.blocks ⊆ c.blocks ++ first :: rest) h first rest ?unprintable ?noAncestor ?rejected
        ?sameRound ?headRaised ?adopted
      case unprintable => exact fun _ => ⟨c, h, List.subset_append_left ..⟩
      case noAncestor => exact fun _ => ⟨c, h, List.subset_append_left ..⟩
      case rejected => exact fun _ _ _ _ => ⟨c, h, List.subset_append_left ..⟩
      case sameRound => exact fun _ _ _ _ _ _ => ⟨c, h.counted .., List.subset_append_left ..⟩
      case headRaised =>
        intro i p _ _
        obtain ⟨c₂, h₂, hsub⟩ := hhead i
        refine ⟨c₂, h₂, List.Subset.trans hsub ?_⟩
        rw [List.append_cons c.blocks first rest]
        exact List.subset_append_left ..
      case adopted => exact fun i p s₂ _ hrun _ => htail hrun

/-- What the rest of the list does once its head is taken. -/
theorem rest_spec (h : Represents env s c) {first : Block} {i : Nat} {s₂ : BlockChain}
    (hrun : insert env first (s.cutTo (i + 1)) = .ok true s₂)
    (hacc : (upTo c i).Accepts first) (rest : List Block) :
    TailSpec env ((upTo c i).offer first) rest (insertUntilRejected env rest s₂) := by
  have hout := insert_outcome (h.upTo i) first
  rw [hrun] at hout
  cases hout with
  | accepted _ h₂ =>
      rw [← Chain.offer_of_accepts hacc] at h₂
      exact tail_spec rest h₂

/-- Where the head is taken, the chain after the call is the cut one
with the head and the blocks absorbed after it. -/
theorem merge_adopts (h : Represents env s c) {first : Block} {rest l : List Block}
    {s' : BlockChain} (hrun : merge env (first :: rest) s = .ok (true, l) s') :
    ∃ i p, ForkAt c first i p ∧ ∃ hacc : (upTo c i).Accepts first,
      Represents env s' (offers ((upTo c i).graft first hacc.1)
        (absorbed ((upTo c i).graft first hacc.1) rest)) := by
  have hspec := merge_spec h (allPrintable_of_returned (returned_ok hrun))
  rw [hrun] at hspec
  cases hspec with
  | adopted i p hf s₂ s₃ hins hacc htail =>
      refine ⟨i, p, hf, hacc, ?_⟩
      have htspec := rest_spec h hins hacc rest
      rw [htail, Chain.offer_of_accepts hacc] at htspec
      cases htspec with
      | returned _ h₃ => exact h₃

end Cpos
