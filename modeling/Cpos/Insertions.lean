import Cpos.Run

/-!
# The insertions of a call

Every row comes into the table through `insert`, and apart from a merge
that raises every row that goes is one at or above the index of a block
that `insert` stores. `merge` calls `insert` for the first foreign block
on the table cut after its parent, and for the next ones as long as they
are taken; `Op.insertions` lists these calls with the state each is made
in.

A row after a call was there before, or is that of a block an insertion
stored (`row_origin`). A row before a call that returns is still there
afterwards, or an insertion stored a block at its index or below
(`insert_fate`, `merge_fate`). Rows are compared by the columns that come
from the block. Which blocks a merge stores can also be told from the
chain and the list alone (`adopts_of_stored`).
-/

namespace Cpos

open Python ByteString LinkedChain BlockChain

variable {K : Type} [PyNum K] {env : Env K} {s s' : BlockChain} {c : Chain (rules env)}

/-- A call of `insert`: the state it is made in, and the block. -/
structure Insertion where
  state : BlockChain
  block : Block

/-- It returns `True`. -/
def Insertion.Stored (env : Env K) (i : Insertion) : Prop :=
  returned (insert env i.block) i.state = some true

instance (i : Insertion) : Decidable (i.Stored env) := inferInstanceAs (Decidable (_ = _))

/-- The insertions of blocks until one is rejected. -/
def insertionsFrom (env : Env K) : List Block → BlockChain → List Insertion
  | [], _ => []
  | block :: blocks, s =>
      ⟨s, block⟩ :: match insert env block s with
        | .ok true s' => insertionsFrom env blocks s'
        | _ => []

/-- The insertions of a merge, if the blocks can be printed and the first
foreign block's parent is found. -/
def mergeInsertions (env : Env K) (s : BlockChain) : List Block → List Insertion
  | [] => []
  | first :: rest =>
      if AllPrintable (first :: rest) then
        match returned (blockOfHash first.parentHash) s with
        | some (some (_, idx)) =>
            insertionsFrom env (first :: rest) (after (deleteBlocksSince (idx + 1)) s)
        | _ => []
      else []

def Op.insertions (env : Env K) (s : BlockChain) : Op → List Insertion
  | .insert block => [⟨s, block⟩]
  | .merge foreignBlocks => mergeInsertions env s foreignBlocks
  | .updateRound _ => []

/-! ## The insertions of a merge -/

theorem mergeInsertions_of_fork (h : Represents env s c) {first p : Block} {i : Nat}
    (hf : ForkAt c first i p) {rest : List Block} (hprints : AllPrintable (first :: rest)) :
    mergeInsertions env s (first :: rest) = insertionsFrom env (first :: rest) (s.cutTo (i + 1)) := by
  have hidx : p.index + 1 = ((i + 1 : Nat) : Int) := by rw [index_at hf.parentAt]; omega
  have hcut := h.run_deleteBlocksSince (k := p.index + 1) (by omega)
  rw [hidx, Int.toNat_natCast] at hcut
  rw [mergeInsertions, if_pos hprints, ← hf.parent, returned_ok (h.run_blockOfHash hf.parentAt)]
  simp only
  rw [hidx, after_ok hcut]

theorem mergeInsertions_of_noAncestor (h : Represents env s c) {first : Block}
    (hno : first.parentHash ∉ c.blocks.map Block.hash) (rest : List Block) :
    mergeInsertions env s (first :: rest) = [] := by
  rw [mergeInsertions, returned_ok (h.run_blockOfHash_none hno), ite_self]

theorem mergeInsertions_of_unprintable {first : Block} {rest : List Block}
    (hno : ¬AllPrintable (first :: rest)) : mergeInsertions env s (first :: rest) = [] :=
  if_neg hno

/-- A merge that inserts can print its blocks and has found the parent. -/
theorem mem_mergeInsertions (h : Represents env s c) {first : Block} {rest : List Block}
    {i : Insertion} (hi : i ∈ mergeInsertions env s (first :: rest)) :
    AllPrintable (first :: rest) ∧ ∃ k p, ForkAt c first k p ∧
      i ∈ insertionsFrom env (first :: rest) (s.cutTo (k + 1)) := by
  by_cases hprints : AllPrintable (first :: rest)
  swap
  · rw [mergeInsertions_of_unprintable hprints] at hi
    cases hi
  rcases forkAt_or_not c first with ⟨k, p, hf⟩ | hno
  · rw [mergeInsertions_of_fork h hf hprints] at hi
    exact ⟨hprints, k, p, hf, hi⟩
  · rw [mergeInsertions_of_noAncestor h hno] at hi
    cases hi

/-- Each is made in a state that represents a chain. -/
theorem mem_insertionsFrom {blocks : List Block} (h : Represents env s c) {i : Insertion}
    (hi : i ∈ insertionsFrom env blocks s) :
    i.block ∈ blocks ∧ ∃ c', Represents env i.state c' ∧ c'.blocks ⊆ c.blocks ++ blocks := by
  induction blocks generalizing s c with
  | nil => cases hi
  | cons b bs ih =>
      rw [insertionsFrom] at hi
      rcases List.mem_cons.mp hi with rfl | hi
      · exact ⟨List.mem_cons_self .., c, h, List.subset_append_left ..⟩
      cases hrun : insert env b s with
      | error e s' => simp [hrun] at hi
      | ok r s' =>
          cases r with
          | false => simp [hrun] at hi
          | true =>
              simp only [hrun] at hi
              obtain ⟨c₁, h₁, hsub⟩ := insert_represents h b
              rw [after_ok hrun] at h₁
              obtain ⟨hmem, c', h', hsub'⟩ := ih h₁ hi
              refine ⟨List.mem_cons_of_mem _ hmem, c', h', List.Subset.trans hsub' ?_⟩
              rw [List.append_cons]
              exact List.append_subset.mpr
                ⟨List.Subset.trans hsub (List.subset_append_left ..),
                  List.subset_append_right ..⟩

theorem mem_insertions (h : Represents env s c) {op : Op} {i : Insertion}
    (hi : i ∈ op.insertions env s) :
    i.block ∈ op.blocks ∧ ∃ c', Represents env i.state c' ∧ c'.blocks ⊆ c.blocks ++ op.blocks := by
  cases op with
  | updateRound fuel => cases hi
  | insert b =>
      obtain rfl := List.mem_singleton.mp hi
      exact ⟨List.mem_singleton_self _, c, h, List.subset_append_left ..⟩
  | merge bs =>
      cases bs with
      | nil => cases hi
      | cons first rest =>
          obtain ⟨-, k, p, hf, hi'⟩ := mem_mergeInsertions h hi
          obtain ⟨hmem, c', h', hsub⟩ := mem_insertionsFrom (h.upTo k) hi'
          refine ⟨hmem, c', h', List.Subset.trans hsub ?_⟩
          exact List.append_subset.mpr
            ⟨List.Subset.trans (List.take_subset ..) (List.subset_append_left ..),
              List.subset_append_right ..⟩

/-! ## The blocks a merge stores -/

/-- `b` is one of the blocks that the chain, cut after the parent of the
first of them, takes one after another. -/
def Adopts (c : Chain (rules env)) (blocks : List Block) (b : Block) : Prop :=
  AllPrintable blocks ∧ ∃ first ∈ blocks.head?, ∃ i p, ForkAt c first i p ∧
    b ∈ absorbed (upTo c i) blocks

theorem Adopts.mem {blocks : List Block} {b : Block} (h : Adopts c blocks b) : b ∈ blocks := by
  obtain ⟨-, first, -, i, p, -, hmem⟩ := h
  exact (absorbed_isPrefix _ _).subset hmem

theorem absorbed_of_stored {blocks : List Block} (h : Represents env s c) {i : Insertion}
    (hi : i ∈ insertionsFrom env blocks s) (hstored : i.Stored env) :
    i.block ∈ absorbed c blocks := by
  induction blocks generalizing s c with
  | nil => cases hi
  | cons b bs ih =>
      have hout := insert_outcome h b
      rw [insertionsFrom] at hi
      rw [absorbed]
      generalize hrun : insert env b s = r at hout hi
      cases hout with
      | accepted hacc h' =>
          rw [if_pos hacc]
          rcases List.mem_cons.mp hi with rfl | hi
          · exact List.mem_cons_self ..
          · rw [← Chain.offer_of_accepts hacc] at h'
            exact List.mem_cons_of_mem _ (ih h' hi)
      | refused hacc _ _ =>
          obtain rfl := List.mem_singleton.mp hi
          exact absurd ((returned_insert_iff h b).mp hstored) hacc
      | raised hr _ =>
          obtain rfl := List.mem_singleton.mp hi
          exact absurd ((returned_insert_iff h b).mp hstored) hr.not_accepts

theorem adopts_of_stored {blocks : List Block} (h : Represents env s c) {i : Insertion}
    (hi : i ∈ mergeInsertions env s blocks) (hstored : i.Stored env) : Adopts c blocks i.block := by
  cases blocks with
  | nil => cases hi
  | cons first rest =>
      obtain ⟨hprints, k, p, hf, hi⟩ := mem_mergeInsertions h hi
      exact ⟨hprints, first, rfl, k, p, hf, absorbed_of_stored (h.upTo k) hi hstored⟩

/-! ## Where rows come from -/

/-- The row stores the block of an insertion that succeeded. -/
def StoredBy (env : Env K) (l : List Insertion) (r : Row) : Prop :=
  ∃ i ∈ l, i.Stored env ∧ Stores r i.block

/-- Every row of `s'` is one of `s` or stored by an insertion of `l`. -/
def Origin (env : Env K) (l : List Insertion) (s s' : BlockChain) : Prop :=
  ∀ r' ∈ s'.localChains, (∃ r ∈ s.localChains, r.static = r'.static) ∨ StoredBy env l r'

theorem origin_of_subset {l : List Insertion}
    (h : s'.localChains.map Row.static ⊆ s.localChains.map Row.static) : Origin env l s s' := by
  intro r' hr'
  exact .inl (List.mem_map.mp (h (List.mem_map_of_mem hr')))

theorem map_static_counted (s : BlockChain) (i w : Int) :
    (s.counted i w).localChains.map Row.static = s.localChains.map Row.static := by
  simp only [BlockChain.counted, List.map_map]
  exact List.map_congr_left fun r _ => static_count i w r

theorem origin_refl (l : List Insertion) (s : BlockChain) : Origin env l s s :=
  origin_of_subset (List.Subset.refl _)

theorem origin_counted (l : List Insertion) (s : BlockChain) (i w : Int) :
    Origin env l s (s.counted i w) := by
  refine origin_of_subset ?_
  rw [map_static_counted]
  exact List.Subset.refl _

theorem origin_cutTo (l : List Insertion) (s : BlockChain) (n : Nat) :
    Origin env l s (s.cutTo n) := by
  refine origin_of_subset ?_
  rw [BlockChain.cutTo, List.map_take]
  exact List.take_subset ..

theorem StoredBy.mono {l l' : List Insertion} {r : Row} (h : StoredBy env l r) (hl : l ⊆ l') :
    StoredBy env l' r := by
  obtain ⟨i, hi, hrest⟩ := h
  exact ⟨i, hl hi, hrest⟩

theorem Origin.mono {l l' : List Insertion} (h : Origin env l s s') (hl : l ⊆ l') :
    Origin env l' s s' :=
  fun r' hr' => (h r' hr').imp_right fun hst => hst.mono hl

theorem Origin.trans {l : List Insertion} {s'' : BlockChain} (h : Origin env l s s')
    (h' : Origin env l s' s'') : Origin env l s s'' := by
  intro r'' hr''
  rcases h' r'' hr'' with ⟨r', hr', heq⟩ | hst
  · rcases h r' hr' with ⟨r, hr, heq'⟩ | hst
    · exact .inl ⟨r, hr, heq'.trans heq⟩
    · obtain ⟨i, hi, hstored, hrow⟩ := hst
      exact .inr ⟨i, hi, hstored, heq.symm.trans hrow⟩
  · exact .inr hst

theorem insert_origin (h : Represents env s c) (b : Block) :
    Origin env [⟨s, b⟩] s (after (insert env b) s) := by
  refine after_insert_cases h b (origin_refl _ _) ?counted ?stored ?unfit
  case counted => exact fun _ _ _ => origin_counted _ _ _ _
  case unfit =>
    intro p w _
    have hcut : Origin env [⟨s, b⟩] (s.counted b.index w)
        ((s.counted b.index w).ticked.cutTo b.index.toNat) := origin_cutTo _ _ _
    exact Origin.trans (origin_counted _ _ _ _) hcut
  case stored =>
    intro p w _ hstored r' hr'
    rcases List.mem_append.mp hr' with hr' | hr'
    · exact origin_counted _ s b.index w r' (List.mem_of_mem_take hr')
    · refine .inr ⟨⟨s, b⟩, List.mem_singleton_self _, hstored, ?_⟩
      rw [List.mem_singleton.mp hr']
      rfl

theorem insertionsFrom_subset {b : Block} {bs : List Block} {s₁ : BlockChain}
    (hrun : insert env b s = .ok true s₁) :
    insertionsFrom env bs s₁ ⊆ insertionsFrom env (b :: bs) s := by
  rw [insertionsFrom, hrun]
  exact List.subset_cons_self ..

theorem head_subset_insertionsFrom (s : BlockChain) (b : Block) (bs : List Block) :
    [⟨s, b⟩] ⊆ insertionsFrom env (b :: bs) s := by
  rw [insertionsFrom]
  exact List.cons_subset_cons _ (List.nil_subset _)

theorem tail_origin {blocks : List Block} (h : Represents env s c) :
    Origin env (insertionsFrom env blocks s) s (after (insertUntilRejected env blocks) s) := by
  induction blocks generalizing s c with
  | nil => exact origin_refl _ _
  | cons b bs ih =>
      have hhead : Origin env (insertionsFrom env (b :: bs) s) s (after (insert env b) s) :=
        (insert_origin h b).mono (head_subset_insertionsFrom s b bs)
      obtain ⟨c₁, h₁, -⟩ := insert_represents h b
      rw [insertUntilRejected]
      cases hrun : insert env b s with
      | error e s₁ =>
          rw [after_error hrun] at hhead
          rw [after_bind_error hrun]
          exact hhead
      | ok r s₁ =>
          rw [after_ok hrun] at hhead h₁
          rw [after_bind_ok hrun]
          cases r with
          | false => exact hhead
          | true => exact hhead.trans ((ih h₁).mono (insertionsFrom_subset hrun))

theorem merge_origin (h : Represents env s c) (blocks : List Block) :
    Origin env (mergeInsertions env s blocks) s (after (merge env blocks) s) := by
  cases blocks with
  | nil => exact origin_refl _ _
  | cons first rest =>
      by_cases hprints : AllPrintable (first :: rest)
      swap
      · rw [after_error (merge_unprintable hprints s)]
        exact origin_refl _ _
      have hhead {i : Nat} {p : Block} (hf : ForkAt c first i p) :
          Origin env (mergeInsertions env s (first :: rest)) s
            (after (insert env first) (s.cutTo (i + 1))) := by
        rw [mergeInsertions_of_fork h hf hprints]
        exact (origin_cutTo _ s _).trans
          ((insert_origin (h.upTo i) first).mono (head_subset_insertionsFrom _ first rest))
      have htail {i : Nat} {p : Block} (hf : ForkAt c first i p) {s₂ : BlockChain}
          (hrun : insert env first (s.cutTo (i + 1)) = .ok true s₂) :
          Origin env (mergeInsertions env s (first :: rest)) s
            (after (insertUntilRejected env rest) s₂) := by
        have hs₂ := hhead hf
        obtain ⟨c₂, h₂, -⟩ := insert_represents (h.upTo i) first
        rw [after_ok hrun] at hs₂ h₂
        refine hs₂.trans ((tail_origin h₂).mono ?_)
        rw [mergeInsertions_of_fork h hf hprints]
        exact insertionsFrom_subset hrun
      refine after_merge_cases h first rest ?unprintable ?noAncestor ?rejected ?sameRound
        ?headRaised ?adopted
      case unprintable => exact fun hno => absurd hprints hno
      case noAncestor => exact fun _ => origin_refl _ _
      case rejected => exact fun _ _ _ _ => origin_refl _ _
      case sameRound => exact fun _ _ w _ _ _ => origin_counted _ _ _ _
      case headRaised => exact fun i p hf _ => hhead hf
      case adopted => exact fun i p s₂ hf hrun _ => htail hf hrun

theorem confirms_map_static (h : Confirms s s') :
    s'.localChains.map Row.static = s.localChains.map Row.static := by
  rw [eq_comm, ← List.forall₂_eq_eq_eq, List.forall₂_map_left_iff, List.forall₂_map_right_iff]
  exact h.imp fun r r' hr => hr.static

/-- **Where rows come from.** -/
theorem row_origin (h : Represents env s c) (op : Op) :
    Origin env (op.insertions env s) s (step env s op) := by
  cases op with
  | insert b => rw [step_insert]; exact insert_origin h b
  | merge bs => rw [step_merge]; exact merge_origin h bs
  | updateRound fuel =>
      rw [step_updateRound]
      refine origin_of_subset ?_
      rw [confirms_map_static (updateRound_confirms fuel s)]
      exact List.Subset.refl _

/-! ## What becomes of rows -/

/-- Every row of `s` is still there in `s'`, or an insertion of `l` stored
a block at its index or below. -/
def Fate (env : Env K) (l : List Insertion) (s s' : BlockChain) : Prop :=
  ∀ r ∈ s.localChains, (∃ r' ∈ s'.localChains, r.static = r'.static) ∨
    ∃ i ∈ l, i.Stored env ∧ i.block.index ≤ r.blockIndex

theorem fate_of_subset {l : List Insertion}
    (h : s.localChains.map Row.static ⊆ s'.localChains.map Row.static) : Fate env l s s' := by
  intro r hr
  obtain ⟨r', hr', heq⟩ := List.mem_map.mp (h (List.mem_map_of_mem hr))
  exact .inl ⟨r', hr', heq.symm⟩

theorem fate_counted (l : List Insertion) (s : BlockChain) (i w : Int) :
    Fate env l s (s.counted i w) := by
  refine fate_of_subset ?_
  rw [map_static_counted]
  exact List.Subset.refl _

theorem Fate.mono {l l' : List Insertion} (h : Fate env l s s') (hl : l ⊆ l') :
    Fate env l' s s' := by
  intro r hr
  refine (h r hr).imp_right fun hgone => ?_
  obtain ⟨i, hi, hrest⟩ := hgone
  exact ⟨i, hl hi, hrest⟩

theorem Fate.trans {l : List Insertion} {s'' : BlockChain} (h : Fate env l s s')
    (h' : Fate env l s' s'') : Fate env l s s'' := by
  intro r hr
  rcases h r hr with ⟨r', hr', heq⟩ | hgone
  swap
  · exact .inr hgone
  have hindex : r.static.blockIndex = r'.static.blockIndex := congrArg Row.blockIndex heq
  rw [show r.blockIndex = r'.blockIndex from hindex]
  exact (h' r' hr').imp_left fun ⟨r'', hr'', heq'⟩ => ⟨r'', hr'', heq.trans heq'⟩

/-- A cut takes rows that an insertion replaces. -/
theorem Represents.fate_cutTo (h : Represents env s c) {l : List Insertion} {n : Nat}
    {i : Insertion} (hi : i ∈ l) (hstored : i.Stored env) (hn : i.block.index ≤ n) :
    Fate env l s (s.cutTo n) := by
  intro r hr
  by_cases hlt : r.blockIndex < n
  · have hmem : r ∈ s.localChains.filter fun r => !(r.blockIndex ≥ (n : Int)) :=
      List.mem_filter.mpr ⟨hr, by simpa using hlt⟩
    rw [filter_lt_eq_take h.indexed (Int.natCast_nonneg n), Int.toNat_natCast] at hmem
    exact .inl ⟨r, hmem, rfl⟩
  · exact .inr ⟨i, hi, hstored, by omega⟩

theorem insert_fate (h : Represents env s c) {b : Block} {stored : Bool}
    (hrun : insert env b s = .ok stored s') : Fate env [⟨s, b⟩] s s' := by
  have hspec := insert_spec h b
  have hreturned := returned_ok hrun
  rw [hrun] at hspec
  cases hspec with
  | rejected _ => exact fate_of_subset (List.Subset.refl _)
  | beaten p q w _ _ _ => exact fate_counted _ _ _ _
  | sameRound p w _ _ _ => exact fate_counted _ _ _ _
  | stored p w hc _ _ _ =>
      have hpos := hc.pos
      have hcut : Fate env [⟨s, b⟩] (s.counted b.index w)
          ((s.counted b.index w).cutTo b.index.toNat) :=
        (h.counted ..).fate_cutTo (List.mem_singleton_self _) hreturned
          (show b.index ≤ _ by omega)
      refine (fate_counted _ s b.index w).trans (hcut.trans (fate_of_subset ?_))
      show _ ⊆ (((s.counted b.index w).localChains.take b.index.toNat) ++ [_]).map Row.static
      rw [List.map_append]
      exact List.subset_append_left ..

theorem tail_fate {blocks : List Block} (h : Represents env s c)
    (hrun : insertUntilRejected env blocks s = .ok () s') :
    Fate env (insertionsFrom env blocks s) s s' := by
  induction blocks generalizing s c with
  | nil =>
      cases hrun
      exact fate_of_subset (List.Subset.refl _)
  | cons b bs ih =>
      rw [insertUntilRejected] at hrun
      obtain ⟨stored, s₁, hinsert, hrest⟩ := bind_eq_ok hrun
      have hhead : Fate env (insertionsFrom env (b :: bs) s) s s₁ :=
        (insert_fate h hinsert).mono (head_subset_insertionsFrom s b bs)
      cases stored with
      | false =>
          cases hrest
          exact hhead
      | true =>
          obtain ⟨c₁, h₁, -⟩ := insert_represents h b
          rw [after_ok hinsert] at h₁
          exact hhead.trans ((ih h₁ hrest).mono (insertionsFrom_subset hinsert))

theorem merge_fate (h : Represents env s c) {blocks left : List Block} {merged : Bool}
    (hrun : merge env blocks s = .ok (merged, left) s') :
    Fate env (mergeInsertions env s blocks) s s' := by
  cases blocks with
  | nil => cases hrun
  | cons first rest =>
      have hprints := allPrintable_of_returned (returned_ok hrun)
      have hspec := merge_spec h hprints
      rw [hrun] at hspec
      cases hspec with
      | noAncestor _ => exact fate_of_subset (List.Subset.refl _)
      | rejected _ _ _ _ => exact fate_of_subset (List.Subset.refl _)
      | sameRound _ _ w _ _ _ => exact fate_counted _ _ _ _
      | adopted i p hf s₂ _ hhead hacc htail =>
          obtain ⟨c₂, h₂, -⟩ := insert_represents (h.upTo i) first
          rw [after_ok hhead] at h₂
          obtain ⟨p', w, hc, -⟩ := counted_of_accepts hacc
          have hindex := (hf.candidate hc.toCandidate).2
          rw [mergeInsertions_of_fork h hf hprints]
          have hmem : (⟨s.cutTo (i + 1), first⟩ : Insertion) ∈
              insertionsFrom env (first :: left) (s.cutTo (i + 1)) :=
            head_subset_insertionsFrom _ first left (List.mem_singleton_self _)
          have hcut : Fate env (insertionsFrom env (first :: left) (s.cutTo (i + 1))) s
              (s.cutTo (i + 1)) :=
            h.fate_cutTo hmem (returned_ok hhead) (by
              show first.index ≤ _
              have hpos := hc.pos
              omega)
          have hfirst : Fate env (insertionsFrom env (first :: left) (s.cutTo (i + 1)))
              (s.cutTo (i + 1)) s₂ :=
            (insert_fate (h.upTo i) hhead).mono (head_subset_insertionsFrom _ first left)
          exact hcut.trans (hfirst.trans
            ((tail_fate h₂ htail).mono (insertionsFrom_subset hhead)))

end Cpos
