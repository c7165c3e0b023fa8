import Cpos.Run

/-!
# Confirmed blocks

A confirmed row is not protected. `insert` deletes from the index of any
block that wins there, and `merge` deletes everything above the ancestor
before it inserts; neither reads the column `confirmed`. What can be said
is exactly how far down each call reaches: the rows below `Op.kept` stay
in place, those from there on are gone or replaced by unconfirmed ones
(`step_rewrites`). A confirmed row survives a run if and only if no call
of the run reaches it (`confirmed_iff_kept`).
-/

namespace Cpos

open Python ByteString LinkedChain BlockChain

variable {K : Type} [PyNum K] {env : Env K} {s s' s'' : BlockChain} {c : Chain (rules env)}

/-! ## Rows that stay in place -/

/-- `r'` is `r`; an unconfirmed row may have been counted. -/
def Row.RecountedFrom (r r' : Row) : Prop :=
  r' = r ∨ r.confirmed = 0 ∧ ∃ n, r' = { r with numSuc := n }

theorem Row.recountedFrom_count (index w : Int) (r : Row) :
    r.RecountedFrom (r.count index w) := by
  unfold Row.count
  split
  · next hcond => exact .inr ⟨hcond.2, _, rfl⟩
  · exact .inl rfl

theorem Row.RecountedFrom.trans {r r' r'' : Row} (h : r.RecountedFrom r')
    (h' : r'.RecountedFrom r'') : r.RecountedFrom r'' := by
  rcases h with rfl | ⟨hzero, n, rfl⟩
  · exact h'
  · rcases h' with rfl | ⟨_, m, rfl⟩
    · exact .inr ⟨hzero, n, rfl⟩
    · exact .inr ⟨hzero, m, rfl⟩

theorem Row.RecountedFrom.id_eq {r r' : Row} (h : r.RecountedFrom r') : r'.id = r.id := by
  rcases h with rfl | ⟨-, n, rfl⟩ <;> rfl

theorem Row.RecountedFrom.confirmed_eq {r r' : Row} (h : r.RecountedFrom r') :
    r'.confirmed = r.confirmed := by
  rcases h with rfl | ⟨-, n, rfl⟩ <;> rfl

theorem Row.RecountedFrom.eq_of_confirmed {r r' : Row} (h : r.RecountedFrom r')
    (hr : r.confirmed = 1) : r' = r := by
  rcases h with rfl | ⟨hzero, -⟩
  · rfl
  · rw [hr] at hzero; cases hzero

/-- The first `n` rows of `s` are in place in `s'`; what follows them
there is unconfirmed. -/
structure Rewrites (n : Nat) (s s' : BlockChain) : Prop where
  le : n ≤ s.localChains.length
  below : ∀ (i : Nat) (r : Row), i < n → s.localChains[i]? = some r →
    ∃ r', s'.localChains[i]? = some r' ∧ r.RecountedFrom r'
  above : ∀ (i : Nat) (r' : Row), n ≤ i → s'.localChains[i]? = some r' → r'.confirmed = 0

theorem rewrites_refl (s : BlockChain) : Rewrites s.localChains.length s s where
  le := le_refl _
  below i r _ hr := ⟨r, hr, .inl rfl⟩
  above i r' hi hr' := by
    have := (List.getElem?_eq_some_iff.mp hr').1
    omega

theorem Rewrites.trans {m n : Nat} (h : Rewrites m s s') (h' : Rewrites n s' s'') :
    Rewrites (min m n) s s'' where
  le := by have := h.le; omega
  below i r hi hr := by
    obtain ⟨r', hr', hrec⟩ := h.below i r (by omega) hr
    obtain ⟨r'', hr'', hrec'⟩ := h'.below i r' (by omega) hr'
    exact ⟨r'', hr'', hrec.trans hrec'⟩
  above i r'' hi hr'' := by
    rcases Nat.lt_or_ge i n with hin | hin
    · have hlen := h'.le
      have hr' := List.getElem?_eq_getElem (l := s'.localChains) (i := i) (by omega)
      obtain ⟨r₂, hr₂, hrec⟩ := h'.below i _ hin hr'
      obtain rfl := Option.some.inj (hr₂.symm.trans hr'')
      rw [hrec.confirmed_eq]
      exact h.above i _ (by omega) hr'
    · exact h'.above i r'' hin hr''

/-- A count, a cut and new rows. -/
theorem rewrites_of_rows {n : Nat} {index w : Int} {l : List Row}
    (hn : n ≤ s.localChains.length)
    (hrows : s'.localChains = (s.localChains.take n).map (Row.count index w) ++ l)
    (hnew : ∀ r ∈ l, r.confirmed = 0) : Rewrites n s s' where
  le := hn
  below i r hi hr := by
    refine ⟨r.count index w, ?_, Row.recountedFrom_count index w r⟩
    rw [hrows, List.getElem?_append_left (by simp; omega), List.getElem?_map,
      List.getElem?_take_of_lt hi, hr, Option.map_some]
  above i r' hi hr' := by
    rw [hrows, List.getElem?_append_right (by simp; omega)] at hr'
    exact hnew r' (List.mem_of_getElem? hr')

theorem rewrites_counted (s : BlockChain) (index w : Int) :
    Rewrites s.localChains.length s (s.counted index w) :=
  rewrites_of_rows (l := []) (le_refl _) (by rw [List.take_length, List.append_nil]; rfl) (by simp)

/-! ## How far down a call reaches -/

/-- `b` passes every check of `insert` and can be printed; the suffix from
its index on is deleted, whether or not its row then fits the columns. -/
def Wins (env : Env K) (c : Chain (rules env)) (b : Block) : Prop :=
  ∃ p w, Counted env c b p w ∧ Beats c b ∧ p.round < b.round ∧ b.Printable

open Classical in
/-- How many rows `insert` leaves in place. -/
noncomputable def insertKept (env : Env K) (c : Chain (rules env)) (b : Block) : Nat :=
  if Wins env c b then b.index.toNat else c.blocks.length

open Classical in
/-- How many rows the blocks after the head leave in place. -/
noncomputable def tailKept (env : Env K) (c : Chain (rules env)) : List Block → Nat
  | [] => c.blocks.length
  | b :: bs =>
      if c.Accepts b then min (insertKept env c b) (tailKept env (c.offer b) bs)
      else insertKept env c b

/-- The position of the parent of `first`. -/
def forkIndex (c : Chain (rules env)) (first : Block) : Nat :=
  c.blocks.findIdx fun p => p.hash = first.parentHash

open Classical in
/-- How many rows `merge` leaves in place when it forks at `i`: none
above, unless it puts the local blocks back. -/
noncomputable def forkKept (env : Env K) (c : Chain (rules env)) (i : Nat) (first : Block)
    (rest : List Block) : Nat :=
  if (upTo c i).Accepts first then min (i + 1) (tailKept env ((upTo c i).offer first) rest)
  else if Raises env (upTo c i) first then i + 1
  else c.blocks.length

/-- How many rows `merge` leaves in place: all of them if a block cannot
be printed or there is no ancestor. -/
noncomputable def mergeKept (env : Env K) (c : Chain (rules env)) (first : Block)
    (rest : List Block) : Nat :=
  if ¬AllPrintable (first :: rest) then c.blocks.length
  else if first.parentHash ∉ c.blocks.map Block.hash then c.blocks.length
  else forkKept env c (forkIndex c first) first rest

/-- How many rows of a table that represents `c` a call leaves in place. -/
noncomputable def Op.kept (env : Env K) (c : Chain (rules env)) : Op → Nat
  | .insert b => insertKept env c b
  | .merge [] => c.blocks.length
  | .merge (first :: rest) => mergeKept env c first rest
  | .updateRound _ => c.blocks.length

theorem ForkAt.forkIndex_eq {first p : Block} {i : Nat} (hf : ForkAt c first i p) :
    forkIndex c first = i := by
  obtain ⟨hi, hp⟩ := List.getElem?_eq_some_iff.mp hf.parentAt
  refine (List.findIdx_eq hi).mpr ⟨by simp [hp, hf.parent], fun j hj => ?_⟩
  simp only [decide_eq_false_iff_not]
  intro heq
  have := c.index_unique (List.getElem?_eq_getElem (by omega)) hf.parentAt
    (heq.trans hf.parent.symm)
  omega

theorem Refused.not_wins {b : Block} (h : Refused env c b) : ¬Wins env c b := by
  rintro ⟨p, w, hc, -⟩
  exact h.not_counted p w hc

theorem Counted.not_wins {b p : Block} {w : Int} (hc : Counted env c b p w)
    (h : Beats c b → ¬p.round < b.round) : ¬Wins env c b := by
  rintro ⟨p', _, hc', hb, hround, -⟩
  obtain rfl := Option.some.inj (hc.parentAt.symm.trans hc'.parentAt)
  exact h hb hround

theorem insert_rewrites (h : Represents env s c) (b : Block) :
    Rewrites (insertKept env c b) s (after (insert env b) s) := by
  have hsame (hno : ¬Wins env c b) : Rewrites (insertKept env c b) s s := by
    rw [insertKept, if_neg hno, ← h.length]
    exact rewrites_refl s
  have hcount (hno : ¬Wins env c b) (w : Int) :
      Rewrites (insertKept env c b) s (s.counted b.index w) := by
    rw [insertKept, if_neg hno, ← h.length]
    exact rewrites_counted s b.index w
  have hwins (hw : Wins env c b) {p : Block} (hc : Candidate c b p) {s' : BlockChain}
      {w : Int} {l : List Row}
      (hrows : s'.localChains = (s.localChains.map (Row.count b.index w)).take b.index.toNat ++ l)
      (hnew : ∀ r ∈ l, r.confirmed = 0) : Rewrites (insertKept env c b) s s' := by
    rw [insertKept, if_pos hw]
    rw [← List.map_take] at hrows
    exact rewrites_of_rows (by rw [h.length]; exact hc.index_le) hrows hnew
  unfold after
  have hspec := insert_spec h b
  generalize insert env b s = r at hspec ⊢
  cases hspec with
  | rejected hno => exact hsame hno.not_wins
  | noRow _ hneg =>
      refine hsame ?_
      rintro ⟨p, w, hc, -⟩
      have := hc.pos
      omega
  | raised p e _ he =>
      refine hsame ?_
      rintro ⟨p, w, hc, -⟩
      have := he.symm.trans hc.valid
      cases this
  | beaten p q w hc hq hle =>
      exact hcount (hc.not_wins fun hb => absurd (hb q hq) (not_lt_of_ge hle)) w
  | sameRound p w hc _ hround => exact hcount (hc.not_wins fun _ => by omega) w
  | unprinted p w hc _ _ hno =>
      refine hcount ?_ w
      rintro ⟨-, -, -, -, -, hprints⟩
      exact hno hprints
  | stored p w hc hb hround hfits =>
      exact hwins ⟨p, w, hc, hb, hround, hfits.printable⟩ hc.toCandidate rfl
        (by simp [arrival, Block.toRow])
  | unfit p w hc hb hround hprints _ =>
      exact hwins ⟨p, w, hc, hb, hround, hprints⟩ hc.toCandidate (l := [])
        (by rw [List.append_nil]; rfl) (by simp)

theorem tail_rewrites : ∀ (bs : List Block) {s : BlockChain} {c : Chain (rules env)},
    Represents env s c → Rewrites (tailKept env c bs) s (after (insertUntilRejected env bs) s)
  | [], s, c, h => by
      rw [tailKept, ← h.length]
      exact rewrites_refl s
  | b :: bs, s, c, h => by
      have hhead := insert_rewrites h b
      have hout := insert_outcome h b
      rw [insertUntilRejected, tailKept]
      generalize hrun : insert env b s = r at hout
      cases hout with
      | accepted hacc h' =>
          rw [after_ok hrun] at hhead
          rw [← Chain.offer_of_accepts hacc] at h'
          rw [if_pos hacc, after, bind_ok hrun]
          exact hhead.trans (tail_rewrites bs h')
      | refused hacc _ _ =>
          rw [after_ok hrun] at hhead
          rw [if_neg hacc, after, bind_ok hrun]
          exact hhead
      | raised hr _ =>
          rw [after_error hrun] at hhead
          rw [if_neg hr.not_accepts, after, bind_error hrun]
          exact hhead

theorem Represents.rewrites_cutTo (h : Represents env s c) {i : Nat} {p : Block}
    (hp : c.blocks[i]? = some p) : Rewrites (i + 1) s (s.cutTo (i + 1)) where
  le := by rw [h.length]; exact (List.getElem?_eq_some_iff.mp hp).1
  below j r hj hr := ⟨r, by rw [BlockChain.cutTo, List.getElem?_take_of_lt hj]; exact hr, .inl rfl⟩
  above j r' hj hr' := by
    rw [BlockChain.cutTo, List.getElem?_take, if_neg (by omega)] at hr'
    cases hr'

/-- At the tip of the cut chain an insertion cuts nothing. -/
theorem ForkAt.insertKept {first p : Block} {i : Nat} (hf : ForkAt c first i p) :
    Cpos.insertKept env (Cpos.upTo c i) first = i + 1 := by
  unfold Cpos.insertKept
  split
  · next hw =>
    obtain ⟨p', w, hc, -⟩ := hw
    have := (hf.candidate hc.toCandidate).2
    omega
  · have hi := (List.getElem?_eq_some_iff.mp hf.parentAt).1
    rw [blocks_upTo, List.length_take]
    omega

theorem merge_rewrites (h : Represents env s c) (first : Block) (rest : List Block) :
    Rewrites (mergeKept env c first rest) s (after (merge env (first :: rest)) s) := by
  by_cases hprints : AllPrintable (first :: rest)
  swap
  · rw [after_error (merge_unprintable hprints s), mergeKept, if_pos hprints, ← h.length]
    exact rewrites_refl s
  have hfork {i : Nat} {p : Block} (hf : ForkAt c first i p) :
      mergeKept env c first rest = forkKept env c i first rest := by
    rw [mergeKept, if_neg (not_not_intro hprints), if_neg (not_not_intro hf.parent_mem),
      hf.forkIndex_eq]
  -- the head inserted at the tip of the cut chain
  have hcut {i : Nat} {p : Block} (hf : ForkAt c first i p) :
      Rewrites (i + 1) s (after (insert env first) (s.cutTo (i + 1))) := by
    have := (h.rewrites_cutTo hf.parentAt).trans (insert_rewrites (h.upTo i) first)
    rwa [hf.insertKept, Nat.min_self] at this
  have hadopt {i : Nat} {p : Block} (hf : ForkAt c first i p) {s₂ : BlockChain}
      (hrun : insert env first (s.cutTo (i + 1)) = .ok true s₂)
      (hacc : (upTo c i).Accepts first) :
      Rewrites (mergeKept env c first rest) s (after (insertUntilRejected env rest) s₂) := by
    have hhead := hcut hf
    rw [after_ok hrun] at hhead
    have h₂ := insert_outcome (h.upTo i) first
    rw [hrun] at h₂
    cases h₂ with
    | accepted _ h₂ =>
        rw [← Chain.offer_of_accepts hacc] at h₂
        rw [hfork hf, forkKept, if_pos hacc]
        exact hhead.trans (tail_rewrites rest h₂)
  refine after_merge_cases h first rest ?unprintable ?noAncestor ?rejected ?sameRound ?headRaised
    ?adopted
  case unprintable => exact fun hno => absurd hprints hno
  case noAncestor =>
    intro hno
    rw [mergeKept, if_neg (not_not_intro hprints), if_pos hno, ← h.length]
    exact rewrites_refl s
  case rejected =>
    intro i p hf hno
    rw [hfork hf, forkKept, if_neg hno.not_accepts, if_neg hno.not_raises, ← h.length]
    exact rewrites_refl s
  case sameRound =>
    intro i p w hf hc hround
    rw [hfork hf, forkKept, if_neg (hc.not_accepts fun _ => by omega),
      if_neg (hc.not_raises fun _ => by omega), ← h.length]
    exact rewrites_counted s first.index w
  case headRaised =>
    intro i p hf hr
    rw [hfork hf, forkKept, if_neg hr.not_accepts, if_pos hr]
    exact hcut hf
  case adopted => exact fun i p s₂ hf hrun hacc => hadopt hf hrun hacc

/-! ## Confirmed rows -/

/-- The block with this id is in the table, and confirmed. -/
def Confirmed (rows : List Row) (id : List Char) : Prop :=
  ∃ r ∈ rows, r.id = id ∧ r.confirmed = 1

instance (rows : List Row) (id : List Char) : Decidable (Confirmed rows id) :=
  inferInstanceAs (Decidable (∃ r ∈ rows, _))

/-- A confirmed row is there after a call exactly if it is one of those
the call leaves in place. -/
theorem Rewrites.confirmed_iff {n : Nat} (hrw : Rewrites n s s') (h : Represents env s c) {i : Nat}
    {r : Row} (hr : s.localChains[i]? = some r) (hconf : r.confirmed = 1) :
    Confirmed s'.localChains r.id ↔ i < n := by
  constructor
  · rintro ⟨r', hmem, hid, hconf'⟩
    obtain ⟨j, hj⟩ := List.mem_iff_getElem?.mp hmem
    rcases Nat.lt_or_ge j n with hjn | hjn
    · -- the row found stood there before, with the same id
      have hle := hrw.le
      have hj' := List.getElem?_eq_getElem (l := s.localChains) (i := j) (by omega)
      obtain ⟨r₂, hr₂, hrec⟩ := hrw.below j _ hjn hj'
      obtain rfl := Option.some.inj (hr₂.symm.trans hj)
      have : j = i := by
        refine (List.getElem?_inj (by rw [List.length_map]; omega) h.ids_nodup).mp ?_
        rw [List.getElem?_map, List.getElem?_map, hj', hr, Option.map_some, Option.map_some,
          ← hrec.id_eq, hid]
      omega
    · have := hrw.above j r' hjn hj
      omega
  · intro hi
    obtain ⟨r', hr', hrec⟩ := hrw.below i r hi hr
    exact ⟨r', List.mem_of_getElem? hr', hrec.id_eq, hrec.confirmed_eq.trans hconf⟩

theorem Confirms.eq_of_confirmed (hs : Confirms s s') {i : Nat} {r : Row}
    (hr : s.localChains[i]? = some r) (hconf : r.confirmed = 1) :
    s'.localChains[i]? = some r := by
  obtain ⟨r', hr', rfl | rfl⟩ := hs.getElem? hr
  · exact hr'
  · rw [hr', ← hconf]

/-- One call: a confirmed row survives it exactly if the call does not
reach down to it. -/
theorem step_confirmed_iff (h : Represents env s c) {i : Nat} {r : Row}
    (hr : s.localChains[i]? = some r) (hconf : r.confirmed = 1) (op : Op) :
    Confirmed (step env s op).localChains r.id ↔ i < op.kept env c := by
  have hi := (List.getElem?_eq_some_iff.mp hr).1
  rw [h.length] at hi
  cases op with
  | insert b =>
      rw [step_insert]
      exact (insert_rewrites h b).confirmed_iff h hr hconf
  | merge bs =>
      rw [step_merge]
      cases bs with
      | nil => exact iff_of_true ⟨r, List.mem_of_getElem? hr, rfl, hconf⟩ hi
      | cons first rest => exact (merge_rewrites h first rest).confirmed_iff h hr hconf
  | updateRound fuel =>
      rw [step_updateRound]
      have hs : Confirms s (after (updateRound env fuel) s) := updateRound_confirms fuel s
      exact iff_of_true ⟨r, List.mem_of_getElem? (hs.eq_of_confirmed hr hconf), rfl, hconf⟩ hi

/-- It then is where it was, unchanged. -/
theorem step_getElem? (h : Represents env s c) {i : Nat} {r : Row}
    (hr : s.localChains[i]? = some r) (hconf : r.confirmed = 1) {op : Op}
    (hkept : i < op.kept env c) : (step env s op).localChains[i]? = some r := by
  have hrow {n : Nat} {s' : BlockChain} (hrw : Rewrites n s s') (hi : i < n) :
      s'.localChains[i]? = some r := by
    obtain ⟨r', hr', hrec⟩ := hrw.below i r hi hr
    rwa [hrec.eq_of_confirmed hconf] at hr'
  cases op with
  | insert b =>
      rw [step_insert]
      exact hrow (insert_rewrites h b) hkept
  | merge bs =>
      rw [step_merge]
      cases bs with
      | nil => exact hr
      | cons first rest => exact hrow (merge_rewrites h first rest) hkept
  | updateRound fuel =>
      rw [step_updateRound]
      exact (updateRound_confirms fuel s).eq_of_confirmed hr hconf

/-- In state `s`, the call does not reach down to position `i`. -/
def Op.Spares (env : Env K) (s : BlockChain) (i : Nat) (op : Op) : Prop :=
  ∃ c, Represents env s c ∧ i < op.kept env c

theorem run_confirmed_iff {i : Nat} {r : Row} (hconf : r.confirmed = 1) :
    ∀ (ops : List Op) {s : BlockChain} {c : Chain (rules env)}, Represents env s c →
      s.localChains[i]? = some r →
      ((∀ k ≤ ops.length, Confirmed (run env s (ops.take k)).localChains r.id) ↔
        ∀ (k : Nat) (op : Op), ops[k]? = some op → op.Spares env (run env s (ops.take k)) i)
  | [], s, c, h, hr => by
      refine iff_of_true (fun k hk => ?_) (fun k op hop => by cases hop)
      rw [List.take_nil]
      exact ⟨r, List.mem_of_getElem? hr, rfl, hconf⟩
  | op :: ops, s, c, h, hr => by
      obtain ⟨c', h', -⟩ := step_represents h op
      constructor
      · intro hall
        have hkept := (step_confirmed_iff h hr hconf op).mp (hall 1 (by simp))
        have ih := (run_confirmed_iff hconf ops h' (step_getElem? h hr hconf hkept)).mp
          fun k hk => hall (k + 1) (by simpa using hk)
        intro k op' hop'
        cases k with
        | zero =>
            obtain rfl := Option.some.inj hop'
            exact ⟨c, h, hkept⟩
        | succ k => exact ih k op' hop'
      · intro hall k hk
        cases k with
        | zero => exact ⟨r, List.mem_of_getElem? hr, rfl, hconf⟩
        | succ k =>
            obtain ⟨c₀, h₀, hkept⟩ := hall 0 op rfl
            refine (run_confirmed_iff hconf ops h' (step_getElem? h₀ hr hconf hkept)).mpr
              (fun k op' hop' => hall (k + 1) op' hop') k ?_
            simpa using hk

/-- **Confirmed blocks.** In every reachable state, a confirmed block is
still in the chain and confirmed after each of the calls that follow, if
and only if none of them reaches down to its row. -/
theorem confirmed_iff_kept (h : Reachable env s) {i : Nat} {r : Row}
    (hr : s.localChains[i]? = some r) (hconf : r.confirmed = 1) (ops : List Op) :
    (∀ k ≤ ops.length, Confirmed (run env s (ops.take k)).localChains r.id) ↔
      ∀ (k : Nat) (op : Op), ops[k]? = some op → op.Spares env (run env s (ops.take k)) i := by
  obtain ⟨c, hc⟩ := h.represents
  exact run_confirmed_iff hconf ops hc hr

/-- `a1` is confirmed in round 3, its successors having been counted. -/
def confirmedState : BlockChain :=
  run sampleEnv .init [.insert a1, .insert a2, .insert a3, .updateRound 10]

def confirmedRow : Row := { a1.toRow 0 1 with numSuc := 2 }

theorem confirmedState_reachable : Reachable sampleEnv confirmedState := ⟨.init, _, rfl, rfl⟩

/-- `b1` takes the place of the confirmed row. -/
theorem confirmedState_rows :
    confirmedState.localChains[1]? = some confirmedRow ∧
      Confirmed confirmedState.localChains (hex a1.hash) ∧
      ¬Confirmed (run sampleEnv confirmedState [.insert b1]).localChains (hex a1.hash) := by
  decide +kernel

theorem confirmed_iff_kept_a1 :
    (∀ k ≤ 2, Confirmed (run sampleEnv confirmedState
        ([.insert b2, .merge [a3]].take k)).localChains confirmedRow.id) ↔
      ∀ (k : Nat) (op : Op), [Op.insert b2, .merge [a3]][k]? = some op →
        op.Spares sampleEnv (run sampleEnv confirmedState
          ([.insert b2, .merge [a3]].take k)) 1 :=
  confirmed_iff_kept confirmedState_reachable confirmedState_rows.1 rfl [.insert b2, .merge [a3]]

/-- A confirmed block is replaced by its sibling. -/
theorem confirmed_block_replaced :
    Reachable sampleEnv confirmedState ∧ Confirmed confirmedState.localChains (hex a1.hash) ∧
      ¬Confirmed (run sampleEnv confirmedState [.insert b1]).localChains (hex a1.hash) :=
  ⟨confirmedState_reachable, confirmedState_rows.2⟩

end Cpos
