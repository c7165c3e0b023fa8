import Cpos.Run

/-!
# The order of confirmation

`update_round` confirms the oldest unconfirmed row, again and again;
`insert` adds winning tickets to the unconfirmed rows below an index, and
both `insert` and `merge` delete suffixes. So the confirmed rows are a
prefix of the table, and along the others the counts do not increase
(`Ordered`, `reachable_ordered`).

Counting, cutting and storing keep this order whatever the blocks are,
and so do the calls made of them: `merge_keeps` is the rule that reduces
`merge` to these three. For `update_round` the order itself says which
row is found: the first after the confirmed prefix
(`run_oldestUnconfirmedBlock`).
-/

namespace Cpos

open Python ByteString LinkedChain BlockChain

variable {K : Type} [PyNum K] {env : Env K} {s : BlockChain} {c : Chain (rules env)}
  {rows : List Row}

/-! ## What merge keeps -/

section Merge

variable {P : BlockChain → Prop}
  (hcut : ∀ {s : BlockChain} {c : Chain (rules env)} (i : Nat), Represents env s c → P s →
    P (s.cutTo (i + 1)))
  (hcounted : ∀ {s : BlockChain} {c : Chain (rules env)} {i w : Int}, Represents env s c →
    0 ≤ w → P s → P (s.counted i w))
  (hinsert : ∀ {s : BlockChain} {c : Chain (rules env)} (b : Block), Represents env s c → P s →
    P (after (insert env b) s))
include hinsert

theorem tail_keeps (bs : List Block) (h : Represents env s c) (hs : P s) :
    P (after (insertUntilRejected env bs) s) := by
  induction bs generalizing s c with
  | nil => exact hs
  | cons b bs ih =>
      obtain ⟨c', h', -⟩ := insert_represents h b
      have hs' := hinsert b h hs
      rw [insertUntilRejected]
      cases hrun : insert env b s with
      | ok r s' =>
          rw [after_ok hrun] at h' hs'
          rw [after, bind_ok hrun]
          cases r with
          | true => exact ih h' hs'
          | false => exact hs'
      | error e s' =>
          rw [after_error hrun] at hs'
          rw [after, bind_error hrun]
          exact hs'

include hcut hcounted

/-- What cutting, counting and inserting keep, `merge` keeps. -/
theorem merge_keeps (bs : List Block) (h : Represents env s c) (hs : P s) :
    P (after (merge env bs) s) := by
  cases bs with
  | nil => exact hs
  | cons first rest =>
      have htail {i : Nat} {s₂ : BlockChain}
          (hrun : insert env first (s.cutTo (i + 1)) = .ok true s₂) :
          P (after (insertUntilRejected env rest) s₂) := by
        obtain ⟨c₂, h₂, -⟩ := insert_represents (h.upTo i) first
        have hs₂ := hinsert first (h.upTo i) (hcut i h hs)
        rw [after_ok hrun] at h₂ hs₂
        exact tail_keeps hinsert rest h₂ hs₂
      refine after_merge_cases h first rest ?unprintable ?noAncestor ?rejected ?sameRound
        ?headRaised ?adopted
      case unprintable => exact fun _ => hs
      case noAncestor => exact fun _ => hs
      case rejected => exact fun _ _ _ _ => hs
      case sameRound => exact fun _ _ w _ hc _ => hcounted h hc.nonneg hs
      case headRaised => exact fun i _ _ _ => hinsert first (h.upTo i) (hcut i h hs)
      case adopted => exact fun _ _ _ _ hrun _ => htail hrun

end Merge

/-! ## Rows in order -/

/-- The flag is set or not, and a count in progress is not negative. -/
structure Row.Sound (r : Row) : Prop where
  flag : r.confirmed = 0 ∨ r.confirmed = 1
  nonneg : r.confirmed = 0 → 0 ≤ r.numSuc

/-- `r` may stand before `r'`: it is confirmed if `r'` is, and has
counted as much while both are not. -/
structure Row.Before (r r' : Row) : Prop where
  confirmed : r'.confirmed = 1 → r.confirmed = 1
  counts : r.confirmed = 0 → r'.confirmed = 0 → r'.numSuc ≤ r.numSuc

structure Ordered (rows : List Row) : Prop where
  sound : ∀ r ∈ rows, r.Sound
  before : rows.Pairwise Row.Before

theorem Row.Sound.count {r : Row} (h : r.Sound) (i : Int) {w : Int} (hw : 0 ≤ w) :
    (r.count i w).Sound := by
  unfold Row.count
  split
  · next hcond =>
    refine ⟨h.flag, fun _ => ?_⟩
    have := h.nonneg hcond.2
    show 0 ≤ r.numSuc + w
    omega
  · exact h

/-- A row is counted where the one after it is. -/
theorem Row.Before.count {r r' : Row} (h : r.Before r') (hlt : r.blockIndex < r'.blockIndex)
    (i : Int) {w : Int} (hw : 0 ≤ w) : (r.count i w).Before (r'.count i w) := by
  obtain ⟨hconf, hcounts⟩ := h
  unfold Row.count
  split
  · next hr =>
    split
    · exact ⟨hconf, fun h₁ h₂ => by have := hcounts h₁ h₂; simpa using this⟩
    · refine ⟨hconf, fun h₁ h₂ => ?_⟩
      have := hcounts h₁ h₂
      show r'.numSuc ≤ r.numSuc + w
      omega
  · next hr =>
    split
    · next hr' =>
      refine ⟨hconf, fun h₁ _ => absurd ⟨?_, h₁⟩ hr⟩
      omega
    · exact ⟨hconf, hcounts⟩

namespace Ordered

theorem count (h : Ordered rows) (hidx : Indexed Row.blockIndex rows) (i : Int) {w : Int}
    (hw : 0 ≤ w) : Ordered (rows.map (Row.count i w)) := by
  constructor
  · intro r' hr'
    obtain ⟨r, hr, rfl⟩ := List.mem_map.mp hr'
    exact (h.sound r hr).count i hw
  · rw [List.pairwise_map]
    exact (h.before.and (pairwise_of_indexed hidx)).imp fun ⟨hb, hlt⟩ => hb.count hlt i hw

theorem take (h : Ordered rows) (n : Nat) : Ordered (rows.take n) where
  sound r hr := h.sound r (List.mem_of_mem_take hr)
  before := h.before.take

/-- A new row counts from zero. -/
theorem append_new (h : Ordered rows) {r : Row} (hflag : r.confirmed = 0) (hcount : r.numSuc = 0) :
    Ordered (rows ++ [r]) := by
  have hr : r.Sound := ⟨.inl hflag, fun _ => by rw [hcount]⟩
  constructor
  · simp only [List.mem_append, List.mem_singleton]
    rintro r' (hr' | rfl)
    · exact h.sound r' hr'
    · exact hr
  · refine List.pairwise_append.mpr ⟨h.before, List.pairwise_singleton _ _, fun r' hr' r₂ hr₂ => ?_⟩
    obtain rfl := List.mem_singleton.mp hr₂
    refine ⟨fun hone => ?_, fun hzero _ => ?_⟩
    · rw [hflag] at hone
      cases hone
    · rw [hcount]
      exact (h.sound r' hr').nonneg hzero

end Ordered

/-! ## Inserting and merging -/

theorem Ordered.counted (h : Represents env s c) (ho : Ordered s.localChains) {i w : Int}
    (hw : 0 ≤ w) : Ordered (s.counted i w).localChains := ho.count h.indexed i hw

theorem insert_ordered (b : Block) (h : Represents env s c) (ho : Ordered s.localChains) :
    Ordered (after (insert env b) s).localChains := by
  refine after_insert_cases (P := fun t => Ordered t.localChains) h b ho ?counted ?stored ?unfit
  case counted => exact fun p w hc => Ordered.counted h ho hc.nonneg
  case stored =>
    exact fun p w hc _ => ((Ordered.counted h ho hc.nonneg).take _).append_new rfl rfl
  case unfit => exact fun p w hc => (Ordered.counted h ho hc.nonneg).take _

theorem merge_ordered (bs : List Block) (h : Represents env s c) (ho : Ordered s.localChains) :
    Ordered (after (merge env bs) s).localChains := by
  refine @merge_keeps _ _ env s c (fun s => Ordered s.localChains) ?_ ?_ ?_ bs h ho
  · intro s c i _ ho
    exact ho.take _
  · intro s c i w h hw ho
    exact Ordered.counted h ho hw
  · intro s c b h ho
    exact insert_ordered b h ho

/-! ## The oldest unconfirmed row -/

/-- The row `update_round` looks at. -/
def oldest (rows : List Row) : Option Row := rows.find? fun r => r.confirmed = 0

/-- The confirmed rows stand before it. -/
theorem Ordered.split (h : Ordered rows) {r : Row} (hr : oldest rows = some r) :
    ∃ pre post, rows = pre ++ r :: post ∧ r.confirmed = 0 ∧ (∀ r' ∈ pre, r'.confirmed = 1) ∧
      ∀ r' ∈ post, r'.confirmed = 0 := by
  obtain ⟨hzero, pre, post, rfl, hpre⟩ := List.find?_eq_some_iff_append.mp hr
  have hflag : r.confirmed = 0 := by simpa using hzero
  refine ⟨pre, post, rfl, hflag, fun r' hr' => ?_, fun r' hr' => ?_⟩
  · have hne : r'.confirmed ≠ 0 := by simpa using hpre r' hr'
    exact (h.sound r' (by simp [hr'])).flag.resolve_left hne
  · have hbefore := (List.pairwise_cons.mp (List.pairwise_append.mp h.before).2.1).1 r' hr'
    rcases (h.sound r' (by simp [hr'])).flag with hzero' | hone
    · exact hzero'
    · have := hbefore.confirmed hone
      omega

theorem Ordered.all_confirmed (h : Ordered rows) (hno : oldest rows = none) :
    ∀ r ∈ rows, r.confirmed = 1 := by
  intro r hr
  have hne : r.confirmed ≠ 0 := by simpa using List.find?_eq_none.mp hno r hr
  exact (h.sound r hr).flag.resolve_left hne

theorem run_oldestUnconfirmedBlock (h : Represents env s c) {r : Row}
    (hr : oldest s.localChains = some r) :
    ∃ id, r.id = hex id ∧
      oldestUnconfirmedBlock s = .ok (r.blockIndex, id, r.numSuc, r.round) s := by
  obtain ⟨i, hi⟩ := List.mem_iff_getElem?.mp (List.mem_of_find?_eq_some hr)
  obtain ⟨b, -, hst⟩ := h.block_at hi
  have hsorted : orderByAsc (s.localChains.filter fun r => r.confirmed = 0)
      = s.localChains.filter fun r => r.confirmed = 0 :=
    List.Pairwise.insertionSort_eq
      (((pairwise_of_indexed h.indexed).filter _).imp fun hlt => le_of_lt hlt)
  refine ⟨b.hash, hst.id, ?_⟩
  rw [oldestUnconfirmedBlock, bind_ok (run_selectWhere ..), hsorted, fetchone, List.head?_filter]
  rw [oldest] at hr
  rw [hr]
  show ((bytesFromHex r.id >>= fun id => pure (r.blockIndex, id, r.numSuc, r.round)) : Call _) s = _
  rw [hst.id, bytesFromHex_hex]
  rfl

/-- There is none once every row is confirmed. -/
theorem run_oldestUnconfirmedBlock_none (hr : oldest s.localChains = none) :
    oldestUnconfirmedBlock s = .error .typeError s := by
  have hnil : s.localChains.filter (fun r => r.confirmed = 0) = [] := by
    rw [List.filter_eq_nil_iff]
    exact List.find?_eq_none.mp hr
  rw [oldestUnconfirmedBlock, bind_ok (run_selectWhere ..), hnil]
  rfl

/-- After `confirm_block`. -/
def BlockChain.confirmed (s : BlockChain) (id : Bytes) : BlockChain :=
  { s with localChains := s.localChains.map (Row.confirm id) }

/-- Of rows with different ids one is confirmed. -/
theorem map_confirm {pre post : List Row} {r : Row} {id : Bytes} (hid : r.id = hex id)
    (hnodup : ((pre ++ r :: post).map Row.id).Nodup) :
    (pre ++ r :: post).map (Row.confirm id) = pre ++ { r with confirmed := 1 } :: post := by
  have hother {l : List Row} (hl : ∀ r' ∈ l, r'.id ≠ r.id) : l.map (Row.confirm id) = l := by
    rw [List.map_congr_left (g := fun r' => r') fun r' hr' => ?_, List.map_id']
    rw [Row.confirm, if_neg (by rw [← hid]; exact hl r' hr')]
  rw [List.map_append, List.map_cons, List.nodup_append, List.nodup_cons] at hnodup
  obtain ⟨-, ⟨hpost, -⟩, hpre⟩ := hnodup
  rw [List.map_append, List.map_cons, hother, hother, Row.confirm, if_pos hid]
  · intro r' hr' heq
    exact hpost (heq ▸ List.mem_map_of_mem hr')
  · intro r' hr' heq
    exact hpre _ (List.mem_map_of_mem hr') _ (List.mem_cons_self ..) heq

/-- Confirming the first unconfirmed row makes the prefix one longer. -/
theorem Ordered.confirm {pre post : List Row} {r : Row} (h : Ordered (pre ++ r :: post))
    (hpre : ∀ r' ∈ pre, r'.confirmed = 1) :
    Ordered (pre ++ { r with confirmed := 1 } :: post) := by
  obtain ⟨hsound, hbefore⟩ := h
  rw [List.pairwise_append, List.pairwise_cons] at hbefore
  obtain ⟨hpp, ⟨hrp, hpost⟩, hcross⟩ := hbefore
  constructor
  · simp only [List.mem_append, List.mem_cons]
    rintro r' (hr' | rfl | hr')
    · exact hsound r' (by simp [hr'])
    · exact ⟨.inr rfl, fun h => by cases h⟩
    · exact hsound r' (by simp [hr'])
  · refine List.pairwise_append.mpr ⟨hpp, List.pairwise_cons.mpr ⟨fun r' hr' => ?_, hpost⟩, ?_⟩
    · exact ⟨fun _ => rfl, fun h => by cases h⟩
    · intro r' hr' r₂ hr₂
      rcases List.mem_cons.mp hr₂ with rfl | hr₂
      · exact ⟨fun _ => hpre r' hr', fun _ h => by cases h⟩
      · exact hcross r' hr' r₂ (List.mem_cons_of_mem _ hr₂)

theorem confirmed_ordered (h : Represents env s c) (ho : Ordered s.localChains) {r : Row}
    (hr : oldest s.localChains = some r) {id : Bytes} (hid : r.id = hex id) :
    Ordered (s.confirmed id).localChains := by
  obtain ⟨pre, post, hrows, -, hpre, -⟩ := ho.split hr
  have hnodup := h.ids_nodup
  rw [BlockChain.confirmed]
  simp only
  rw [hrows] at hnodup ho ⊢
  rw [map_confirm hid hnodup]
  exact ho.confirm hpre

/-! ## Updating the round -/

theorem confirmed_confirms (s : BlockChain) (id : Bytes) : Confirms s (s.confirmed id) :=
  confirmBlock_confirms id s

theorem confirmLoop_ordered (round last : Int) (thresholdFuel fuel : Nat) (avg : Option K)
    (h : Represents env s c) (ho : Ordered s.localChains) :
    Ordered (after (confirmLoop env round last thresholdFuel avg fuel) s).localChains := by
  induction fuel generalizing s avg with
  | zero => exact ho
  | succ fuel ih =>
      rw [confirmLoop]
      cases hr : oldest s.localChains with
      | none =>
          rw [after_bind_error (run_oldestUnconfirmedBlock_none hr)]
          exact ho
      | some r =>
          obtain ⟨id, hid, hrun⟩ := run_oldestUnconfirmedBlock h hr
          rw [after_bind_ok hrun]
          simp only
          split
          swap
          · exact ho
          cases havg : (PyNum.truediv (PyNum.ofInt r.numSuc : K)
              (PyNum.ofInt (round - r.round - 1))) with
          | error e => exact ho
          | ok q =>
              cases hthresh : confirmationThreshold thresholdFuel env.parameters.totalStake
                  env.parameters.tau (round - r.round - 1) (PyNum.literal 1 1000000 : K) with
              | error e =>
                  rw [after_bind_ok (eval_ok q), after_bind_error (eval_error e)]
                  exact ho
              | ok t =>
                  rw [after_bind_ok (eval_ok q), after_bind_ok (eval_ok t)]
                  split
                  · let s' : BlockChain := { s.confirmed id with
                      confirmationDelays := s.confirmationDelays
                        ++ [(id, r.blockIndex, s.currentRound - r.round)]
                      lastConfirmationDelay := s.currentRound - last }
                    have ho' : Ordered s'.localChains := confirmed_ordered h ho hr hid
                    have h' : Represents env s' c := h.confirms (confirmed_confirms s id)
                    exact ih (some q) h' ho'
                  · exact ho

/-- The round of the `k`-th reading of the clock. -/
def roundAt (env : Env K) (k : Nat) : Except PyErr Int := do
  let quotient ← PyNum.truediv (PyNum.sub (env.time k) env.genesisTimestamp)
    env.parameters.roundTime
  PyNum.trunc quotient

/-- After `current_round` is set. -/
def BlockChain.inRound (s : BlockChain) (round : Int) : BlockChain :=
  { s with currentRound := round }

/-- The last confirmed row, where `l` are the confirmed ones. -/
theorem run_lastConfirmedBlockInfo (h : Represents env s c) {l : List Row} {r : Row}
    (hl : s.localChains.filter (fun r => r.confirmed = 1) = l) (hr : l.getLast? = some r) :
    ∃ id, r.id = hex id ∧ lastConfirmedBlockInfo s = .ok (r.blockIndex, id, r.round) s := by
  have hmem : r ∈ s.localChains := by
    rw [← hl] at hr
    exact List.mem_of_mem_filter (List.mem_of_getLast? hr)
  obtain ⟨i, hi⟩ := List.mem_iff_getElem?.mp hmem
  obtain ⟨b, -, hst⟩ := h.block_at hi
  have hsorted : l.Pairwise fun r r' => r.blockIndex < r'.blockIndex := by
    rw [← hl]
    exact (pairwise_of_indexed h.indexed).filter _
  refine ⟨b.hash, hst.id, ?_⟩
  rw [lastConfirmedBlockInfo, bind_ok (run_selectWhere ..), hl, orderByDesc_eq_reverse hsorted,
    fetchone, List.head?_reverse, hr]
  show ((bytesFromHex r.id >>= fun id => pure (r.blockIndex, id, r.round)) : Call _) s = _
  rw [hst.id, bytesFromHex_hex]
  rfl

section Round

variable {round : Int}

theorem run_updateRound_error {e : PyErr} (hround : roundAt env s.clock = .error e) (fuel : Nat) :
    updateRound env fuel s = .error e s.ticked := by
  rw [updateRound, bind_ok (run_time s)]
  unfold roundAt at hround
  cases hq : PyNum.truediv (PyNum.sub (env.time s.clock) env.genesisTimestamp)
      env.parameters.roundTime with
  | error e' =>
      rw [hq] at hround
      cases hround
      rw [bind_error (eval_error e)]
  | ok q =>
      rw [hq] at hround
      have htrunc : PyNum.trunc q = .error e := hround
      rw [bind_ok (eval_ok q), htrunc, bind_error (eval_error e)]

/-- `update_round` once the round is known. -/
theorem run_updateRound (hround : roundAt env s.clock = .ok round) (fuel : Nat) :
    updateRound env fuel s = if s.currentRound = round then .ok () s.ticked
      else (lastConfirmedBlockInfo >>= fun info => lastBlockId >>= fun lastId =>
        if info.2.1 = lastId then pure ()
        else confirmLoop env round info.2.2 fuel none fuel >>= detectFork env fuel : Call Unit)
          (s.ticked.inRound round) := by
  rw [updateRound, bind_ok (run_time s)]
  obtain ⟨q, hq, htrunc⟩ := except_bind_ok hround
  rw [hq, bind_ok (eval_ok q), htrunc, bind_ok (eval_ok round)]
  show (if s.currentRound = round then _ else _ : Call Unit) s.ticked = _
  split <;> rfl

variable (h : Represents env s c) (ho : Ordered s.localChains)
include h ho

/-- Nothing is left to confirm: the last confirmed row is the last row. -/
theorem run_updateRound_of_none (hround : roundAt env s.clock = .ok round)
    (hno : oldest s.localChains = none) (fuel : Nat) :
    ∃ s', updateRound env fuel s = .ok () s' ∧ s'.localChains = s.localChains := by
  rw [run_updateRound hround]
  split
  · exact ⟨_, rfl, rfl⟩
  let s₁ := s.ticked.inRound round
  have h₁ : Represents env s₁ c := ⟨h.rows, h.genesis, h.arrived⟩
  obtain ⟨tip, htip⟩ := c.exists_tip
  obtain ⟨r, hr, hst⟩ := h₁.row_last htip
  have hall : s₁.localChains.filter (fun r => r.confirmed = 1) = s₁.localChains :=
    List.filter_eq_self.mpr fun r hr => by simpa using ho.all_confirmed hno r hr
  obtain ⟨id, hid, hrun⟩ := run_lastConfirmedBlockInfo h₁ hall hr
  obtain rfl : id = tip.hash := hex_inj.mp (hid.symm.trans hst.id)
  rw [bind_ok hrun, bind_ok (h₁.run_lastBlockId htip), if_pos rfl]
  exact ⟨s₁, rfl, rfl⟩

/-- Otherwise the loop runs. -/
theorem run_updateRound_of_some (hround : roundAt env s.clock = .ok round)
    (hne : s.currentRound ≠ round) {r : Row} (hr : oldest s.localChains = some r) (fuel : Nat) :
    ∃ last, updateRound env fuel s
      = (confirmLoop env round last fuel none fuel >>= detectFork env fuel)
          (s.ticked.inRound round) := by
  rw [run_updateRound hround, if_neg hne]
  let s₁ := s.ticked.inRound round
  have h₁ : Represents env s₁ c := ⟨h.rows, h.genesis, h.arrived⟩
  obtain ⟨tip, htip⟩ := c.exists_tip
  obtain ⟨tipRow, htipRow, htipSt⟩ := h₁.row_last htip
  obtain ⟨pre, post, hrows, hzero, hpre, hpost⟩ := ho.split hr
  have hfilter : s₁.localChains.filter (fun r => r.confirmed = 1) = pre := by
    show s.localChains.filter _ = pre
    rw [hrows, List.filter_append, List.filter_eq_self.mpr, List.filter_eq_nil_iff.mpr,
      List.append_nil]
    · intro r' hr'
      rcases List.mem_cons.mp hr' with rfl | hr'
      · simp [hzero]
      · simp [hpost r' hr']
    · intro r' hr'
      simp [hpre r' hr']
  -- the genesis row is confirmed
  obtain ⟨l, hl⟩ : ∃ l, pre.getLast? = some l := by
    cases pre with
    | nil =>
        have hgen := h.genesis
        rw [hrows] at hgen
        obtain rfl := Option.some.inj hgen
        cases hzero
    | cons r' pre => exact ⟨_, List.getLast?_eq_some_getLast (List.cons_ne_nil r' pre)⟩
  obtain ⟨id, hid, hrun⟩ := run_lastConfirmedBlockInfo h₁ hfilter hl
  have hids : id ≠ tip.hash := by
    intro heq
    have hsame : l.id = tipRow.id := by rw [hid, heq, htipSt.id]
    have htipMem : tipRow ∈ r :: post := by
      have hlast : (pre ++ r :: post).getLast? = some tipRow := hrows ▸ htipRow
      rw [List.getLast?_append_cons] at hlast
      exact List.mem_of_getLast? hlast
    have hnodup := h.ids_nodup
    rw [hrows, List.map_append, List.nodup_append] at hnodup
    exact hnodup.2.2 _ (List.mem_map_of_mem (List.mem_of_getLast? hl)) _
      (List.mem_map_of_mem htipMem) hsame
  refine ⟨l.round, ?_⟩
  rw [bind_ok hrun, bind_ok (h₁.run_lastBlockId htip), if_neg hids]

end Round

/-- The fork check leaves the table alone. -/
theorem detectFork_rows (thresholdFuel : Nat) (locals : RoundLocals K) (s : BlockChain) :
    (after (detectFork env thresholdFuel locals) s).localChains = s.localChains := by
  unfold detectFork
  split
  swap
  · rfl
  cases hthresh : forkThreshold thresholdFuel env.parameters.totalStake env.parameters.tau
      locals.deltaR (PyNum.literal 95 100 : K) with
  | error e => rw [after_bind_error (eval_error e)]
  | ok t =>
      rw [after_bind_ok (eval_ok t)]
      split
      · rfl
      · split <;> rfl

theorem updateRound_ordered (fuel : Nat) (h : Represents env s c) (ho : Ordered s.localChains) :
    Ordered (after (updateRound env fuel) s).localChains := by
  cases hround : roundAt env s.clock with
  | error e =>
      rw [after_error (run_updateRound_error hround fuel)]
      exact ho
  | ok round =>
      by_cases hsame : s.currentRound = round
      · have hrun := run_updateRound hround fuel
        rw [if_pos hsame] at hrun
        rw [after_ok hrun]
        exact ho
      cases hr : oldest s.localChains with
      | none =>
          obtain ⟨s', hrun, hrows⟩ := run_updateRound_of_none h ho hround hr fuel
          rw [after_ok hrun, hrows]
          exact ho
      | some r =>
          obtain ⟨last, hrun⟩ := run_updateRound_of_some h ho hround hsame hr fuel
          let s₁ := s.ticked.inRound round
          have h₁ : Represents env s₁ c := ⟨h.rows, h.genesis, h.arrived⟩
          have hloop := confirmLoop_ordered (s := s₁) round last fuel fuel none h₁ ho
          rw [after, hrun, ← after]
          cases hconfirm : confirmLoop env round last fuel none fuel s₁ with
          | error e s₂ =>
              rw [after_error hconfirm] at hloop
              rw [after_bind_error hconfirm]
              exact hloop
          | ok locals s₂ =>
              rw [after_ok hconfirm] at hloop
              rw [after_bind_ok hconfirm, detectFork_rows]
              exact hloop

/-! ## Over runs -/

theorem step_ordered (h : Represents env s c) (ho : Ordered s.localChains) (op : Op) :
    Ordered (step env s op).localChains := by
  cases op with
  | insert b => rw [step_insert]; exact insert_ordered b h ho
  | merge bs => rw [step_merge]; exact merge_ordered bs h ho
  | updateRound fuel => rw [step_updateRound]; exact updateRound_ordered fuel h ho

theorem run_ordered (ops : List Op) (h : Represents env s c) (ho : Ordered s.localChains) :
    Ordered (run env s ops).localChains := by
  induction ops generalizing s c with
  | nil => exact ho
  | cons op ops ih =>
      obtain ⟨c', h', -⟩ := step_represents h op
      exact ih h' (step_ordered h ho op)

theorem Reachable.ordered (h : Reachable env s) : Ordered s.localChains := by
  obtain ⟨s₀, ops, hs₀, rfl⟩ := h
  refine run_ordered ops (represents_genesis hs₀) ?_
  rw [hs₀]
  refine ⟨fun r hr => ?_, List.pairwise_singleton _ _⟩
  rw [List.mem_singleton.mp hr]
  exact ⟨.inr rfl, fun hzero => by cases hzero⟩

/-- The order, by the indices of the rows. -/
structure ConfirmationOrder (rows : List Row) : Prop where
  flags : ∀ r ∈ rows, r.confirmed = 0 ∨ r.confirmed = 1
  isPrefix : ∀ r ∈ rows, ∀ r' ∈ rows, r.blockIndex < r'.blockIndex → r'.confirmed = 1 →
    r.confirmed = 1
  counts : ∀ r ∈ rows, ∀ r' ∈ rows, r.blockIndex < r'.blockIndex → r.confirmed = 0 →
    r'.confirmed = 0 → r'.numSuc ≤ r.numSuc

theorem Ordered.confirmationOrder (ho : Ordered rows) (hidx : Indexed Row.blockIndex rows) :
    ConfirmationOrder rows := by
  have hbefore (r : Row) (hr : r ∈ rows) (r' : Row) (hr' : r' ∈ rows)
      (hlt : r.blockIndex < r'.blockIndex) : r.Before r' := by
    obtain ⟨i, hi, rfl⟩ := List.mem_iff_getElem.mp hr
    obtain ⟨j, hj, rfl⟩ := List.mem_iff_getElem.mp hr'
    rw [hidx i _ (List.getElem?_eq_getElem hi), hidx j _ (List.getElem?_eq_getElem hj)] at hlt
    exact List.pairwise_iff_getElem.mp ho.before i j hi hj (by omega)
  exact ⟨fun r hr => (ho.sound r hr).flag,
    fun r hr r' hr' hlt => (hbefore r hr r' hr' hlt).confirmed,
    fun r hr r' hr' hlt => (hbefore r hr r' hr' hlt).counts⟩

/-- **Confirmation order.** In every reachable table the confirmed rows
are a prefix, and the counts do not increase along the others. -/
theorem reachable_confirmation_order (h : Reachable env s) :
    ConfirmationOrder s.localChains := by
  obtain ⟨c, hc⟩ := h.represents
  exact h.ordered.confirmationOrder hc.indexed

/-- Two rows are confirmed, a third is stored, counted and replaced. -/
theorem confirmation_order_of_run :
    ConfirmationOrder (run sampleEnv .init
      [.insert a1, .insert b2, .insert a2, .updateRound 10, .insert a3, .merge [b2],
        .updateRound 10, .merge [a2, a3]]).localChains :=
  reachable_confirmation_order ⟨.init, _, rfl, rfl⟩

end Cpos
