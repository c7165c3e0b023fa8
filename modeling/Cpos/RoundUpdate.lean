import Cpos.ConfirmationOrder
import Cpos.Thresholds

/-!
# When update_round returns

`update_round` confirms the oldest unconfirmed row and fetches the next,
until one is not to be confirmed. It does not ask whether there is a next
one: if every unconfirmed row is to be confirmed, it runs past the end of
the chain and unpacks a row that is not there. That needs a count on the
last row, and a block that `insert` counts and then rejects leaves one
(`update_round_raises`).

Nothing else can go wrong in exact arithmetic: both searches for a
threshold end, the average is set whenever the fork check reads it, and
the number of turns is bounded by the number of unconfirmed rows. So
`update_round` returns exactly if there is a row to stop at
(`update_round_returns_iff`).
-/

namespace Cpos

open Python ByteString LinkedChain BlockChain

/-! ## Unconfirmed rows -/

def unconfirmed (rows : List Row) : List Row := rows.filter fun r => r.confirmed = 0

theorem oldest_eq_head? (rows : List Row) : oldest rows = (unconfirmed rows).head? :=
  List.head?_filter.symm

/-- The row satisfies the test of the loop in `update_round`. -/
def confirmable {K : Type} [PyNum K] (env : Env K) (round : Int) (r : Row) : Bool :=
  let deltaR := round - r.round - 1
  deltaR > 0 && r.blockIndex > 0 &&
    match PyNum.truediv (PyNum.ofInt r.numSuc : K) (PyNum.ofInt deltaR),
      confirmationThreshold env.parameters.totalStake.toNat env.parameters.totalStake
        env.parameters.tau deltaR (PyNum.literal 1 1000000 : K) with
    | .ok successfulAvg, .ok confThresh => PyNum.lt (PyNum.ofInt confThresh) successfulAvg
    | _, _ => false

variable {env : Env ℚ} {s : BlockChain} {c : Chain (rules env)}

theorem confirmed_unconfirmed (h : Represents env s c) (ho : Ordered s.localChains) {r : Row}
    {l : List Row} (hl : unconfirmed s.localChains = r :: l) {id : Bytes} (hid : r.id = hex id) :
    unconfirmed (s.confirmed id).localChains = l := by
  have hr : oldest s.localChains = some r := by rw [oldest_eq_head?, hl]; rfl
  obtain ⟨pre, post, hrows, hzero, hpre, hpost⟩ := ho.split hr
  have hnodup := h.ids_nodup
  have hfilter (r' : Row) :
      unconfirmed (pre ++ r' :: post) = unconfirmed [r'] ++ post := by
    rw [unconfirmed, List.filter_append, List.filter_eq_nil_iff.mpr, List.nil_append,
      ← List.singleton_append, List.filter_append,
      List.filter_eq_self (l := post) |>.mpr fun r hr => by simpa using hpost r hr]
    · rfl
    · intro r hr
      simp [hpre r hr]
  rw [BlockChain.confirmed]
  simp only
  rw [hrows] at hnodup hl ⊢
  rw [map_confirm hid hnodup, hfilter]
  rw [hfilter] at hl
  have hone : unconfirmed [r] = [r] := by simp [unconfirmed, hzero]
  have hnone : unconfirmed [{ r with confirmed := 1 }] = [] := by simp [unconfirmed]
  rw [hone] at hl
  rw [hnone]
  exact List.tail_eq_of_cons_eq hl

/-! ## The loop -/

section Loop

variable (round last : Int) {thresholdFuel : Nat}
  (hstake : 1 ≤ env.parameters.totalStake)
  (hfuel : env.parameters.totalStake.toNat ≤ thresholdFuel)

/-- What the fork check relies on. -/
def RoundLocals.Assigned (locals : RoundLocals ℚ) : Prop :=
  locals.deltaR > 0 ∧ locals.oldestIndex > 0 → locals.successfulAvg.isSome

include hstake hfuel

/-- One turn: the row is confirmed, or the loop ends. -/
theorem confirmLoop_turn (h : Represents env s c) (ho : Ordered s.localChains) {r : Row}
    {l : List Row} (hl : unconfirmed s.localChains = r :: l) (fuel : Nat) (avg : Option ℚ) :
    (confirmable env round r = true → ∃ avg' s', Represents env s' c ∧ Ordered s'.localChains ∧
      unconfirmed s'.localChains = l ∧
      confirmLoop env round last thresholdFuel avg (fuel + 1) s
        = confirmLoop env round last thresholdFuel avg' fuel s') ∧
    (confirmable env round r = false → ∃ locals : RoundLocals ℚ, locals.Assigned ∧
      confirmLoop env round last thresholdFuel avg (fuel + 1) s = .ok locals s) := by
  have hr : oldest s.localChains = some r := by rw [oldest_eq_head?, hl]; rfl
  obtain ⟨id, hid, hrun⟩ := run_oldestUnconfirmedBlock h hr
  rw [confirmLoop, bind_ok hrun]
  simp only
  by_cases hdelta : round - r.round - 1 > 0 ∧ r.blockIndex > 0
  swap
  · rw [if_neg hdelta]
    refine ⟨fun hconf => absurd ?_ hdelta, fun _ => ⟨_, fun hpos => absurd hpos hdelta, rfl⟩⟩
    simp only [confirmable, Bool.and_eq_true, decide_eq_true_eq] at hconf
    exact hconf.1
  have hne : round - r.round - 1 ≠ 0 := by omega
  have hthresholdPos : (0 : ℚ) ≤ PyNum.literal 1 1000000 := by
    show (0 : ℚ) ≤ mkRat 1 1000000
    exact Rat.mkRat_nonneg (by decide) _
  obtain ⟨t, ht⟩ : ∃ t, confirmationThreshold env.parameters.totalStake.toNat
      env.parameters.totalStake env.parameters.tau (round - r.round - 1)
      (PyNum.literal 1 1000000 : ℚ) = .ok t :=
    confirmationThreshold_ok hstake hdelta.1 hthresholdPos (le_refl _)
  have ht' := confirmationThreshold_mono hfuel ht
  rw [if_pos hdelta, truediv_rat hne, bind_ok (eval_ok _), ht', bind_ok (eval_ok t)]
  have hconfirmable : confirmable env round r
      = PyNum.lt (PyNum.ofInt t) ((r.numSuc : ℚ) / (round - r.round - 1 : Int)) := by
    rw [confirmable]
    simp only [truediv_rat hne, ht]
    rw [decide_eq_true hdelta.1, decide_eq_true hdelta.2]
    rfl
  rw [hconfirmable]
  by_cases hlt : PyNum.lt (PyNum.ofInt t) ((r.numSuc : ℚ) / (round - r.round - 1 : Int)) = true
  · rw [if_pos hlt]
    refine ⟨fun _ => ?_, fun hfalse => absurd (hlt.symm.trans hfalse) (by simp)⟩
    let s' : BlockChain := { s.confirmed id with
      confirmationDelays := s.confirmationDelays
        ++ [(id, r.blockIndex, s.currentRound - r.round)]
      lastConfirmationDelay := s.currentRound - last }
    exact ⟨_, s', h.confirms (confirmed_confirms s id), confirmed_ordered h ho hr hid,
      confirmed_unconfirmed h ho hl hid, rfl⟩
  · rw [if_neg hlt]
    exact ⟨fun htrue => absurd htrue hlt, fun _ => ⟨_, fun _ => rfl, rfl⟩⟩

/-- The loop ends at the first row that is not to be confirmed. -/
theorem confirmLoop_returns {l : List Row} {fuel : Nat} (avg : Option ℚ) (h : Represents env s c)
    (ho : Ordered s.localChains) (hl : unconfirmed s.localChains = l) (hlen : l.length < fuel)
    (hstop : ∃ r ∈ l, confirmable env round r = false) :
    ∃ locals s', locals.Assigned ∧
      confirmLoop env round last thresholdFuel avg fuel s = .ok locals s' := by
  induction l generalizing s fuel avg with
  | nil =>
      obtain ⟨r, hr, -⟩ := hstop
      cases hr
  | cons r l ih =>
      rw [List.length_cons] at hlen
      obtain ⟨fuel, rfl⟩ : ∃ m, fuel = m + 1 := ⟨fuel - 1, by omega⟩
      obtain ⟨hnext, hend⟩ := confirmLoop_turn round last hstake hfuel h ho hl fuel avg
      cases hconf : confirmable env round r with
      | false =>
          obtain ⟨locals, hassigned, hrun⟩ := hend hconf
          exact ⟨locals, s, hassigned, hrun⟩
      | true =>
          obtain ⟨avg', s', h', ho', hl', hrun⟩ := hnext hconf
          rw [hrun]
          refine ih avg' h' ho' hl' (by omega) ?_
          obtain ⟨r', hr', hfalse⟩ := hstop
          rcases List.mem_cons.mp hr' with rfl | hr'
          · rw [hconf] at hfalse
            cases hfalse
          · exact ⟨r', hr', hfalse⟩

/-- Where every row is to be confirmed the loop runs past the last. -/
theorem confirmLoop_raises {l : List Row} {fuel : Nat} (avg : Option ℚ) (h : Represents env s c)
    (ho : Ordered s.localChains) (hl : unconfirmed s.localChains = l) (hlen : l.length < fuel)
    (hall : ∀ r ∈ l, confirmable env round r = true) :
    ∃ s', confirmLoop env round last thresholdFuel avg fuel s = .error .typeError s' := by
  induction l generalizing s fuel avg with
  | nil =>
      obtain ⟨fuel, rfl⟩ : ∃ m, fuel = m + 1 := ⟨fuel - 1, by simp at hlen; omega⟩
      have hnone : oldest s.localChains = none := by rw [oldest_eq_head?, hl]; rfl
      exact ⟨s, by rw [confirmLoop, bind_error (run_oldestUnconfirmedBlock_none hnone)]⟩
  | cons r l ih =>
      rw [List.length_cons] at hlen
      obtain ⟨fuel, rfl⟩ : ∃ m, fuel = m + 1 := ⟨fuel - 1, by omega⟩
      obtain ⟨hnext, -⟩ := confirmLoop_turn round last hstake hfuel h ho hl fuel avg
      obtain ⟨avg', s', h', ho', hl', hrun⟩ := hnext (hall r (List.mem_cons_self ..))
      rw [hrun]
      exact ih avg' h' ho' hl' (by omega) fun r' hr' => hall r' (List.mem_cons_of_mem _ hr')

end Loop

/-- The fork check returns when the average it may read is set. -/
theorem detectFork_returns {thresholdFuel : Nat} {locals : RoundLocals ℚ}
    (hstake : 1 ≤ env.parameters.totalStake) (htau : 0 ≤ env.parameters.tau)
    (hfuel : env.parameters.tau.toNat < thresholdFuel) (hassigned : locals.Assigned)
    (s : BlockChain) : ∃ s', detectFork env thresholdFuel locals s = .ok () s' := by
  unfold detectFork
  by_cases hpos : locals.deltaR > 0 ∧ locals.oldestIndex > 0
  swap
  · rw [if_neg hpos]
    exact ⟨s, rfl⟩
  have hthreshold : (PyNum.literal 95 100 : ℚ) ≤ 1 := by
    show mkRat 95 100 ≤ 1
    decide +kernel
  obtain ⟨t, ht⟩ := forkThreshold_ok hstake htau hpos.1 hthreshold hfuel
  obtain ⟨avg, havg⟩ := Option.isSome_iff_exists.mp (hassigned hpos)
  rw [if_pos hpos, ht, bind_ok (eval_ok t), havg]
  simp only
  split
  · exact ⟨_, rfl⟩
  · exact ⟨_, rfl⟩

/-! ## The whole call -/

/-- The round has changed, and every row not yet confirmed, at least one,
is to be confirmed. -/
def RunsPastEnd (env : Env ℚ) (s : BlockChain) (round : Int) : Prop :=
  s.currentRound ≠ round ∧ unconfirmed s.localChains ≠ [] ∧
    ∀ r ∈ unconfirmed s.localChains, confirmable env round r = true

theorem roundAt_rat (hround : env.parameters.roundTime ≠ 0) (k : Nat) :
    ∃ round, roundAt env k = .ok round := by
  unfold roundAt
  show ∃ round, ((if env.parameters.roundTime = 0 then _ else _ : Except PyErr ℚ) >>= _) = _
  rw [if_neg hround]
  exact ⟨_, rfl⟩

theorem roundAt_zero (hround : env.parameters.roundTime = 0) (k : Nat) :
    roundAt env k = .error .zeroDivisionError := by
  unfold roundAt
  show ((if env.parameters.roundTime = 0 then _ else _ : Except PyErr ℚ) >>= _) = _
  rw [if_pos hround]
  rfl

/-- With rows left to confirm: exactly if one of them is not to be
confirmed. -/
theorem returned_updateRound_of_unconfirmed (h : Represents env s c) (ho : Ordered s.localChains)
    (hstake : 1 ≤ env.parameters.totalStake) (htau : 0 ≤ env.parameters.tau) {fuel : Nat}
    (hfuel : s.localChains.length + env.parameters.totalStake.toNat + env.parameters.tau.toNat
      < fuel) {round : Int} (hround : roundAt env s.clock = .ok round)
    (hne : s.currentRound ≠ round) (hl : unconfirmed s.localChains ≠ []) :
    returned (updateRound env fuel) s = some () ↔
      ∃ r ∈ unconfirmed s.localChains, confirmable env round r = false := by
  obtain ⟨r, l, hcons⟩ := List.exists_cons_of_ne_nil hl
  have holdest : oldest s.localChains = some r := by rw [oldest_eq_head?, hcons]; rfl
  obtain ⟨last, hrun⟩ := run_updateRound_of_some h ho hround hne holdest fuel
  let s₁ := s.ticked.inRound round
  have h₁ : Represents env s₁ c := ⟨h.rows, h.genesis, h.arrived⟩
  have hlen : (unconfirmed s.localChains).length < fuel := by
    have hle : (unconfirmed s.localChains).length ≤ s.localChains.length :=
      List.length_filter_le ..
    omega
  by_cases hstop : ∃ r ∈ unconfirmed s.localChains, confirmable env round r = false
  · obtain ⟨locals, s', hassigned, hloop⟩ := confirmLoop_returns round last hstake
      (by omega : _ ≤ fuel) none h₁ ho rfl hlen hstop
    obtain ⟨s'', hfork⟩ := detectFork_returns hstake htau
      (by omega : env.parameters.tau.toNat < fuel) hassigned s'
    refine iff_of_true ?_ hstop
    rw [returned, hrun, bind_ok hloop, hfork]
  · have hall : ∀ r ∈ unconfirmed s.localChains, confirmable env round r = true := by
      push Not at hstop
      simpa using hstop
    obtain ⟨s', hloop⟩ := confirmLoop_raises round last hstake (by omega : _ ≤ fuel) none h₁
      ho rfl hlen hall
    refine iff_of_false ?_ hstop
    rw [returned, hrun, bind_error hloop]
    simp

/-- **When update_round returns.** In every reachable state, with a
positive stake and a `tau` that is not negative, and loops that are given
the turns they need: exactly if the round time is not zero and the loop
does not run past the end of the chain. -/
theorem update_round_returns_iff (h : Reachable env s) (hstake : 1 ≤ env.parameters.totalStake)
    (htau : 0 ≤ env.parameters.tau) {fuel : Nat}
    (hfuel : s.localChains.length + env.parameters.totalStake.toNat + env.parameters.tau.toNat
      < fuel) :
    returned (updateRound env fuel) s = some () ↔
      env.parameters.roundTime ≠ 0 ∧
        ∀ round, roundAt env s.clock = .ok round → ¬RunsPastEnd env s round := by
  by_cases htime : env.parameters.roundTime = 0
  · rw [returned_error (run_updateRound_error (roundAt_zero htime _) fuel)]
    exact iff_of_false (by simp) fun hno => hno.1 htime
  obtain ⟨round, hround⟩ := roundAt_rat htime s.clock
  have hpast : (env.parameters.roundTime ≠ 0 ∧
      ∀ round, roundAt env s.clock = .ok round → ¬RunsPastEnd env s round)
      ↔ ¬RunsPastEnd env s round := by
    refine ⟨fun hno => hno.2 round hround, fun hno => ⟨htime, fun round' hround' => ?_⟩⟩
    rw [Except.ok.inj (hround'.symm.trans hround)]
    exact hno
  rw [hpast]
  obtain ⟨c, hc⟩ := h.represents
  have ho := h.ordered
  by_cases hsame : s.currentRound = round
  · have hrun := run_updateRound hround fuel
    rw [if_pos hsame] at hrun
    exact iff_of_true (returned_ok hrun) fun hrunsPast => hrunsPast.1 hsame
  by_cases hl : unconfirmed s.localChains = []
  · have hnone : oldest s.localChains = none := by rw [oldest_eq_head?, hl]; rfl
    obtain ⟨s', hrun, -⟩ := run_updateRound_of_none hc ho hround hnone fuel
    exact iff_of_true (returned_ok hrun) fun hrunsPast => hrunsPast.2.1 hl
  rw [returned_updateRound_of_unconfirmed hc ho hstake htau hfuel hround hsame hl, RunsPastEnd,
    and_iff_right hsame, and_iff_right hl, not_forall]
  refine exists_congr fun r => ?_
  rw [Classical.not_imp, Bool.not_eq_true]

/-- A child of `a1` in the round of `a1`. -/
def aRush : Block := sampleBlock a1.hash alice 1 2
  0x60a991eebdf07b1df36de10f3120ed4adba77c9845e72e531170b9ead21fed70d666c3abffa5b57ebbea02bf2bfb062e70a34d741fa1a68abe22c1f70e82ff0f
  0x502f3bb14c5affa7a4c65aae44723344e3e8624943661017db6960ef81865ff5
  0x8ea56d514019db4b0a422ee18bda1f2ff77f4f86663e3c68ac979373e05e0a83
  0xb13b824b05f9433efef894a135c8e4cfcae63dc790062fd2b358ddd8a17694e1

def bRush : Block := sampleBlock a1.hash bob 1 2
  0xbf46b423f8c9c6d04db77444273edbd669d8278cf47a9e2fc6599a937d0415815bdb9956d389573fcfaea55827ad76adab3d846984dc47fbb55b157c5d6eac0f
  0xe9e4ddfd971119bbf02f859e7650dbbede2ab2d46d784cf760462a1be4c8c3c6
  0x9473f853a4458e44a3ca735395247be730324da6d697b139ec1eff41db66712f
  0xedfa3e45131c1b507554e4cfc730c69991e148c3004a3245c0bf1505ab8b815e

/-- The clock of the sample network, and two blocks that come too early
for their parent. -/
def rushEnv : Env ℚ := { sampleEnv with
  verify := fun key signature message =>
    [a1, aRush, bRush].any fun b =>
      b.ownerPubkey = key && b.signedNodeHash = signature && b.nodeHash = message }

/-- Round 2, both blocks having been counted for `a1` and rejected. -/
def rushState : BlockChain :=
  run rushEnv .init
    [.insert a1, .insert aRush, .insert bRush, .updateRound 10, .updateRound 10]

theorem rushState_reachable : Reachable rushEnv rushState := ⟨.init, _, rfl, rfl⟩

theorem rushState_update :
    rushState.localChains.length + rushEnv.parameters.totalStake.toNat
        + rushEnv.parameters.tau.toNat < 10 ∧
      rushState.localChains.map Row.numSuc = [0, 2] ∧
      raised (updateRound rushEnv 10) rushState = some .typeError ∧
      (after (updateRound rushEnv 10) rushState).localChains.map Row.confirmed = [1, 1] := by
  decide +kernel

theorem update_round_returns_iff_rush :
    returned (updateRound rushEnv 10) rushState = some () ↔
      rushEnv.parameters.roundTime ≠ 0 ∧
        ∀ round, roundAt rushEnv rushState.clock = .ok round →
          ¬RunsPastEnd rushEnv rushState round :=
  update_round_returns_iff rushState_reachable (by decide) (by decide) rushState_update.1

/-- In round 3 the last row, `a1`, is confirmed and the next is looked
for. -/
theorem update_round_raises :
    Reachable rushEnv rushState ∧ rushState.localChains.map Row.numSuc = [0, 2] ∧
      raised (updateRound rushEnv 10) rushState = some .typeError ∧
      (after (updateRound rushEnv 10) rushState).localChains.map Row.confirmed = [1, 1] :=
  ⟨rushState_reachable, rushState_update.2⟩

end Cpos
