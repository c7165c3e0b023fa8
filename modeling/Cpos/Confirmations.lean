import Cpos.RoundUpdate

/-!
# Which rows update_round confirms

In exact arithmetic, a row not yet confirmed *qualifies* in round `r` if
rounds have passed since its own and it has, per such round, more winning
tickets than the confirmation threshold asks for.

The loop of `update_round` asks the table again after each write, with
another number of rounds and another threshold for each row, and the fork
check reads what is left in the locals after it. Yet **a call that
returns** (`update_round_confirms`) confirms the rows that qualify, from
the oldest unconfirmed one up to the first that does not, notes the delay
of each in that order, and reports a fork exactly if that first row has
fewer tickets than the fork threshold asks for. Nothing else in the table
changes.
-/

namespace Cpos

open Python ByteString LinkedChain BlockChain

/-! ## Rows that qualify -/

section Qualifies

variable (env : Env ℚ) (round : Int) (row : Row)

/-- `confirmation_threshold(total_stake, tau, d, 1e-6)` is `t`. -/
def ConfirmationThresholdIs (d t : Int) : Prop :=
  ∃ fuel, confirmationThreshold fuel env.parameters.totalStake env.parameters.tau d
    (PyNum.literal 1 1000000 : ℚ) = .ok t

/-- `fork_threshold(total_stake, tau, d, 0.95)` is `t`. -/
def ForkThresholdIs (d t : Int) : Prop :=
  ∃ fuel, forkThreshold fuel env.parameters.totalStake env.parameters.tau d
    (PyNum.literal 95 100 : ℚ) = .ok t

/-- The winning tickets per round since the row's own. -/
def averageOf : ℚ := row.numSuc / (round - row.round - 1 : Int)

def Qualifies : Prop :=
  0 < round - row.round - 1 ∧
    ∃ t, ConfirmationThresholdIs env (round - row.round - 1) t ∧ (t : ℚ) < averageOf round row

def ForkSeen : Prop :=
  0 < round - row.round - 1 ∧
    ∃ t, ForkThresholdIs env (round - row.round - 1) t ∧ averageOf round row < (t : ℚ)

end Qualifies

section Thresholds

variable {env : Env ℚ} {d t t' : Int}

theorem ConfirmationThresholdIs.unique (h : ConfirmationThresholdIs env d t)
    (h' : ConfirmationThresholdIs env d t') : t = t' := by
  obtain ⟨fuel, ht⟩ := h
  obtain ⟨fuel', ht'⟩ := h'
  have hmax := confirmationThreshold_mono (Nat.le_max_left fuel fuel') ht
  have hmax' := confirmationThreshold_mono (Nat.le_max_right fuel fuel') ht'
  exact Except.ok.inj (hmax.symm.trans hmax')

theorem ForkThresholdIs.unique (h : ForkThresholdIs env d t) (h' : ForkThresholdIs env d t') :
    t = t' := by
  obtain ⟨fuel, ht⟩ := h
  obtain ⟨fuel', ht'⟩ := h'
  have hmax := forkThreshold_mono (Nat.le_max_left fuel fuel') ht
  have hmax' := forkThreshold_mono (Nat.le_max_right fuel fuel') ht'
  exact Except.ok.inj (hmax.symm.trans hmax')

end Thresholds

variable {env : Env ℚ} {s s' : BlockChain} {c : Chain (rules env)} {round : Int}

/-! ## One turn of the loop -/

def Row.asConfirmed (r : Row) : Row := { r with confirmed := 1 }

/-- `[id, block_index, current_round - round]`. -/
def delayEntry (currentRound : Int) (r : Row) : Bytes × Int × Int :=
  ((fromhex r.id).getD [], r.blockIndex, currentRound - r.round)

/-- The genesis row is confirmed. -/
theorem Represents.index_pos (h : Represents env s c) {r : Row} (hr : r ∈ s.localChains)
    (hzero : r.confirmed = 0) : 0 < r.blockIndex := by
  obtain ⟨i, hi⟩ := List.mem_iff_getElem?.mp hr
  rw [h.indexed i r hi]
  cases i with
  | zero =>
      have hgenesis := h.genesis
      rw [List.head?_eq_getElem?, hi] at hgenesis
      obtain rfl := Option.some.inj hgenesis
      cases hzero
  | succ i => omega

/-- The state after a turn that confirms `r`. -/
def BlockChain.confirming (s : BlockChain) (last : Int) (id : Bytes) (r : Row) : BlockChain :=
  { s.confirmed id with
    confirmationDelays := s.confirmationDelays ++ [(id, r.blockIndex, s.currentRound - r.round)]
    lastConfirmationDelay := s.currentRound - last }

/-- What the loop leaves in its locals when it stops at `r`. -/
structure LeftAt (round : Int) (r : Row) (locals : RoundLocals ℚ) : Prop where
  index : locals.oldestIndex = r.blockIndex
  deltaR : locals.deltaR = round - r.round - 1
  average : 0 < round - r.round - 1 → locals.successfulAvg = some (averageOf round r)

/-- A turn of a loop that returns confirms the oldest row, which
qualifies, and goes on; or the row does not, and the loop stops. -/
theorem confirmLoop_turn_ok (h : Represents env s c) {r : Row}
    (hr : oldest s.localChains = some r) {last : Int} {thresholdFuel fuel : Nat} {avg : Option ℚ}
    {locals : RoundLocals ℚ}
    (hrun : confirmLoop env round last thresholdFuel avg (fuel + 1) s = .ok locals s') :
    (Qualifies env round r ∧ ∃ id avg', r.id = hex id ∧
      confirmLoop env round last thresholdFuel avg' fuel (s.confirming last id r) = .ok locals s') ∨
    (¬Qualifies env round r ∧ LeftAt round r locals ∧ s' = s) := by
  obtain ⟨id, hid, holdest⟩ := run_oldestUnconfirmedBlock h hr
  have hzero : r.confirmed = 0 := by simpa using List.find?_some hr
  have hindex := h.index_pos (List.mem_of_find?_eq_some hr) hzero
  rw [confirmLoop, bind_ok holdest] at hrun
  simp only at hrun
  by_cases hdelta : 0 < round - r.round - 1
  swap
  · rw [if_neg fun hpos => hdelta hpos.1] at hrun
    obtain ⟨rfl, rfl⟩ := EStateM.Result.ok.inj hrun
    exact .inr ⟨fun hq => hdelta hq.1, ⟨rfl, rfl, fun hpos => absurd hpos hdelta⟩, rfl⟩
  rw [if_pos ⟨hdelta, hindex⟩, truediv_rat (by omega), bind_ok (eval_ok _)] at hrun
  obtain ⟨t, s₁, hthreshold, hrun⟩ := bind_eq_ok hrun
  obtain ⟨ht, rfl⟩ := eval_eq_ok hthreshold
  have his : ConfirmationThresholdIs env (round - r.round - 1) t := ⟨thresholdFuel, ht⟩
  split at hrun
  · next hlt =>
    have hlt : (t : ℚ) < averageOf round r := of_decide_eq_true hlt
    exact .inl ⟨⟨hdelta, t, his, hlt⟩, id, _, hid, hrun⟩
  · next hge =>
    obtain ⟨rfl, rfl⟩ := EStateM.Result.ok.inj hrun
    refine .inr ⟨?_, ⟨rfl, rfl, fun _ => rfl⟩, rfl⟩
    rintro ⟨-, t', his', hlt⟩
    rw [his'.unique his] at hlt
    exact hge (decide_eq_true hlt)

/-! ## The loop -/

/-- From `s` to `s'` the rows `taken` are confirmed: those that qualify,
from the first unconfirmed one up to `stop`. -/
structure ConfirmsUpTo (env : Env ℚ) (round : Int) (s s' : BlockChain) (front taken : List Row)
    (stop : Row) (rest : List Row) : Prop where
  rows : s.localChains = front ++ taken ++ stop :: rest
  confirmed : ∀ r ∈ front, r.confirmed = 1
  unconfirmed : ∀ r ∈ taken ++ stop :: rest, r.confirmed = 0
  qualify : ∀ r ∈ taken, Qualifies env round r
  stops : ¬Qualifies env round stop
  rows' : s'.localChains = front ++ taken.map Row.asConfirmed ++ stop :: rest
  delays : s'.confirmationDelays = s.confirmationDelays ++ taken.map (delayEntry s.currentRound)

/-- The attributes the loop leaves alone. -/
structure SameAttributes (s s' : BlockChain) : Prop where
  currentRound : s'.currentRound = s.currentRound
  forkDetected : s'.forkDetected = s.forkDetected
  forksDetected : s'.forksDetected = s.forksDetected
  clock : s'.clock = s.clock

theorem oldest_append {front l : List Row} (hfront : ∀ r ∈ front, r.confirmed = 1) :
    oldest (front ++ l) = oldest l := by
  have hnone : oldest front = none :=
    List.find?_eq_none.mpr fun r hr => by simp [hfront r hr]
  rw [oldest] at hnone
  rw [oldest, List.find?_append, hnone]
  rfl

/-- A confirmed row, and the rows after it up to `stop`. -/
theorem ConfirmsUpTo.cons {front taken rest : List Row} {r stop : Row} {last : Int} {id : Bytes}
    (h : ConfirmsUpTo env round (s.confirming last id r) s' (front ++ [r.asConfirmed]) taken stop
      rest)
    (hrows : s.localChains = front ++ r :: (taken ++ stop :: rest))
    (hfront : ∀ r ∈ front, r.confirmed = 1) (hzero : r.confirmed = 0) (hid : r.id = hex id)
    (hq : Qualifies env round r) : ConfirmsUpTo env round s s' front (r :: taken) stop rest where
  rows := by rw [hrows, List.append_assoc, List.cons_append]
  confirmed := hfront
  unconfirmed r' hr' := by
    rcases List.mem_cons.mp hr' with rfl | hr'
    · exact hzero
    · exact h.unconfirmed r' hr'
  qualify r' hr' := by
    rcases List.mem_cons.mp hr' with rfl | hr'
    · exact hq
    · exact h.qualify r' hr'
  stops := h.stops
  rows' := by
    rw [h.rows', List.map_cons, List.append_assoc front, List.singleton_append]
  delays := by
    have hentry : (id, r.blockIndex, s.currentRound - r.round) = delayEntry s.currentRound r := by
      rw [delayEntry, hid, fromhex_hex]
      rfl
    have hdelays := h.delays
    rw [hdelays, List.map_cons, ← hentry]
    show s.confirmationDelays ++ [_] ++ _ = _
    rw [List.append_assoc, List.singleton_append]
    rfl

/-- The run lemma: a loop that returns has confirmed the rows that
qualify up to the first that does not. Induction on the turns. -/
theorem confirmLoop_confirmsUpTo {last : Int} {thresholdFuel : Nat} {locals : RoundLocals ℚ}
    {fuel : Nat} {avg : Option ℚ} {front l : List Row} (h : Represents env s c)
    (hrows : s.localChains = front ++ l) (hfront : ∀ r ∈ front, r.confirmed = 1)
    (hl : ∀ r ∈ l, r.confirmed = 0)
    (hrun : confirmLoop env round last thresholdFuel avg fuel s = .ok locals s') :
    ∃ taken stop rest, ConfirmsUpTo env round s s' front taken stop rest ∧
      LeftAt round stop locals ∧ SameAttributes s s' := by
  induction fuel generalizing s avg front l with
  | zero => cases hrun
  | succ fuel ih =>
      cases l with
      | nil =>
          have hnone : oldest s.localChains = none := by
            rw [hrows, oldest_append hfront]
            rfl
          rw [confirmLoop, bind_error (run_oldestUnconfirmedBlock_none hnone)] at hrun
          cases hrun
      | cons r l =>
          have hzero := hl r (List.mem_cons_self ..)
          have hr : oldest s.localChains = some r := by
            rw [hrows, oldest_append hfront, oldest, List.find?_cons_of_pos (by simpa using hzero)]
          rcases confirmLoop_turn_ok h hr hrun with ⟨hq, id, avg', hid, hrun'⟩ | ⟨hno, hleft, rfl⟩
          · have h' : Represents env (s.confirming last id r) c :=
              h.confirms (confirmed_confirms s id)
            have hnodup := h.ids_nodup
            rw [hrows] at hnodup
            have hrows' : (s.confirming last id r).localChains = front ++ [r.asConfirmed] ++ l := by
              show s.localChains.map (Row.confirm id) = _
              rw [hrows, map_confirm hid hnodup, List.append_assoc]
              rfl
            have hfront' : ∀ r' ∈ front ++ [r.asConfirmed], r'.confirmed = 1 := by
              intro r' hr'
              rcases List.mem_append.mp hr' with hr' | hr'
              · exact hfront r' hr'
              · rw [List.mem_singleton.mp hr']
                rfl
            obtain ⟨taken, stop, rest, hupTo, hleft, hsame⟩ :=
              ih h' hrows' hfront' (fun r' hr' => hl r' (List.mem_cons_of_mem _ hr')) hrun'
            have hl' : l = taken ++ stop :: rest := by
              refine List.append_cancel_left (hrows'.symm.trans (hupTo.rows.trans ?_))
              rw [List.append_assoc]
            refine ⟨r :: taken, stop, rest, hupTo.cons ?_ hfront hzero hid hq, hleft,
              ⟨hsame.currentRound, hsame.forkDetected, hsame.forksDetected, hsame.clock⟩⟩
            rw [hrows, hl']
          · refine ⟨[], r, l, ⟨?_, hfront, hl, by simp, hno, ?_, ?_⟩, hleft, ⟨rfl, rfl, rfl, rfl⟩⟩
            · rw [hrows, List.append_nil]
            · rw [hrows, List.map_nil, List.append_nil]
            · rw [List.map_nil, List.append_nil]

/-! ## The fork check -/

/-- It reads the row the loop stopped at. -/
theorem detectFork_ok {stop : Row} {locals : RoundLocals ℚ} {thresholdFuel : Nat}
    (hleft : LeftAt round stop locals) (hindex : 0 < stop.blockIndex)
    (hrun : detectFork env thresholdFuel locals s = .ok () s') :
    (ForkSeen env round stop ∧
        s' = { s with forkDetected := true, forksDetected := s.forksDetected + 1 }) ∨
      (¬ForkSeen env round stop ∧ s' = s) := by
  obtain ⟨hindex', hdelta', haverage⟩ := hleft
  rw [detectFork, hindex', hdelta'] at hrun
  by_cases hdelta : 0 < round - stop.round - 1
  swap
  · rw [if_neg fun hpos => hdelta hpos.1] at hrun
    exact .inr ⟨fun hseen => hdelta hseen.1, (EStateM.Result.ok.inj hrun).2.symm⟩
  rw [if_pos ⟨hdelta, hindex⟩] at hrun
  obtain ⟨t, s₁, hthreshold, hrun⟩ := bind_eq_ok hrun
  obtain ⟨ht, rfl⟩ := eval_eq_ok hthreshold
  have his : ForkThresholdIs env (round - stop.round - 1) t := ⟨thresholdFuel, ht⟩
  rw [haverage hdelta] at hrun
  simp only at hrun
  split at hrun
  · next hlt =>
    have hlt : averageOf round stop < (t : ℚ) := of_decide_eq_true hlt
    exact .inl ⟨⟨hdelta, t, his, hlt⟩, (EStateM.Result.ok.inj hrun).2.symm⟩
  · next hge =>
    refine .inr ⟨?_, (EStateM.Result.ok.inj hrun).2.symm⟩
    rintro ⟨-, t', his', hlt⟩
    rw [his'.unique his] at hlt
    exact hge (decide_eq_true hlt)

/-! ## The whole call -/

/-- The call confirms the rows `taken`, moves to the round, and reports a
fork if `stop` shows one. -/
structure RoundEffect (env : Env ℚ) (round : Int) (s s' : BlockChain) (front taken : List Row)
    (stop : Row) (rest : List Row) : Prop
    extends ConfirmsUpTo env round (s.inRound round) s' front taken stop rest where
  currentRound : s'.currentRound = round
  fork : ForkSeen env round stop →
    s'.forkDetected = true ∧ s'.forksDetected = s.forksDetected + 1
  noFork : ¬ForkSeen env round stop →
    s'.forkDetected = s.forkDetected ∧ s'.forksDetected = s.forksDetected

/-- **What update_round confirms**: in every reachable state, a call that
returns, in a new round and with the tip unconfirmed. -/
theorem update_round_confirms (hs : Reachable env s) {fuel : Nat}
    (hrun : updateRound env fuel s = .ok () s') (hround : roundAt env s.clock = .ok round)
    (hnew : s.currentRound ≠ round) {tip : Row} (htip : s.localChains.getLast? = some tip)
    (hzero : tip.confirmed = 0) :
    ∃ front taken stop rest, RoundEffect env round s s' front taken stop rest := by
  obtain ⟨c, hc⟩ := hs.represents
  obtain ⟨r, hr⟩ : ∃ r, oldest s.localChains = some r := by
    refine Option.isSome_iff_exists.mp (List.find?_isSome.mpr ⟨tip, List.mem_of_getLast? htip, ?_⟩)
    simpa using hzero
  obtain ⟨last, hcall⟩ := run_updateRound_of_some hc hs.ordered hround hnew hr fuel
  obtain ⟨front, l, hrows, hrzero, hfront, hl⟩ := hs.ordered.split hr
  rw [hcall] at hrun
  obtain ⟨locals, s₂, hloop, hfork⟩ := bind_eq_ok hrun
  have h₁ : Represents env (s.ticked.inRound round) c := ⟨hc.rows, hc.genesis, hc.arrived⟩
  have hunconfirmed : ∀ r' ∈ r :: l, r'.confirmed = 0 := by
    intro r' hr'
    rcases List.mem_cons.mp hr' with rfl | hr'
    · exact hrzero
    · exact hl r' hr'
  obtain ⟨taken, stop, rest, hupTo, hleft, hsame⟩ :=
    confirmLoop_confirmsUpTo h₁ hrows hfront hunconfirmed hloop
  have hstop : 0 < stop.blockIndex := by
    refine h₁.index_pos ?_ (hupTo.unconfirmed stop (by simp))
    rw [hupTo.rows]
    simp
  refine ⟨front, taken, stop, rest, ?_⟩
  rcases detectFork_ok hleft hstop hfork with ⟨hseen, rfl⟩ | ⟨hno, rfl⟩
  · exact {
      hupTo with
      rows' := hupTo.rows'
      delays := hupTo.delays
      currentRound := hsame.currentRound
      fork := fun _ => ⟨rfl, congrArg (· + 1) hsame.forksDetected⟩
      noFork := fun h => absurd hseen h }
  · exact {
      hupTo with
      currentRound := hsame.currentRound
      fork := fun h => absurd h hno
      noFork := fun _ => ⟨hsame.forkDetected, hsame.forksDetected⟩ }

/-- Blocks in the rounds 1, 2 and 3, in round 3. -/
def threeBlocks : BlockChain := run sampleEnv .init [.insert a1, .insert a2, .insert a3]

theorem threeBlocks_updated :
    returned (updateRound sampleEnv 10) threeBlocks = some () ∧
      roundAt sampleEnv threeBlocks.clock = .ok 3 ∧ threeBlocks.currentRound ≠ 3 ∧
      threeBlocks.localChains.map Row.confirmed = [1, 0, 0, 0] ∧
      (after (updateRound sampleEnv 10) threeBlocks).localChains.map Row.confirmed
        = [1, 1, 0, 0] := by decide +kernel

theorem update_round_confirms_sample :
    ∃ front taken stop rest,
      RoundEffect sampleEnv 3 threeBlocks (after (updateRound sampleEnv 10) threeBlocks) front taken
        stop rest := by
  obtain ⟨hrun, hround, hnew, hflags, -⟩ := threeBlocks_updated
  have hne : threeBlocks.localChains ≠ [] := by
    rintro hnil
    rw [hnil] at hflags
    cases hflags
  have hlast := congrArg List.getLast? hflags
  rw [List.getLast?_map, List.getLast?_eq_some_getLast hne] at hlast
  exact update_round_confirms ⟨.init, _, rfl, rfl⟩ (ok_of_returned hrun) hround hnew
    (List.getLast?_eq_some_getLast hne) (Option.some.inj hlast)

end Cpos
