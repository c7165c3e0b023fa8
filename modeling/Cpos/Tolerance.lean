import Cpos.ConfirmationOrder
import Cpos.Insertions
import Cpos.Producing

/-!
# Rounds within the tolerance

`handle_new_block` refuses blocks more than `tolerance` rounds ahead, and
a node's own blocks are of the current round. A resync has no such check:
`merge` stores what a peer sends. Where the blocks that the merges store
are in range, every row is (`rounds_in_range`); otherwise they need not be
(`round_out_of_range`).

The current round is one the clock showed, so it does not fall as long as
the clock does not go back.
-/

namespace Cpos

open Python ByteString LinkedChain BlockChain

variable {K : Type} [PyNum K]

/-! ## Rounds and the clock -/

/-- The rounds that the clock shows never fall. -/
def ClockRises (env : Env K) : Prop :=
  ∀ j k r r', j ≤ k → roundAt env j = .ok r → roundAt env k = .ok r' → r ≤ r'

/-- From `s` to `s'` the clock has been read, and the round is the same. -/
structure SameRound (s s' : BlockChain) : Prop where
  round : s'.currentRound = s.currentRound
  clock : s.clock ≤ s'.clock

instance : Std.Refl SameRound where
  refl _ := ⟨rfl, le_refl _⟩

instance : IsTrans BlockChain SameRound where
  trans _ _ _ h h' := ⟨h'.round.trans h.round, h.clock.trans h'.clock⟩

theorem roundWrites_sameRound : RoundWrites SameRound where
  confirm _ _ := ⟨rfl, le_refl _⟩
  attributes _ hf s := ⟨(hf s).2.1, le_of_eq (hf s).2.2.symm⟩

section Store

variable {env : Env K} {s s' : BlockChain} {c : Chain (rules env)}

theorem insert_sameRound (h : Represents env s c) (b : Block) :
    SameRound s (after (insert env b) s) := by
  refine after_insert_cases h b (refl_of SameRound s) ?counted ?stored ?unfit
  case counted => exact fun _ _ _ => ⟨rfl, le_refl _⟩
  case stored => exact fun _ _ _ _ => ⟨rfl, Nat.le_succ _⟩
  case unfit => exact fun _ _ _ => ⟨rfl, Nat.le_succ _⟩

theorem merge_sameRound (h : Represents env s c) (bs : List Block) :
    SameRound s (after (merge env bs) s) := by
  have hstart : SameRound s s := refl_of SameRound s
  refine merge_keeps (P := SameRound s) ?_ ?_ ?_ bs h hstart
  · exact fun i _ hs => ⟨hs.round, hs.clock⟩
  · exact fun _ _ hs => ⟨hs.round, hs.clock⟩
  · exact fun b h' hs => trans_of SameRound hs (insert_sameRound h' b)

/-- `update_round` sets the round that the clock shows. -/
theorem updateRound_round {fuel : Nat} (h : updateRound env fuel s = .ok () s') :
    roundAt env s.clock = .ok s'.currentRound ∧ s.clock < s'.clock := by
  cases hround : roundAt env s.clock with
  | error e =>
      rw [run_updateRound_error hround] at h
      cases h
  | ok round =>
      rw [run_updateRound hround] at h
      split at h
      · next hsame =>
        cases h
        exact ⟨congrArg Except.ok hsame.symm, Nat.lt_succ_self _⟩
      · have hkeeps : Keeps SameRound (lastConfirmedBlockInfo >>= fun info =>
            lastBlockId >>= fun lastId => if info.2.1 = lastId then pure ()
              else confirmLoop env round info.2.2 fuel none fuel >>= detectFork env fuel :
            Call Unit) := by
          refine keeps_bind keeps_lastConfirmedBlockInfo fun info =>
            keeps_bind keeps_lastBlockId fun lastId => ?_
          split
          · exact keeps_pure _
          · exact keeps_bind (confirmLoop_keeps roundWrites_sameRound _ _ _ _ _) fun _ =>
              detectFork_keeps roundWrites_sameRound _ _
        have hsame := hkeeps.of_ok h
        exact ⟨congrArg Except.ok hsame.round.symm, hsame.clock⟩

end Store

/-! ## The invariant -/

/-- The table represents a chain, the current round is one that the clock
showed, and no row is more than `tolerance` rounds ahead of it. -/
structure InRange (env : Env K) (s : BlockChain) : Prop where
  represents : ∃ c, Represents env s c
  clock : ∃ k < s.clock, roundAt env k = .ok s.currentRound
  rounds : ∀ r ∈ s.localChains, r.round ≤ s.currentRound + env.parameters.tolerance

namespace InRange

variable {env : Env K} {s s' : BlockChain}

/-- Calls that store blocks in range. -/
theorem stores (hs : InRange env s) (hrep : ∃ c, Represents env s' c) (hsame : SameRound s s')
    {l : List Insertion} (horigin : Origin env l s s')
    (hblocks : ∀ i ∈ l, i.Stored env →
      i.block.round ≤ s.currentRound + env.parameters.tolerance) : InRange env s' := by
  obtain ⟨k, hk, hround⟩ := hs.clock
  refine ⟨hrep, ⟨k, lt_of_lt_of_le hk hsame.clock, ?_⟩, ?_⟩
  · rw [hround, hsame.round]
  · intro r' hr'
    rw [hsame.round]
    rcases horigin r' hr' with ⟨r, hr, hstatic⟩ | ⟨i, hi, hstored, hst⟩
    · have hr'round : r'.static.round = r.static.round := by rw [hstatic]
      exact le_of_eq_of_le hr'round (hs.rounds r hr)
    · rw [hst.round]
      exact hblocks i hi hstored

theorem inserts (hs : InRange env s) {b : Block}
    (hb : b.round ≤ s.currentRound + env.parameters.tolerance) :
    InRange env (after (insert env b) s) := by
  obtain ⟨c, hc⟩ := hs.represents
  obtain ⟨c', hc', -⟩ := insert_represents hc b
  refine hs.stores ⟨c', hc'⟩ (insert_sameRound hc b) (insert_origin hc b) fun i hi _ => ?_
  obtain rfl := List.mem_singleton.mp hi
  exact hb

theorem merges (hs : InRange env s) {bs : List Block}
    (hbs : ∀ (c : Chain (rules env)) b, Represents env s c → Adopts c bs b →
      b.round ≤ s.currentRound + env.parameters.tolerance) :
    InRange env (after (merge env bs) s) := by
  obtain ⟨c, hc⟩ := hs.represents
  obtain ⟨c', hc', -⟩ := merge_represents hc bs
  exact hs.stores ⟨c', hc'⟩ (merge_sameRound hc bs) (merge_origin hc bs) fun i hi hstored =>
    hbs c i.block hc (adopts_of_stored hc hi hstored)

/-- The round rises, and with it the bound. -/
theorem updates (hclock : ClockRises env) (hs : InRange env s) {fuel : Nat}
    (h : updateRound env fuel s = .ok () s') : InRange env s' := by
  obtain ⟨hround, hticked⟩ := updateRound_round h
  obtain ⟨k, hk, hround'⟩ := hs.clock
  have hle := hclock k s.clock _ _ (le_of_lt hk) hround' hround
  have hconfirms : Confirms s s' := (updateRound_confirms fuel).of_ok h
  obtain ⟨c, hc⟩ := hs.represents
  refine ⟨⟨c, hc.confirms hconfirms⟩, ⟨s.clock, hticked, hround⟩, fun r' hr' => ?_⟩
  obtain ⟨r, hr, hstatic⟩ : ∃ r ∈ s.localChains, r.static = r'.static :=
    List.mem_map.mp (confirms_map_static hconfirms ▸ List.mem_map_of_mem hr')
  have hr'round : r'.static.round = r.static.round := by rw [hstatic]
  have hbound : r'.round ≤ s.currentRound + env.parameters.tolerance :=
    le_of_eq_of_le hr'round (hs.rounds r hr)
  omega

/-- The flag does not matter. -/
theorem unforked (hs : InRange env s) : InRange env { s with forkDetected := false } := by
  obtain ⟨c, hc⟩ := hs.represents
  exact ⟨⟨c, hc.rows, hc.genesis, hc.arrived⟩, hs.clock, hs.rounds⟩

end InRange

variable {env : LoopEnv K} {n n' : Node}

/-- The blocks that a merge adopts are at most `tolerance` rounds ahead. -/
def MergesInRange (env : LoopEnv K) (a : Act) (n : Node) : Prop :=
  a.isResponse = true → ∀ b, a.Takes env n b →
    b.round ≤ n.bc.currentRound + env.parameters.tolerance

/-- **The step.** Broadcasts are checked, own blocks are of the current
round; a merge keeps the rows in range if what it stores is. -/
theorem act_inRange (htolerance : 0 ≤ env.parameters.tolerance) (hclock : ClockRises env.toEnv)
    {a : Act} (hn : InRange env.toEnv n.bc) (h : a.Leads env n n') (hmerges : MergesInRange env a n) :
    InRange env.toEnv n'.bc := by
  have hsame {bc : BlockChain} (hbc : bc = n.bc) : InRange env.toEnv bc := hbc ▸ hn
  have hmerged {block : Block} (ha : a = .handle (.resyncResponse (some block)))
      (hresyncing : n.state = .resyncing) :
      InRange env.toEnv (after (merge env.toEnv (block :: n.receivedResyncBlocks)) n.bc) := by
    subst ha
    exact hn.merges fun c b hc hb => hmerges rfl b ⟨hresyncing, c, hc, hb⟩
  cases h.effect with
  | quiet h => exact hsame h.bc
  | rounds fuel bc hrun => exact hn.updates hclock hrun
  | produced block _ hgenerated _ hrun _ =>
      rw [← after_ok hrun]
      refine hn.inserts ?_
      have := (generateBlock_ok (ok_of_returned hgenerated)).round
      omega
  | delivered _ hadmits stored hrun _ =>
      rw [← after_ok hrun]
      refine hn.inserts ?_
      simp only [admits, Bool.and_eq_true, decide_eq_true_eq] at hadmits
      omega
  | started _ hbc _ _ _ => exact hsame hbc
  | noBlock _ _ hrest => exact hsame (hrest.bc.trans (chooseMissed_frame _ _).1)
  | aborted _ _ hrest =>
      rw [hrest.bc]
      exact hn.unforked
  | merged hresyncing left bc hrun hrest =>
      rw [hrest.bc, ← after_ok hrun]
      exact (hmerged rfl hresyncing).unforked
  | unmerged hresyncing left bc hrun hrest =>
      rw [hrest.bc]
      show InRange env.toEnv bc
      rw [← after_ok hrun]
      exact hmerged rfl hresyncing

/-! ## Runs -/

/-- A started node, where the genesis round is in range. -/
theorem Node.Started.inRange (h : n.Started env.toNodeEnv)
    (hgenesis : 0 ≤ n.bc.currentRound + env.parameters.tolerance) : InRange env.toEnv n.bc := by
  obtain ⟨fuel, hrun⟩ := h.bc
  obtain ⟨hround, hticked⟩ := updateRound_round hrun
  have hconfirms : Confirms .init n.bc := (updateRound_confirms fuel).of_ok hrun
  have h₀ : Represents env.toEnv .init (genesisChain env.toEnv) := represents_genesis rfl
  refine ⟨⟨_, h₀.confirms hconfirms⟩, ⟨0, hticked, hround⟩, fun r hr => ?_⟩
  have hstatic : r.static ∈ [genesisRow].map Row.static :=
    confirms_map_static hconfirms ▸ List.mem_map_of_mem hr
  have hzero : r.static.round = 0 := by
    rw [List.mem_singleton.mp hstatic]
    rfl
  have hround' : r.round = 0 := hzero
  omega

/-- **Rounds in range.** In every run whose merges adopt blocks in range
only, no row is more than `tolerance` rounds ahead. -/
theorem rounds_in_range (htolerance : 0 ≤ env.parameters.tolerance)
    (hclock : ClockRises env.toEnv) {n₀ : Node} (hstart : n₀.Started env.toNodeEnv)
    (hgenesis : 0 ≤ n₀.bc.currentRound + env.parameters.tolerance)
    (h : Relation.ReflTransGen (fun n n' => ∃ a : Act, a.Leads env n n' ∧ MergesInRange env a n)
      n₀ n) :
    ∀ r ∈ n.bc.localChains, r.round ≤ n.bc.currentRound + env.parameters.tolerance := by
  have hrange : InRange env.toEnv n.bc := by
    induction h with
    | refl => exact hstart.inRange hgenesis
    | tail _ hstep ih =>
        obtain ⟨a, hleads, hmerges⟩ := hstep
        exact act_inRange htolerance hclock ih hleads hmerges
  exact hrange.rounds

/-! ## Clocks -/

theorem tdiv_eq_floor {x : ℚ} (h : 0 ≤ x) : x.num.tdiv x.den = ⌊x⌋ := by
  rw [Int.tdiv_eq_ediv_of_nonneg (Rat.num_nonneg.mpr h), Rat.floor_def']

theorem tdiv_eq_neg_floor {x : ℚ} (h : x ≤ 0) : x.num.tdiv x.den = -⌊-x⌋ := by
  rw [← tdiv_eq_floor (Left.nonneg_neg_iff.mpr h), Rat.neg_num, Rat.neg_den, Int.neg_tdiv, neg_neg]

/-- `int` does not turn the order of two numbers round. -/
theorem trunc_mono {x y : ℚ} (h : x ≤ y) : x.num.tdiv x.den ≤ y.num.tdiv y.den := by
  rcases le_total 0 x with hx | hx
  · rw [tdiv_eq_floor hx, tdiv_eq_floor (hx.trans h)]
    exact Int.floor_le_floor h
  rcases le_total 0 y with hy | hy
  · rw [tdiv_eq_neg_floor hx, tdiv_eq_floor hy]
    have := Int.floor_nonneg.mpr hy
    have := Int.floor_nonneg.mpr (Left.nonneg_neg_iff.mpr hx)
    omega
  · rw [tdiv_eq_neg_floor hx, tdiv_eq_neg_floor hy]
    exact neg_le_neg (Int.floor_le_floor (neg_le_neg h))

/-- A clock that does not go back, in exact arithmetic. -/
theorem clockRises_of_monotone {env : Env ℚ} (hround : 0 < env.parameters.roundTime)
    (htime : Monotone env.time.reading) : ClockRises env := by
  intro j k r r' hjk hr hr'
  have hat (i : Nat) : roundAt env i
      = .ok (((env.time i - env.genesisTimestamp) / env.parameters.roundTime).num.tdiv
        ((env.time i - env.genesisTimestamp) / env.parameters.roundTime).den) := by
    have hdiv : PyNum.truediv (env.time i - env.genesisTimestamp) env.parameters.roundTime
        = .ok ((env.time i - env.genesisTimestamp) / env.parameters.roundTime) :=
      if_neg hround.ne'
    show (PyNum.truediv (env.time i - env.genesisTimestamp) env.parameters.roundTime >>= _) = _
    rw [hdiv]
    rfl
  rw [hat] at hr hr'
  cases hr
  cases hr'
  refine trunc_mono ?_
  have := htime hjk
  gcongr

/-! ## A merge out of range -/

/-- A block of a far round. -/
def aLate : Block := sampleBlock genesisBlock.hash alice 100 1
  0x08f59bc732759aaf27f8b2b5bfc0e5af6d4d842bd3e64e9ae63d452fd0077714febac42fec67dc71653ec082640a3bfe1c707ce26bd293f731928bd6b347d10a
  0x1dda451ab556147c10793a58111e1b088eff7b47780ae6354b456981b42a06f3
  0x4d4beaa0ae4d1d462ca799ff51292228fd1e02340a31dcf679306bd1a9ac13d6
  0x357ddd88b3d678e013f2c67d7c871868949cafd744a460ff19ba0db16270ba21

def lateEnv : LoopEnv ℚ := loopEnv stepTime [a1, b1, a3, aLate]

/-- The node stores `a1` and misses `a3`; in round 3 it detects a fork and
asks `bob`. -/
def lateTurns : List Turn :=
  [sampleTurn none, sampleTurn (some (.blockBroadcast a1 bob)),
    sampleTurn (some (.blockBroadcast a3 bob)), sampleTurn none]

/-- His answer is stored in round 3, 97 rounds ahead. -/
theorem round_out_of_range :
    (startLoop lateEnv).node.Started lateEnv.toNodeEnv ∧ Monotone lateEnv.time.reading ∧
      ∃ l, Turns lateEnv (startLoop lateEnv) l ∧ ∃ r ∈ l.node.bc.localChains,
        l.node.bc.currentRound + lateEnv.parameters.tolerance < r.round := by
  refine ⟨startLoop_started _ (by decide +kernel), stepTime_monotone, ?_⟩
  have hrun : ((runTurns lateEnv (startLoop lateEnv)
      (lateTurns ++ [sampleTurn (some (.resyncResponse (some aLate)))])).any fun l =>
        l.node.bc.localChains.any fun r =>
          l.node.bc.currentRound + lateEnv.parameters.tolerance < r.round) = true := by
    decide +kernel
  obtain ⟨l, hl, hany⟩ := (Option.any_eq_true _ _).mp hrun
  obtain ⟨r, hr, hlt⟩ := List.any_eq_true.mp hany
  exact ⟨l, runTurns_turns hl, r, hr, of_decide_eq_true hlt⟩

theorem mergesInRange_of_quiet {a : Act} (h : a.isResponse = false) (n : Node) :
    MergesInRange env a n := by
  intro hresponse
  rw [h] at hresponse
  cases hresponse

/-- An answer in range, `b1`, leaves the rows in range. -/
theorem rounds_in_range_sample :
    ∃ n : Node, n.bc.localChains.map Row.hash = [genesisBlock, b1].map (fun b => hex b.hash) ∧
      ∀ r ∈ n.bc.localChains, r.round ≤ n.bc.currentRound + lateEnv.parameters.tolerance := by
  have hanswered : (((runActs lateEnv (startLoop lateEnv).node askingActs).bind fun n =>
      runActs lateEnv n [.handle (.resyncResponse (some b1))]).map fun n =>
        n.bc.localChains.map Row.hash) = some ([genesisBlock, b1].map fun b => hex b.hash) := by
    decide +kernel
  have hmerges : ((runActs lateEnv (startLoop lateEnv).node askingActs).all fun n =>
      (b1 :: n.receivedResyncBlocks).all fun b =>
        b.round ≤ n.bc.currentRound + lateEnv.parameters.tolerance) = true := by
    decide +kernel
  obtain ⟨n', hn', hhashes⟩ := Option.map_eq_some_iff.mp hanswered
  obtain ⟨n, hn, hlast⟩ := Option.bind_eq_some_iff.mp hn'
  obtain ⟨n₁, hleads, hnil⟩ := runActs_cons hlast
  obtain rfl : n₁ = n' := Option.some.inj hnil
  have hrange : MergesInRange lateEnv (.handle (.resyncResponse (some b1))) n := by
    rintro - b ⟨-, c, -, hadopted⟩
    rw [hn, Option.all_some, List.all_eq_true] at hmerges
    exact of_decide_eq_true (hmerges b hadopted.mem)
  have hreaches := runActs_leads (C := MergesInRange lateEnv)
    (fun a ha => mergesInRange_of_quiet ((by decide : ∀ a ∈ askingActs, a.isResponse = false) a ha))
    hn
  refine ⟨n₁, hhashes, rounds_in_range (by decide) ?_ ?_ ?_ (hreaches.tail ⟨_, hleads, hrange⟩)⟩
  · exact clockRises_of_monotone (by decide +kernel) stepTime_monotone
  · exact startLoop_started _ (by decide +kernel)
  · decide +kernel

end Cpos
