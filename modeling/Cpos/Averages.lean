import Cpos.Draws

/-!
# What the two thresholds say

Both searches compare the chance of a number of hits per round with a
threshold. The chance falls in the number of hits asked for, so:

- **`confirmation_threshold`** returns the least average `s` whose double
  is unlikely to be reached (`confirmation_threshold_least`). Past half of
  the stake on, more hits than draws are asked for, and the search ends.
- **`fork_threshold`** returns the greatest average up to `tau` that is
  reached almost surely (`fork_threshold_greatest`). No hit at all is
  certain, and the search ends at zero at the latest.

The chance grows with the probability of a hit, and both thresholds with
`tau` (`thresholds_mono`).
-/

namespace Cpos

open Python Finset

/-! ## The chance of many hits -/

section Tail

variable {n m m' : Nat} {p p' : ℚ}

theorem atLeast_anti (hp : 0 ≤ p) (hp1 : p ≤ 1) (hm : m ≤ m') :
    atLeast n m' p ≤ atLeast n m p := by
  have := hits_mono (n := n) hp hp1 hm
  rw [atLeast_eq, atLeast_eq]
  linarith

theorem atLeast_probability (hp : 0 ≤ p) (hpp : p ≤ p') (hp1 : p' ≤ 1) (m : Nat) :
    atLeast n m p ≤ atLeast n m p' := by
  have := hits_probability (n := n) hp hpp hp1 m
  rw [atLeast_eq, atLeast_eq]
  linarith

end Tail

/-! ## The thresholds -/

section Thresholds

variable {totalStake tau tau' deltaR : Nat} {threshold : ℚ}

theorem ratio_nonneg (tau totalStake : Nat) : (0 : ℚ) ≤ tau / totalStake := by positivity

theorem ratio_le_one (h : tau ≤ totalStake) : (tau : ℚ) / totalStake ≤ 1 :=
  div_le_one_of_le₀ (by exact_mod_cast h) (by positivity)

theorem ratio_mono (h : tau ≤ tau') : (tau : ℚ) / totalStake ≤ tau' / totalStake := by
  gcongr

/-- The spec of `confirmation_threshold`. -/
theorem confirmationThreshold_isLeast (tau : Nat) (hstake : 1 ≤ totalStake) (hdelta : 1 ≤ deltaR)
    (hthreshold : 0 ≤ threshold) {fuel : Nat} (hfuel : totalStake / 2 + 1 ≤ fuel) :
    ∃ s : Nat, confirmationThreshold fuel totalStake tau deltaR threshold = .ok (s : Int) ∧
      s ≤ totalStake / 2 + 1 ∧
      IsLeast {s | 1 ≤ s ∧
        atLeast (totalStake * deltaR) (2 * deltaR * s) (tau / totalStake) ≤ threshold} s := by
  have hbound : atLeast (totalStake * deltaR) (2 * deltaR * (totalStake / 2 + 1))
      (tau / totalStake) ≤ threshold := by
    rwa [atLeast_of_gt (draws_lt hdelta)]
  obtain ⟨s, hs, hleast⟩ := confirmationThresholdLoop_isLeast hbound
    (show 1 ≤ totalStake / 2 + 1 by omega) (show totalStake / 2 + 1 < 1 + fuel by omega)
  refine ⟨s, ?_, hleast.2 ⟨by omega, hbound⟩, hleast⟩
  rw [confirmationThreshold, truediv_rat (by omega)]
  exact hs

/-- The spec of `fork_threshold`. -/
theorem forkThreshold_isGreatest (deltaR : Nat) (hstake : 1 ≤ totalStake) (hthreshold : threshold ≤ 1)
    {fuel : Nat} (hfuel : tau < fuel) :
    ∃ a : Nat, forkThreshold fuel totalStake tau deltaR threshold = .ok (a : Int) ∧
      IsGreatest {a | a ≤ tau ∧
        threshold ≤ atLeast (totalStake * deltaR) (a * deltaR) (tau / totalStake)} a := by
  obtain ⟨a, ha, hgreatest⟩ :=
    forkThresholdLoop_isGreatest totalStake deltaR (tau / totalStake) hthreshold hfuel
  refine ⟨a, ?_, hgreatest⟩
  rw [forkThreshold, truediv_rat (by omega)]
  exact ha

/-- **The confirmation threshold is the least safe average.** -/
theorem confirmation_threshold_least (hstake : 1 ≤ totalStake) (htau : tau ≤ totalStake)
    (hdelta : 1 ≤ deltaR) (hthreshold : 0 ≤ threshold) :
    ∃ s : Nat,
      (∀ fuel, totalStake / 2 + 1 ≤ fuel →
        confirmationThreshold fuel totalStake tau deltaR threshold = .ok (s : Int)) ∧
      1 ≤ s ∧ s ≤ totalStake / 2 + 1 ∧
      (∀ s', s ≤ s' →
        atLeast (totalStake * deltaR) (2 * deltaR * s') (tau / totalStake) ≤ threshold) ∧
      ∀ s', 1 ≤ s' → s' < s →
        threshold < atLeast (totalStake * deltaR) (2 * deltaR * s') (tau / totalStake) := by
  obtain ⟨s, hs, hle, ⟨hpos, hsafe⟩, hleast⟩ :=
    confirmationThreshold_isLeast tau hstake hdelta hthreshold (le_refl _)
  refine ⟨s, fun fuel hfuel => confirmationThreshold_mono hfuel hs, hpos, hle, ?_, ?_⟩
  · intro s' hs'
    refine le_trans (atLeast_anti (ratio_nonneg ..) (ratio_le_one htau) ?_) hsafe
    exact Nat.mul_le_mul_left _ hs'
  · intro s' hs' hlt
    exact not_le.mp fun hsafe' => absurd (hleast ⟨hs', hsafe'⟩) (not_le.mpr hlt)

theorem confirmation_threshold_least_sample :
    ∃ s : Nat,
      (∀ fuel, 8 / 2 + 1 ≤ fuel →
        confirmationThreshold fuel (8 : Nat) (4 : Nat) (3 : Nat) (1 / 1000000 : ℚ)
          = .ok (s : Int)) ∧
      1 ≤ s ∧ s ≤ 8 / 2 + 1 ∧
      (∀ s', s ≤ s' → atLeast (8 * 3) (2 * 3 * s') ((4 : Nat) / (8 : Nat)) ≤ 1 / 1000000) ∧
      ∀ s', 1 ≤ s' → s' < s →
        1 / 1000000 < atLeast (8 * 3) (2 * 3 * s') ((4 : Nat) / (8 : Nat)) :=
  confirmation_threshold_least (by decide) (by decide) (by decide) (by norm_num)

/-- **The fork threshold is the greatest expected average.** -/
theorem fork_threshold_greatest (hstake : 1 ≤ totalStake) (htau : tau ≤ totalStake)
    (hthreshold : threshold ≤ 1) :
    ∃ a : Nat,
      (∀ fuel, tau < fuel →
        forkThreshold fuel totalStake tau deltaR threshold = .ok (a : Int)) ∧
      a ≤ tau ∧
      (∀ a', a' ≤ a →
        threshold ≤ atLeast (totalStake * deltaR) (a' * deltaR) (tau / totalStake)) ∧
      ∀ a', a < a' → a' ≤ tau →
        atLeast (totalStake * deltaR) (a' * deltaR) (tau / totalStake) < threshold := by
  obtain ⟨a, ha, ⟨hle, hlikely⟩, hgreatest⟩ :=
    forkThreshold_isGreatest deltaR hstake hthreshold (Nat.lt_succ_self tau)
  refine ⟨a, fun fuel hfuel => forkThreshold_mono hfuel ha, hle, ?_, ?_⟩
  · intro a' ha'
    refine le_trans hlikely (atLeast_anti (ratio_nonneg ..) (ratio_le_one htau) ?_)
    exact Nat.mul_le_mul_right _ ha'
  · intro a' hlt ha'
    exact not_le.mp fun hlikely' => absurd (hgreatest ⟨ha', hlikely'⟩) (not_le.mpr hlt)

theorem fork_threshold_greatest_sample :
    ∃ a : Nat,
      (∀ fuel, 4 < fuel →
        forkThreshold fuel (8 : Nat) (4 : Nat) (3 : Nat) (19 / 20 : ℚ) = .ok (a : Int)) ∧
      a ≤ 4 ∧
      (∀ a', a' ≤ a → 19 / 20 ≤ atLeast (8 * 3) (a' * 3) ((4 : Nat) / (8 : Nat))) ∧
      ∀ a', a < a' → a' ≤ 4 → atLeast (8 * 3) (a' * 3) ((4 : Nat) / (8 : Nat)) < 19 / 20 :=
  fork_threshold_greatest (by decide) (by decide) (by norm_num)

/-- **Both thresholds grow with `tau`.** -/
theorem thresholds_mono (hstake : 1 ≤ totalStake) (htau : tau ≤ tau') (htau' : tau' ≤ totalStake)
    (hdelta : 1 ≤ deltaR) (hthreshold : 0 ≤ threshold) (hthreshold1 : threshold ≤ 1)
    {fuel : Nat} (hfuel : totalStake < fuel) :
    ∃ s s' a a' : Int,
      confirmationThreshold fuel totalStake tau deltaR threshold = .ok s ∧
      confirmationThreshold fuel totalStake tau' deltaR threshold = .ok s' ∧
      forkThreshold fuel totalStake tau deltaR threshold = .ok a ∧
      forkThreshold fuel totalStake tau' deltaR threshold = .ok a' ∧ s ≤ s' ∧ a ≤ a' := by
  have hhalf : totalStake / 2 + 1 ≤ fuel := by omega
  obtain ⟨s, hs, -, hleast⟩ := confirmationThreshold_isLeast tau hstake hdelta hthreshold hhalf
  obtain ⟨s', hs', -, hleast'⟩ := confirmationThreshold_isLeast tau' hstake hdelta hthreshold hhalf
  obtain ⟨a, ha, hgreatest⟩ :=
    forkThreshold_isGreatest deltaR hstake hthreshold1 (show tau < fuel by omega)
  obtain ⟨a', ha', hgreatest'⟩ :=
    forkThreshold_isGreatest deltaR hstake hthreshold1 (show tau' < fuel by omega)
  have hmore (m : Nat) : atLeast (totalStake * deltaR) m (tau / totalStake)
      ≤ atLeast (totalStake * deltaR) m (tau' / totalStake) :=
    atLeast_probability (ratio_nonneg ..) (ratio_mono htau) (ratio_le_one htau') m
  refine ⟨s, s', a, a', hs, hs', ha, ha', ?_, ?_⟩
  · -- what is safe for the larger committee is safe for the smaller one
    exact_mod_cast hleast'.mono hleast fun t ⟨hpos, hsafe⟩ => ⟨hpos, (hmore _).trans hsafe⟩
  · exact_mod_cast hgreatest.mono hgreatest' fun t ⟨hle, hlikely⟩ =>
      ⟨hle.trans htau, hlikely.trans (hmore _)⟩

theorem thresholds_mono_sample :
    ∃ s s' a a' : Int,
      confirmationThreshold 9 (8 : Nat) (2 : Nat) (3 : Nat) (1 / 20 : ℚ) = .ok s ∧
      confirmationThreshold 9 (8 : Nat) (4 : Nat) (3 : Nat) (1 / 20 : ℚ) = .ok s' ∧
      forkThreshold 9 (8 : Nat) (2 : Nat) (3 : Nat) (1 / 20 : ℚ) = .ok a ∧
      forkThreshold 9 (8 : Nat) (4 : Nat) (3 : Nat) (1 / 20 : ℚ) = .ok a' ∧ s ≤ s' ∧ a ≤ a' :=
  thresholds_mono (by decide) (by decide) (by decide) (by decide) (by norm_num) (by norm_num)
    (by decide)

end Thresholds

end Cpos
