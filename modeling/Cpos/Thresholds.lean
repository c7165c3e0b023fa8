import Mathlib.Data.Nat.Choose.Cast
import Mathlib.Data.Nat.Choose.Sum
import Mathlib.Order.Bounds.Basic
import Mathlib.Tactic.Linarith
import Mathlib.Tactic.Ring
import Cpos.Sortition

/-!
# The thresholds in exact arithmetic

With the float operations read as rational ones, `binomial` is the
binomial coefficient and `cumulative_binom_dist` the distribution
(`cumulativeBinomDist_rat`), which sums to one over all draws
(`hits_all`). So both searches end, with the first average that passes.
`confirmation_threshold` asks for more hits at each turn, and for more
than there are draws past half of the stake; `fork_threshold` asks for
fewer at each turn and for none at zero.
-/

namespace Cpos

open Python Finset

/-! ## The distribution -/

theorem rangeUp_eq (start : Int) (n : Nat) :
    rangeUp start (start + n) = (List.range n).map fun i : Nat => start + i := by
  rw [rangeUp, show (start + n - start).toNat = n by omega]
  simp [List.map_eq_flatMap, List.flatMap_assoc]

theorem rangeDown_eq (start : Int) (n : Nat) :
    rangeDown start (start - n) = (List.range n).map fun i : Nat => start - i := by
  rw [rangeDown, show (start - (start - n)).toNat = n by omega]
  simp [List.map_eq_flatMap, List.flatMap_assoc]

theorem foldl_rangeDown {n k : Nat} (hk : k ≤ n) :
    (rangeDown n (n - k : Int)).foldl (· * ·) 1 = (n.descFactorial k : Int) := by
  rw [rangeDown_eq]
  induction k with
  | zero => rfl
  | succ k ih =>
      rw [List.range_succ, List.map_append, List.foldl_append, ih (by omega),
        Nat.descFactorial_succ, Nat.cast_mul, Nat.cast_sub (by omega), mul_comm]
      rfl

theorem foldl_rangeUp (k : Nat) :
    (rangeUp 2 (k + 1 : Int)).foldl (· * ·) 1 = (k.factorial : Int) := by
  cases k with
  | zero => rfl
  | succ k =>
      rw [show ((k + 1 : Nat) + 1 : Int) = 2 + k by push_cast; ring, rangeUp_eq]
      induction k with
      | zero => rfl
      | succ k ih =>
          rw [List.range_succ, List.map_append, List.foldl_append, ih, Nat.factorial_succ (k + 1),
            Nat.cast_mul, mul_comm]
          simp only [List.map_cons, List.map_nil, List.foldl_cons, List.foldl_nil]
          push_cast
          ring

theorem binomial_rat {n k : Nat} (hk : k ≤ n) :
    binomial ℚ n k = .ok (n.choose k : ℚ) := by
  have hne : (k.factorial : ℚ) ≠ 0 := Nat.cast_ne_zero.mpr k.factorial_ne_zero
  rw [binomial, if_neg (by omega), foldl_rangeDown hk, foldl_rangeUp]
  show (if ((k.factorial : Int) : ℚ) = 0 then _ else _ : Except PyErr ℚ) = _
  rw [if_neg (by exact_mod_cast hne), Nat.descFactorial_eq_factorial_mul_choose]
  have hquot : ((k.factorial * n.choose k : Nat) : ℚ) / (k.factorial : ℚ) = n.choose k := by
    rw [Nat.cast_mul, mul_div_cancel_left₀ _ hne]
  rw [← hquot]
  congr 1

/-- The probability of at most `m - 1` hits in `n` draws. -/
def hits (n m : Nat) (p : ℚ) : ℚ :=
  ∑ i ∈ range m, (n.choose i : ℚ) * p ^ i * (1 - p) ^ (n - i)

theorem cumulativeBinomDist_rat {n m : Nat} (hm : m ≤ n + 1) (p : ℚ) :
    cumulativeBinomDist n (m - 1 : Int) p = .ok (hits n m p) := by
  rw [cumulativeBinomDist, show ((m : Int) - 1 + 1) = 0 + m by ring, rangeUp_eq]
  induction m with
  | zero => rfl
  | succ m ih =>
      have hsucc : hits n (m + 1) p
          = hits n m p + (n.choose m : ℚ) * p ^ m * (1 - p) ^ (n - m) := sum_range_succ _ _
      have hcoefficient : binomial ℚ n ((0 : Int) + m) = .ok (n.choose m : ℚ) := by
        rw [zero_add, binomial_rat (by omega)]
      rw [List.range_succ, List.map_append, List.foldlM_append, ih (by omega), hsucc]
      simp only [List.map_cons, List.map_nil, List.foldlM_cons, List.foldlM_nil]
      show ((binomial ℚ n ((0 : Int) + m) >>= _) >>= _) = _
      rw [hcoefficient]
      show Except.ok (hits n m p + n.choose m * p ^ ((0 : Int) + m).toNat
        * (((1 : Int) : ℚ) - p) ^ ((n : Int) - (0 + m)).toNat) = _
      rw [show ((0 : Int) + m).toNat = m by omega,
        show ((n : Int) - (0 + m)).toNat = n - m by omega, Int.cast_one]

theorem hits_all (n : Nat) (p : ℚ) : hits n (n + 1) p = 1 := by
  have h := add_pow p (1 - p) n
  rw [add_sub_cancel, one_pow] at h
  rw [h, hits]
  exact sum_congr rfl fun i _ => by ring

theorem hits_none (n : Nat) (p : ℚ) : hits n 0 p = 0 := rfl

/-! ## The chance of many hits -/

/-- The probability that of `n` draws at least `m` hit. -/
def atLeast (n m : Nat) (p : ℚ) : ℚ :=
  ∑ i ∈ Ico m (n + 1), (n.choose i : ℚ) * p ^ i * (1 - p) ^ (n - i)

section Tail

variable {n m : Nat} {p : ℚ}

/-- Past the number of draws nothing is added. -/
theorem hits_min (n m : Nat) (p : ℚ) : hits n (min m (n + 1)) p = hits n m p := by
  rcases Nat.le_total m (n + 1) with hle | hge
  · rw [Nat.min_eq_left hle]
  rw [Nat.min_eq_right hge]
  refine sum_subset (range_mono hge) fun i _ hi => ?_
  rw [mem_range, not_lt] at hi
  rw [Nat.choose_eq_zero_of_lt hi, Nat.cast_zero, zero_mul, zero_mul]

theorem atLeast_eq (n m : Nat) (p : ℚ) : atLeast n m p = 1 - hits n m p := by
  rcases Nat.le_total m (n + 1) with hle | hge
  · have hsplit : hits n m p + atLeast n m p = hits n (n + 1) p := sum_range_add_sum_Ico _ hle
    rw [hits_all] at hsplit
    linarith
  · rw [← hits_min, Nat.min_eq_right hge, hits_all, sub_self, atLeast, Ico_eq_empty_of_le hge,
      sum_empty]

theorem atLeast_zero (n : Nat) (p : ℚ) : atLeast n 0 p = 1 := by
  rw [atLeast_eq, hits_none, sub_zero]

theorem atLeast_of_gt (h : n < m) : atLeast n m p = 0 := by
  rw [atLeast, Ico_eq_empty_of_le h, sum_empty]

end Tail

/-! ## The two searches end -/

section Search

variable {totalStake deltaR : Nat} {p threshold : ℚ}

theorem cumulativeBinomDist_min (m : Nat) :
    cumulativeBinomDist (totalStake * deltaR : Int) (min ((m : Int) - 1) (totalStake * deltaR)) p
      = .ok (hits (totalStake * deltaR) (min m (totalStake * deltaR + 1)) p) := by
  rw [← Nat.cast_mul, ← cumulativeBinomDist_rat (Nat.min_le_right ..)]
  congr 1
  omega

/-- More than half of the stake asks for more hits than there are draws. -/
theorem draws_lt (hdelta : 1 ≤ deltaR) :
    totalStake * deltaR < 2 * deltaR * (totalStake / 2 + 1) := by
  have hhalf : totalStake < 2 * (totalStake / 2 + 1) := by omega
  calc totalStake * deltaR < 2 * (totalStake / 2 + 1) * deltaR :=
        Nat.mul_lt_mul_of_pos_right hhalf hdelta
    _ = 2 * deltaR * (totalStake / 2 + 1) := by ring

/-- The search goes up, and ends at the first average that is safe. -/
theorem confirmationThresholdLoop_isLeast {bound : Nat}
    (hbound : atLeast (totalStake * deltaR) (2 * deltaR * bound) p ≤ threshold)
    {fuel s : Nat} (hs : s ≤ bound) (hfuel : bound < s + fuel) :
    ∃ t : Nat, confirmationThresholdLoop totalStake deltaR p threshold fuel s = .ok (t : Int) ∧
      IsLeast {t | s ≤ t ∧ atLeast (totalStake * deltaR) (2 * deltaR * t) p ≤ threshold} t := by
  induction fuel generalizing s with
  | zero => omega
  | succ fuel ih =>
      have hk : (2 * deltaR * s - 1 : Int) = ((2 * deltaR * s : Nat) : Int) - 1 := by
        push_cast
        ring
      rw [confirmationThresholdLoop]
      simp only
      rw [hk, cumulativeBinomDist_min, hits_min]
      show ∃ t : Nat, (if decide (((1 : Int) : ℚ) - hits _ _ p ≤ threshold) = true then _
        else _ : Except PyErr Int) = .ok (t : Int) ∧ _
      rw [Int.cast_one, ← atLeast_eq]
      split
      · next hsafe => exact ⟨s, rfl, ⟨le_refl s, of_decide_eq_true hsafe⟩, fun _ ht => ht.1⟩
      · next hunsafe =>
        have hne : s ≠ bound := by
          rintro rfl
          exact hunsafe (decide_eq_true hbound)
        obtain ⟨t, ht, ⟨hle, hsafe⟩, hleast⟩ := ih (s := s + 1) (by omega) (by omega)
        refine ⟨t, ht, ⟨by omega, hsafe⟩, fun u ⟨hsu, hu⟩ => hleast ⟨?_, hu⟩⟩
        refine Nat.lt_of_le_of_ne hsu ?_
        rintro rfl
        exact hunsafe (decide_eq_true hu)

/-- The search goes down, and ends at the first average that is likely. -/
theorem forkThresholdLoop_isGreatest (totalStake deltaR : Nat) (p : ℚ) (hthreshold : threshold ≤ 1)
    {fuel a : Nat} (hfuel : a < fuel) :
    ∃ t : Nat, forkThresholdLoop totalStake deltaR p threshold fuel a = .ok (t : Int) ∧
      IsGreatest {t | t ≤ a ∧ threshold ≤ atLeast (totalStake * deltaR) (t * deltaR) p} t := by
  induction fuel generalizing a with
  | zero => omega
  | succ fuel ih =>
      have hk : (a * deltaR - 1 : Int) = ((a * deltaR : Nat) : Int) - 1 := by
        push_cast
        ring
      rw [forkThresholdLoop]
      simp only
      rw [hk, cumulativeBinomDist_min, hits_min]
      show ∃ t : Nat, (if decide (threshold ≤ ((1 : Int) : ℚ) - hits _ _ p) = true then _
        else _ : Except PyErr Int) = .ok (t : Int) ∧ _
      rw [Int.cast_one, ← atLeast_eq]
      split
      · next hlikely => exact ⟨a, rfl, ⟨le_refl a, of_decide_eq_true hlikely⟩, fun _ ht => ht.1⟩
      · next hunlikely =>
        cases a with
        | zero =>
            rw [Nat.zero_mul, atLeast_zero] at hunlikely
            exact absurd (decide_eq_true hthreshold) hunlikely
        | succ a =>
            obtain ⟨t, ht, ⟨hle, hlikely⟩, hgreatest⟩ := ih (a := a) (by omega)
            rw [show ((a + 1 : Nat) : Int) - 1 = a by omega]
            refine ⟨t, ht, ⟨by omega, hlikely⟩, fun u ⟨hua, hu⟩ => hgreatest ⟨?_, hu⟩⟩
            refine Nat.le_of_lt_succ (Nat.lt_of_le_of_ne hua ?_)
            rintro rfl
            exact hunlikely (decide_eq_true hu)

end Search

/-! ## The thresholds -/

section Mono

variable {K : Type} [PyNum K]

/-- More fuel does not change what a search finds. -/
theorem confirmationThresholdLoop_mono {totalStake deltaR : Int} {p threshold : K}
    {fuel fuel' : Nat} {s t : Int} (hle : fuel ≤ fuel')
    (h : confirmationThresholdLoop totalStake deltaR p threshold fuel s = .ok t) :
    confirmationThresholdLoop totalStake deltaR p threshold fuel' s = .ok t := by
  induction fuel generalizing fuel' s with
  | zero => cases h
  | succ fuel ih =>
      obtain ⟨fuel', rfl⟩ : ∃ m, fuel' = m + 1 := ⟨fuel' - 1, by omega⟩
      rw [confirmationThresholdLoop] at h ⊢
      obtain ⟨q, hq, h⟩ := except_bind_ok h
      rw [hq]
      show (if _ then _ else _ : Except PyErr Int) = _
      simp only at h
      split at h
      · next hle' => rw [if_pos hle']; exact h
      · next hle' => rw [if_neg hle']; exact ih (by omega) h

theorem confirmationThreshold_mono {fuel fuel' : Nat} {totalStake tau deltaR t : Int}
    {threshold : K} (hle : fuel ≤ fuel')
    (h : confirmationThreshold fuel totalStake tau deltaR threshold = .ok t) :
    confirmationThreshold fuel' totalStake tau deltaR threshold = .ok t := by
  obtain ⟨p, hp, h⟩ := except_bind_ok h
  rw [confirmationThreshold, hp]
  exact confirmationThresholdLoop_mono hle h

theorem forkThresholdLoop_mono {totalStake deltaR : Int} {p threshold : K} {fuel fuel' : Nat}
    {a t : Int} (hle : fuel ≤ fuel')
    (h : forkThresholdLoop totalStake deltaR p threshold fuel a = .ok t) :
    forkThresholdLoop totalStake deltaR p threshold fuel' a = .ok t := by
  induction fuel generalizing fuel' a with
  | zero => cases h
  | succ fuel ih =>
      obtain ⟨fuel', rfl⟩ : ∃ m, fuel' = m + 1 := ⟨fuel' - 1, by omega⟩
      rw [forkThresholdLoop] at h ⊢
      obtain ⟨q, hq, h⟩ := except_bind_ok h
      rw [hq]
      show (if _ then _ else _ : Except PyErr Int) = _
      simp only at h
      split at h
      · next hle' => rw [if_pos hle']; exact h
      · next hle' => rw [if_neg hle']; exact ih (by omega) h

theorem forkThreshold_mono {fuel fuel' : Nat} {totalStake tau deltaR t : Int} {threshold : K}
    (hle : fuel ≤ fuel') (h : forkThreshold fuel totalStake tau deltaR threshold = .ok t) :
    forkThreshold fuel' totalStake tau deltaR threshold = .ok t := by
  obtain ⟨p, hp, h⟩ := except_bind_ok h
  rw [forkThreshold, hp]
  exact forkThresholdLoop_mono hle h

end Mono

section Thresholds

variable {totalStake tau deltaR : Int} {threshold : ℚ} {fuel : Nat}

theorem truediv_rat {n m : Int} (hm : m ≠ 0) :
    PyNum.truediv (PyNum.ofInt n : ℚ) (PyNum.ofInt m) = .ok ((n : ℚ) / m) := by
  show (if (m : ℚ) = 0 then _ else _ : Except PyErr ℚ) = _
  rw [if_neg (Int.cast_ne_zero.mpr hm)]
  rfl

theorem confirmationThreshold_ok (hstake : 1 ≤ totalStake) (hdelta : 0 < deltaR)
    (hthreshold : 0 ≤ threshold) (hfuel : totalStake.toNat ≤ fuel) :
    ∃ t, confirmationThreshold fuel totalStake tau deltaR threshold = .ok t := by
  obtain ⟨n, rfl⟩ := Int.eq_ofNat_of_zero_le (show 0 ≤ totalStake by omega)
  obtain ⟨d, rfl⟩ := Int.eq_ofNat_of_zero_le (show 0 ≤ deltaR by omega)
  have hbound : atLeast (n * d) (2 * d * (n / 2 + 1)) (tau / n) ≤ threshold := by
    rwa [atLeast_of_gt (draws_lt (by omega))]
  obtain ⟨t, ht, -⟩ := confirmationThresholdLoop_isLeast hbound
    (show 1 ≤ n / 2 + 1 by omega) (show n / 2 + 1 < 1 + fuel by omega)
  rw [confirmationThreshold, truediv_rat (by omega)]
  exact ⟨t, ht⟩

theorem forkThreshold_ok (hstake : 1 ≤ totalStake) (htau : 0 ≤ tau) (hdelta : 0 < deltaR)
    (hthreshold : threshold ≤ 1) (hfuel : tau.toNat < fuel) :
    ∃ t, forkThreshold fuel totalStake tau deltaR threshold = .ok t := by
  obtain ⟨n, rfl⟩ := Int.eq_ofNat_of_zero_le (show 0 ≤ totalStake by omega)
  obtain ⟨d, rfl⟩ := Int.eq_ofNat_of_zero_le (show 0 ≤ deltaR by omega)
  obtain ⟨a, rfl⟩ := Int.eq_ofNat_of_zero_le htau
  obtain ⟨t, ht, -⟩ := forkThresholdLoop_isGreatest n d ((a : Int) / n) hthreshold
    (show a < fuel from hfuel)
  rw [forkThreshold, truediv_rat (by omega)]
  exact ⟨t, ht⟩

end Thresholds

end Cpos
