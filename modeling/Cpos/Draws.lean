import Mathlib.Data.Set.Card
import Mathlib.Tactic.LinearCombination
import Mathlib.Tactic.NormNum
import Cpos.Thresholds

/-!
# The draws of a sortition

`run_sortition` compares the hash, as a fraction of `2^256`, with the
cumulative distribution and returns the first number of hits that reaches
it. Over the rationals:

- **It ends** (`runSortition_ends`): the distribution sums to one for every
  probability, also outside `[0, 1]`, and the fraction stays below one.
- **It draws from the binomial distribution** (`card_sortition_le`): the
  hashes with at most `i` tickets are counted by the distribution at `i`.
- **Its sums are exact** (`binomial_sums_exact`): the division leaves no
  remainder, and the loops compute the distribution and nothing else.
- **More stake or a higher probability never hurts**
  (`runSortition_mono`): by Pascal's rule the distribution at `i` falls in
  both, and one more unit of stake is worth at most one more hit.
-/

namespace Cpos

open Python ByteString Sha256 Finset

/-! ## The distribution in the number of hits, the stake and the probability -/

theorem hits_succ (n m : Nat) (p : ℚ) :
    hits n (m + 1) p = hits n m p + (n.choose m : ℚ) * p ^ m * (1 - p) ^ (n - m) :=
  sum_range_succ _ _

/-- Pascal's rule: one more draw misses or hits. -/
theorem hits_pascal (n m : Nat) (p : ℚ) :
    hits (n + 1) (m + 1) p = (1 - p) * hits n (m + 1) p + p * hits n m p := by
  induction m with
  | zero => simp [hits, pow_succ, mul_comm]
  | succ m ih =>
      have hmiss : (n.choose (m + 1) : ℚ) * (1 - p) ^ (n - m)
          = (1 - p) * ((n.choose (m + 1) : ℚ) * (1 - p) ^ (n - (m + 1))) := by
        rcases Nat.lt_or_ge m n with hlt | hge
        · rw [show n - m = n - (m + 1) + 1 by omega, pow_succ]
          ring
        · rw [Nat.choose_eq_zero_of_lt (by omega), Nat.cast_zero, zero_mul, zero_mul, mul_zero]
      have hchoose : ((n + 1).choose (m + 1) : ℚ) = n.choose m + n.choose (m + 1) := by
        rw [Nat.choose_succ_succ, Nat.cast_add]
      rw [hits_succ (n + 1), ih, hits_succ n (m + 1), hits_succ n m, hchoose,
        show n + 1 - (m + 1) = n - m by omega, pow_succ]
      linear_combination p ^ m * p * hmiss

section Order

variable {n n' m m' : Nat} {p p' : ℚ}

theorem hits_le_succ (n m : Nat) (hp : 0 ≤ p) (hp1 : p ≤ 1) : hits n m p ≤ hits n (m + 1) p := by
  have hmiss : 0 ≤ 1 - p := by linarith
  rw [hits_succ]
  have : 0 ≤ (n.choose m : ℚ) * p ^ m * (1 - p) ^ (n - m) := by positivity
  linarith

theorem hits_mono (hp : 0 ≤ p) (hp1 : p ≤ 1) (hm : m ≤ m') : hits n m p ≤ hits n m' p :=
  monotone_nat_of_le_succ (fun m => hits_le_succ n m hp hp1) hm

theorem hits_nonneg (hp : 0 ≤ p) (hp1 : p ≤ 1) : 0 ≤ hits n m p := by
  rw [← hits_none n p]
  exact hits_mono hp hp1 (Nat.zero_le m)

/-- With one more unit of stake, at most `m` hits are less likely. -/
theorem hits_stake_succ (hp : 0 ≤ p) (hp1 : p ≤ 1) : hits (n + 1) m p ≤ hits n m p := by
  cases m with
  | zero => rfl
  | succ m =>
      have := mul_le_mul_of_nonneg_left (hits_le_succ n m hp hp1) hp
      rw [hits_pascal]
      linarith

theorem hits_stake (hp : 0 ≤ p) (hp1 : p ≤ 1) (hn : n ≤ n') : hits n' m p ≤ hits n m p :=
  antitone_nat_of_succ_le (f := fun n => hits n m p) (fun _ => hits_stake_succ hp hp1) hn

/-- One more unit of stake gives at most one more hit. -/
theorem hits_le_stake_succ (hp : 0 ≤ p) (hp1 : p ≤ 1) : hits n m p ≤ hits (n + 1) (m + 1) p := by
  have := mul_le_mul_of_nonneg_left (hits_le_succ n m hp hp1) (show 0 ≤ 1 - p by linarith)
  rw [hits_pascal]
  linarith

/-- With a higher probability, at most `m` hits are less likely. -/
theorem hits_probability (hp : 0 ≤ p) (hpp : p ≤ p') (hp1 : p' ≤ 1) (m : Nat) :
    hits n m p' ≤ hits n m p := by
  induction n generalizing m with
  | zero => cases m <;> simp [hits, sum_range_succ', Nat.choose]
  | succ n ih =>
      cases m with
      | zero => rfl
      | succ m =>
          have hmiss := mul_le_mul_of_nonneg_left (ih (m + 1)) (show 0 ≤ 1 - p' by linarith)
          have hhit := mul_le_mul_of_nonneg_left (ih m) (show 0 ≤ p' by linarith)
          have hstep := mul_le_mul_of_nonneg_left (hits_le_succ n m hp (by linarith))
            (show 0 ≤ p' - p by linarith)
          rw [hits_pascal, hits_pascal]
          linarith

end Order

/-! ## The sums of the code -/

/-- The product `2 * ... * k` divides `n * ... * (n - k + 1)`: the division
in `binomial` leaves no remainder. -/
theorem denominator_dvd {n k : Nat} (hk : k ≤ n) :
    (rangeUp 2 (k + 1)).foldl (· * ·) 1 ∣ (rangeDown n (n - k)).foldl (· * ·) 1 := by
  rw [foldl_rangeDown hk, foldl_rangeUp]
  exact_mod_cast Nat.factorial_dvd_descFactorial n k

theorem cumulativeBinomDist_hits {n k : Nat} (hk : k ≤ n) (p : ℚ) :
    cumulativeBinomDist n k p = .ok (hits n (k + 1) p) := by
  have h := cumulativeBinomDist_rat (show k + 1 ≤ n + 1 by omega) p
  rwa [Nat.cast_succ, add_sub_cancel_right] at h

theorem hits_le_one {n m : Nat} {p : ℚ} (hm : m ≤ n + 1) (hp : 0 ≤ p) (hp1 : p ≤ 1) :
    hits n m p ≤ 1 := by
  rw [← hits_all n p]
  exact hits_mono hp hp1 hm

/-- **The binomial sums are exact.** `binomial` is the binomial coefficient,
`cumulative_binom_dist` the distribution, which is one at `k = n`; for a
probability it stays in `[0, 1]`, grows with `k` and follows Pascal's
rule. -/
theorem binomial_sums_exact {n k : Nat} (hk : k ≤ n) (p : ℚ) :
    (rangeUp 2 (k + 1)).foldl (· * ·) 1 ∣ (rangeDown n (n - k)).foldl (· * ·) 1
      ∧ binomial ℚ n k = .ok (n.choose k : ℚ)
      ∧ ∃ F, cumulativeBinomDist n k p = .ok F
        ∧ F = ∑ i ∈ range (k + 1), (n.choose i : ℚ) * p ^ i * (1 - p) ^ (n - i)
        ∧ (k = n → F = 1)
        ∧ (0 ≤ p → p ≤ 1 → 0 ≤ F ∧ F ≤ 1
          ∧ (∀ j ≤ k, ∃ G, cumulativeBinomDist n j p = .ok G ∧ G ≤ F)
          ∧ (k + 1 ≤ n → ∃ G H, cumulativeBinomDist (n + 1) (k + 1) p = .ok G
            ∧ cumulativeBinomDist n (k + 1) p = .ok H ∧ G = (1 - p) * H + p * F)) := by
  refine ⟨denominator_dvd hk, binomial_rat hk, hits n (k + 1) p, cumulativeBinomDist_hits hk p,
    rfl, ?_, ?_⟩
  · rintro rfl
    exact hits_all k p
  intro hp hp1
  refine ⟨hits_nonneg hp hp1, hits_le_one (by omega) hp hp1, ?_, ?_⟩
  · intro j hj
    exact ⟨hits n (j + 1) p, cumulativeBinomDist_hits (by omega) p, hits_mono hp hp1 (by omega)⟩
  · intro hlt
    have hG := cumulativeBinomDist_hits (show k + 1 ≤ n + 1 by omega) p
    have hH := cumulativeBinomDist_hits hlt p
    exact ⟨_, _, by exact_mod_cast hG, by exact_mod_cast hH, hits_pascal n (k + 1) p⟩

theorem binomial_sums_three :
    binomial ℚ (3 : Nat) (1 : Nat) = .ok (Nat.choose 3 1 : ℚ)
      ∧ ∃ F G H : ℚ, cumulativeBinomDist (3 : Nat) (1 : Nat) (1 / 4 : ℚ) = .ok F
        ∧ cumulativeBinomDist ((3 : Nat) + 1) ((1 : Nat) + 1) (1 / 4 : ℚ) = .ok G
        ∧ cumulativeBinomDist (3 : Nat) ((1 : Nat) + 1) (1 / 4 : ℚ) = .ok H
        ∧ G = (1 - 1 / 4) * H + 1 / 4 * F ∧ 0 ≤ F ∧ F ≤ 1 := by
  obtain ⟨-, hcoefficient, F, hF, -, -, hp⟩ :=
    binomial_sums_exact (show 1 ≤ 3 by decide) (1 / 4 : ℚ)
  obtain ⟨hnonneg, hle, -, hpascal⟩ := hp (by norm_num) (by norm_num)
  obtain ⟨G, H, hG, hH, h⟩ := hpascal (by decide)
  exact ⟨hcoefficient, F, G, H, hF, hG, hH, h, hnonneg, hle⟩

/-! ## The loop as a search for the first number of hits -/

/-- `run_sortition` from its numerical hash on. -/
def sortitionOfHash {K : Type} [PyNum K] (numericalHash : Nat) (stake : Int)
    (successProbability : K) : Except PyErr Int := do
  let q ← PyNum.truediv (PyNum.ofInt numericalHash) (PyNum.ofInt (2 ^ 256) : K)
  sortitionLoop stake successProbability q (stake.toNat + 2) 0

theorem runSortition_eq {K : Type} [PyNum K] (signedNodeHash : Bytes) (stake : Int)
    (successProbability : K) :
    runSortition signedNodeHash stake successProbability
      = sortitionOfHash (fromBytesLE (sha256 signedNodeHash)) stake successProbability := by
  rw [runSortition, sha256_length]
  rfl

theorem numericalHash_lt (signedNodeHash : Bytes) :
    fromBytesLE (sha256 signedNodeHash) < 2 ^ 256 := by
  have h := fromBytesLE_lt (sha256 signedNodeHash)
  rwa [sha256_length, show 256 ^ 32 = 2 ^ 256 by norm_num] at h

/-- The numbers of hits the loop accepts. -/
def Reaches (n : Nat) (p q : ℚ) : Set Nat := {w | q ≤ hits n (w + 1) p}

/-- The whole distribution reaches every `q`, so the loop ends at the
stake at the latest, and at the first number of hits that does. -/
theorem sortitionLoop_isLeast {n : Nat} {p q : ℚ} (hq : q ≤ 1) {fuel i : Nat} (hi : i ≤ n)
    (hfuel : n < i + fuel) (hbelow : ∀ j ∈ Reaches n p q, i ≤ j) :
    ∃ w : Nat, sortitionLoop n p q fuel i = .ok w ∧ w ≤ n ∧ IsLeast (Reaches n p q) w := by
  induction fuel generalizing i with
  | zero => omega
  | succ fuel ih =>
      rw [sortitionLoop, cumulativeBinomDist_hits hi]
      show ∃ w : Nat, (if decide (hits n (i + 1) p < q) = true then _ else _ : Except PyErr Int)
        = .ok (w : Int) ∧ _
      split
      · next hlt =>
        have hlt : hits n (i + 1) p < q := of_decide_eq_true hlt
        have hne : i ≠ n := by
          rintro rfl
          rw [hits_all] at hlt
          exact absurd hq (not_le.mpr hlt)
        refine ih (i := i + 1) (by omega) (by omega) fun j hj => ?_
        refine Nat.lt_of_le_of_ne (hbelow j hj) ?_
        rintro rfl
        exact absurd hj (not_le.mpr hlt)
      · next hge =>
        refine ⟨i, rfl, hi, ?_, hbelow⟩
        exact not_lt.mp fun hlt => hge (decide_eq_true hlt)

/-- The fraction of a 256-bit hash. -/
def fraction (x : Nat) : ℚ := x / 2 ^ 256

theorem fraction_lt {x : Nat} (hx : x < 2 ^ 256) : fraction x < 1 := by
  rw [fraction, div_lt_one (by positivity)]
  exact_mod_cast hx

theorem sortitionOfHash_rat (x : Nat) (n : Nat) (p : ℚ) :
    sortitionOfHash x n p = sortitionLoop n p (fraction x) (n + 2) 0 := by
  rw [sortitionOfHash, truediv_rat (by positivity)]
  show sortitionLoop n p (((x : Int) : ℚ) / ((2 ^ 256 : Int) : ℚ)) (n + 2) 0 = _
  rw [fraction]
  push_cast
  rfl

/-- The spec of the sortition: it returns the first number of hits whose
cumulated probability reaches the hash's fraction. -/
theorem sortitionOfHash_spec {x : Nat} (hx : x < 2 ^ 256) (n : Nat) (p : ℚ) :
    ∃ w : Nat, sortitionOfHash x n p = .ok w ∧ w ≤ n ∧ IsLeast (Reaches n p (fraction x)) w := by
  rw [sortitionOfHash_rat]
  exact sortitionLoop_isLeast (i := 0) (fraction_lt hx).le (by omega) (by omega)
    fun _ _ => Nat.zero_le _

theorem runSortition_spec (signedNodeHash : Bytes) (n : Nat) (p : ℚ) :
    ∃ w : Nat, runSortition signedNodeHash n p = .ok w ∧ w ≤ n
      ∧ IsLeast (Reaches n p (fraction (fromBytesLE (sha256 signedNodeHash)))) w := by
  rw [runSortition_eq]
  exact sortitionOfHash_spec (numericalHash_lt signedNodeHash) n p

/-! ## What the sortition grants -/

/-- **The sortition always ends within the stake**, for every rational
success probability: neither the fuel nor `binomial`'s check is reached. -/
theorem runSortition_ends (signedNodeHash : Bytes) (n : Nat) (p : ℚ) :
    ∃ w : Int, runSortition signedNodeHash n p = .ok w ∧ 0 ≤ w ∧ w ≤ n := by
  obtain ⟨w, hw, hle, -⟩ := runSortition_spec signedNodeHash n p
  exact ⟨w, hw, by omega, by omega⟩

/-- A hash earns at most `i` tickets exactly if the distribution at `i`
reaches its fraction. -/
theorem sortition_le_iff {x : Nat} (hx : x < 2 ^ 256) {n i : Nat} {p : ℚ} (hp : 0 ≤ p)
    (hp1 : p ≤ 1) :
    (∃ w : Int, sortitionOfHash x n p = .ok w ∧ w ≤ i) ↔ fraction x ≤ hits n (i + 1) p := by
  obtain ⟨w, hw, -, hleast⟩ := sortitionOfHash_spec hx n p
  constructor
  · rintro ⟨v, hv, hle⟩
    obtain rfl := Except.ok.inj (hw.symm.trans hv)
    have hwi : w + 1 ≤ i + 1 := by omega
    exact le_trans hleast.1 (hits_mono hp hp1 hwi)
  · intro h
    exact ⟨w, hw, by exact_mod_cast hleast.2 h⟩

/-- **The sortition draws from the binomial distribution.** Of the 256-bit
hashes, those with at most `i` tickets are as many as the cumulated
probability of `i` hits says, rounded to whole hashes. -/
theorem card_sortition_le {n i : Nat} {p : ℚ} (hp : 0 ≤ p) (hp1 : p ≤ 1) :
    Set.ncard {x : Nat | x < 2 ^ 256 ∧ ∃ w : Int, sortitionOfHash x n p = .ok w ∧ w ≤ i}
      = min (2 ^ 256)
        (⌊(2 : ℚ) ^ 256
          * ∑ j ∈ range (i + 1), (n.choose j : ℚ) * p ^ j * (1 - p) ^ (n - j)⌋₊ + 1) := by
  have hset : {x : Nat | x < 2 ^ 256 ∧ ∃ w : Int, sortitionOfHash x n p = .ok w ∧ w ≤ i}
      = (range (min (2 ^ 256) (⌊(2 : ℚ) ^ 256 * hits n (i + 1) p⌋₊ + 1)) : Set Nat) := by
    ext x
    have hF : 0 ≤ (2 : ℚ) ^ 256 * hits n (i + 1) p :=
      mul_nonneg (by positivity) (hits_nonneg hp hp1)
    rw [Set.mem_ofPred_eq, coe_range, Set.mem_Iio, lt_min_iff, Nat.lt_succ_iff, Nat.le_floor_iff hF,
      ← div_le_iff₀' (by positivity)]
    exact and_congr_right fun hx => sortition_le_iff hx hp hp1
  rw [hset, Set.ncard_coe_finset, card_range]
  rfl

/-- Half of the hashes give the one ticket of a stake of one. -/
theorem card_sortition_half :
    Set.ncard {x : Nat | x < 2 ^ 256
      ∧ ∃ w : Int, sortitionOfHash x (1 : Nat) (1 / 2 : ℚ) = .ok w ∧ w ≤ (0 : Nat)}
        = 2 ^ 255 + 1 := by
  have h := card_sortition_le (n := 1) (i := 0) (p := 1 / 2) (by norm_num) (by norm_num)
  rw [h]
  norm_num

/-- On every 256-bit hash, more stake and a higher probability give no
fewer tickets, and one more unit of stake at most one more. -/
theorem sortitionOfHash_mono {x : Nat} (hx : x < 2 ^ 256) {n n' : Nat} (hn : n ≤ n') {p p' : ℚ}
    (hp : 0 ≤ p) (hpp : p ≤ p') (hp1 : p' ≤ 1) :
    ∃ w w' w₁ : Int, sortitionOfHash x n p = .ok w ∧ sortitionOfHash x n' p' = .ok w'
      ∧ sortitionOfHash x (n + 1 : Nat) p = .ok w₁ ∧ w ≤ w' ∧ w₁ ≤ w + 1 := by
  obtain ⟨w, hw, -, hleast⟩ := sortitionOfHash_spec hx n p
  obtain ⟨w', hw', -, hleast'⟩ := sortitionOfHash_spec hx n' p'
  obtain ⟨w₁, hw₁, -, hleast₁⟩ := sortitionOfHash_spec hx (n + 1) p
  have hmore : Reaches n' p' (fraction x) ⊆ Reaches n p (fraction x) := fun v hv =>
    calc
      fraction x ≤ hits n' (v + 1) p' := hv
      _ ≤ hits n (v + 1) p' := hits_stake (hp.trans hpp) hp1 hn
      _ ≤ hits n (v + 1) p := hits_probability hp hpp hp1 _
  have hone : w + 1 ∈ Reaches (n + 1) p (fraction x) :=
    le_trans hleast.1 (hits_le_stake_succ hp (hpp.trans hp1))
  exact ⟨w, w', w₁, hw, hw', hw₁, by exact_mod_cast hleast'.mono hleast hmore,
    by exact_mod_cast hleast₁.2 hone⟩

/-- **More stake or a higher probability never hurts**, and one more unit
of stake raises the result by at most one. -/
theorem runSortition_mono (signedNodeHash : Bytes) {n n' : Nat} (hn : n ≤ n') {p p' : ℚ}
    (hp : 0 ≤ p) (hpp : p ≤ p') (hp1 : p' ≤ 1) :
    ∃ w w' w₁ : Int, runSortition signedNodeHash n p = .ok w
      ∧ runSortition signedNodeHash n' p' = .ok w'
      ∧ runSortition signedNodeHash (n + 1 : Nat) p = .ok w₁ ∧ w ≤ w' ∧ w₁ ≤ w + 1 := by
  rw [runSortition_eq, runSortition_eq, runSortition_eq]
  exact sortitionOfHash_mono (numericalHash_lt signedNodeHash) hn hp hpp hp1

theorem runSortition_mono_sample :
    ∃ w w' w₁ : Int, runSortition [7] (3 : Nat) (1 / 4 : ℚ) = .ok w
      ∧ runSortition [7] (5 : Nat) (1 / 2 : ℚ) = .ok w'
      ∧ runSortition [7] (3 + 1 : Nat) (1 / 4 : ℚ) = .ok w₁ ∧ w ≤ w' ∧ w₁ ≤ w + 1 :=
  runSortition_mono [7] (by decide) (by norm_num) (by norm_num) (by norm_num)

end Cpos
