import Cpos.Python
import Cpos.Sha256

/-!
# Sortition and the two thresholds

`cpos/core/sortition.py`: binomial coefficients and the cumulative
binomial distribution, the sortition that turns a signature into a number
of winning tickets, and the two searches by which a node decides that a
block is confirmed or that a fork is likely.

The three `while` loops carry fuel. `run_sortition`'s ends by itself: past
the stake `binomial` raises.
-/

namespace Cpos

open Python ByteString Sha256

variable (K : Type) [PyNum K]

def binomial (n p : Int) : Except PyErr K :=
  if p > n then
    .error (.valueError s!"Invalid binomial coefficient: binomial({n}, {p})")
  else
    let numerator := (rangeDown n (n - p)).foldl (· * ·) 1
    let denominator := (rangeUp 2 (p + 1)).foldl (· * ·) 1
    PyNum.truediv (PyNum.ofInt numerator) (PyNum.ofInt denominator)

variable {K}

def cumulativeBinomDist (n k : Int) (p : K) : Except PyErr K :=
  (rangeUp 0 (k + 1)).foldlM (fun sum i => do
      let coefficient ← binomial K n i
      let hits ← PyNum.pow p i.toNat
      let misses ← PyNum.pow (PyNum.sub (PyNum.ofInt 1) p) (n - i).toNat
      return PyNum.add sum (PyNum.mul (PyNum.mul coefficient hits) misses))
    (PyNum.ofInt 0)

/-- `while q > cumulative_binom_dist(stake, i, success_probability): i += 1`. -/
def sortitionLoop (stake : Int) (successProbability q : K) : Nat → Int → Except PyErr Int
  | 0, _ => .error .outOfFuel
  | fuel + 1, i => do
      let c ← cumulativeBinomDist stake i successProbability
      if PyNum.lt c q then sortitionLoop stake successProbability q fuel (i + 1)
      else return i

def runSortition (signedNodeHash : Bytes) (stake : Int) (successProbability : K) :
    Except PyErr Int := do
  let hash := sha256 signedNodeHash
  let bitLength := hash.length * 8
  let numericalHash := fromBytesLE hash
  let q ← PyNum.truediv (PyNum.ofInt numericalHash) (PyNum.ofInt (2 ^ bitLength) : K)
  sortitionLoop stake successProbability q (stake.toNat + 2) 0

def confirmationThresholdLoop (totalStake deltaR : Int) (p threshold : K) :
    Nat → Int → Except PyErr Int
  | 0, _ => .error .outOfFuel
  | fuel + 1, s => do
      let k := min (2 * deltaR * s - 1) (totalStake * deltaR)
      let chance := PyNum.sub (PyNum.ofInt 1) (← cumulativeBinomDist (totalStake * deltaR) k p)
      if PyNum.le chance threshold then return s
      else confirmationThresholdLoop totalStake deltaR p threshold fuel (s + 1)

def confirmationThreshold (fuel : Nat) (totalStake tau deltaR : Int) (threshold : K) :
    Except PyErr Int := do
  let p ← PyNum.truediv (PyNum.ofInt tau : K) (PyNum.ofInt totalStake)
  confirmationThresholdLoop totalStake deltaR p threshold fuel 1

def forkThresholdLoop (totalStake deltaR : Int) (p threshold : K) :
    Nat → Int → Except PyErr Int
  | 0, _ => .error .outOfFuel
  | fuel + 1, a => do
      let k := min (a * deltaR - 1) (totalStake * deltaR)
      let chance := PyNum.sub (PyNum.ofInt 1) (← cumulativeBinomDist (totalStake * deltaR) k p)
      if PyNum.le threshold chance then return a
      else forkThresholdLoop totalStake deltaR p threshold fuel (a - 1)

def forkThreshold (fuel : Nat) (totalStake tau deltaR : Int) (threshold : K) :
    Except PyErr Int := do
  let p ← PyNum.truediv (PyNum.ofInt tau : K) (PyNum.ofInt totalStake)
  forkThresholdLoop totalStake deltaR p threshold fuel tau

/-! ## What a sortition returns -/

theorem sortitionLoop_ge {stake : Int} {p q : K} {fuel : Nat} {i w : Int}
    (h : sortitionLoop stake p q fuel i = .ok w) : i ≤ w := by
  induction fuel generalizing i with
  | zero => cases h
  | succ fuel ih =>
      rw [sortitionLoop] at h
      obtain ⟨c, -, h⟩ := except_bind_ok h
      split at h
      · have := ih h
        omega
      · rw [Except.ok.inj h]

theorem runSortition_nonneg {signedNodeHash : Bytes} {stake w : Int} {p : K}
    (h : runSortition signedNodeHash stake p = .ok w) : 0 ≤ w := by
  obtain ⟨q, -, h⟩ := except_bind_ok h
  exact sortitionLoop_ge h

end Cpos
