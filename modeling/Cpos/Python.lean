import Mathlib.Algebra.Order.Floor.Defs
import Mathlib.Data.Rat.Floor

/-!
# Python numbers, exceptions and calls

What the modelled code uses of its language.

- `PyErr` lists the exceptions the code can run into. `outOfFuel` is not
  one of Python's: it marks a loop that was still running when the fuel
  of the model's recursion was spent, so that every definition is total.
- `PyNum` is the arithmetic of Python's `int` and `float` values as the
  sortition and the clock use it. Everything about the block chain that
  does not depend on how floats round is proved for every instance; the
  instance at `ℚ` reads the operations as exact.
- Calls on an object are computations in `EStateM PyErr σ`: a call
  returns or raises, and either way leaves the object (and the table
  behind it) in some state. `bind_ok` and `bind_error` run a sequence of
  calls step by step.
-/

namespace Python

inductive PyErr where
  | typeError
  | indexError
  | valueError (message : String)
  | overflowError
  | zeroDivisionError
  | unboundLocalError
  | dataError
  | integrityError
  | keyError
  | attributeError
  | outOfFuel
deriving DecidableEq, Repr

/-! ## Numbers -/

/-- Python's numbers, `int` and `float` values mixed. `truediv` is `/`,
`pow` is `**` with a non-negative integer exponent, `trunc` is `int(x)`;
these three can raise. `literal n d` is the float literal whose decimal
value is `n / d`, `column x` the value an `INTEGER` column stores for
`x`. Comparisons are separate because a NaN is on neither side. -/
class PyNum (K : Type) where
  ofInt : Int → K
  literal : Int → Nat → K
  add : K → K → K
  sub : K → K → K
  mul : K → K → K
  pow : K → Nat → Except PyErr K
  truediv : K → K → Except PyErr K
  lt : K → K → Bool
  le : K → K → Bool
  trunc : K → Except PyErr Int
  column : K → Int

/-- The float operations read as exact rational arithmetic. -/
instance instPyNumRat : PyNum ℚ where
  ofInt n := n
  literal n d := mkRat n d
  add x y := x + y
  sub x y := x - y
  mul x y := x * y
  pow x n := .ok (x ^ n)
  truediv x y := if y = 0 then .error .zeroDivisionError else .ok (x / y)
  lt x y := decide (x < y)
  le x y := decide (x ≤ y)
  trunc x := .ok (x.num.tdiv x.den)
  column x := if 0 ≤ x then ⌊x + 1 / 2⌋ else -⌊-x + 1 / 2⌋

/-- `range(start, stop)`. -/
def rangeUp (start stop : Int) : List Int :=
  (List.range (stop - start).toNat).map fun i => start + i

/-- `range(start, stop, -1)`. -/
def rangeDown (start stop : Int) : List Int :=
  (List.range (start - stop).toNat).map fun i => start - i

/-- `range(0, stop, step)`. -/
def rangeBy (stop : Nat) (step : Int) : Except PyErr (List Nat) :=
  if step = 0 then .error (.valueError "range() arg 3 must not be zero")
  else if step < 0 then .ok []
  else .ok ((List.range ((stop + step.toNat - 1) / step.toNat)).map (· * step.toNat))

/-- `str(xs)` of a list whose elements print as `xs`. -/
def strList (xs : List String) : String :=
  "[" ++ ", ".intercalate xs ++ "]"

/-- The digits up to which `int` values are printed. -/
def strDigits : Nat := 4300

/-- The least number with more of them. -/
@[irreducible] def strLimit : Nat := 10 ^ strDigits

/-- What printing such a number raises. -/
def intTooLong : PyErr :=
  .valueError ("Exceeds the limit (4300 digits) for integer string conversion; " ++
    "use sys.set_int_max_str_digits() to increase the limit")

/-- `str(n)`, and `f"{n}"`. -/
def strInt (n : Int) : Except PyErr String :=
  if n.natAbs < strLimit then .ok (toString n) else .error intTooLong

theorem strInt_ok {n : Int} (h : n.natAbs < strLimit) : strInt n = .ok (toString n) := if_pos h

theorem strInt_error {n : Int} (h : ¬n.natAbs < strLimit) : strInt n = .error intTooLong :=
  if_neg h

theorem natAbs_lt_strLimit {n : Int} (h : -2 ^ 31 ≤ n) (h' : n < 2 ^ 31) :
    n.natAbs < strLimit := by
  have hlt : n.natAbs < 10 ^ 10 := by omega
  unfold strLimit
  exact lt_of_lt_of_le hlt (Nat.pow_le_pow_right (by decide) (show 10 ≤ strDigits by decide))

theorem rangeBy_of_pos {stop n : Nat} (hn : 0 < n) :
    rangeBy stop n = .ok ((List.range ((stop + n - 1) / n)).map (· * n)) := by
  rw [rangeBy, if_neg (by omega), if_neg (by omega), Int.toNat_natCast]

/-- A sequence that succeeds, step by step. -/
theorem except_bind_ok {α β : Type} {x : Except PyErr α} {f : α → Except PyErr β} {b : β}
    (h : x >>= f = .ok b) : ∃ a, x = .ok a ∧ f a = .ok b := by
  cases x with
  | ok a => exact ⟨a, rfl, h⟩
  | error e => cases h

/-! ## Calls -/

/-- A computation that touches no state, as part of a call. -/
def eval {σ α : Type} (x : Except PyErr α) : EStateM PyErr σ α := fun s =>
  match x with
  | .ok a => .ok a s
  | .error e => .error e s

/-- The state a call leaves behind, whether it returned or raised. -/
def after {σ α : Type} (x : EStateM PyErr σ α) (s : σ) : σ :=
  match x s with
  | .ok _ s' => s'
  | .error _ s' => s'

/-- The value a call returns, if it does not raise. -/
def returned {σ α : Type} (x : EStateM PyErr σ α) (s : σ) : Option α :=
  match x s with
  | .ok a _ => some a
  | .error _ _ => none

/-- The exception a call raises, if it does. -/
def raised {σ α : Type} (x : EStateM PyErr σ α) (s : σ) : Option PyErr :=
  match x s with
  | .ok _ _ => none
  | .error e _ => some e

section Calls

variable {σ α β : Type} {x : EStateM PyErr σ α} {f : α → EStateM PyErr σ β} {s s' : σ}

theorem bind_ok {a : α} (h : x s = .ok a s') : (x >>= f) s = f a s' := by
  show EStateM.bind x f s = f a s'
  simp only [EStateM.bind, h]

theorem bind_error {e : PyErr} (h : x s = .error e s') : (x >>= f) s = .error e s' := by
  show EStateM.bind x f s = _
  simp only [EStateM.bind, h]

/-- A sequence that returns, step by step. -/
theorem bind_eq_ok {b : β} {s'' : σ} (h : (x >>= f) s = .ok b s'') :
    ∃ a s', x s = .ok a s' ∧ f a s' = .ok b s'' := by
  cases hx : x s with
  | ok a s' =>
      rw [bind_ok hx] at h
      exact ⟨a, s', rfl, h⟩
  | error e s' =>
      rw [bind_error hx] at h
      cases h

theorem after_ok {a : α} (h : x s = .ok a s') : after x s = s' := by
  simp only [after, h]

theorem after_error {e : PyErr} (h : x s = .error e s') : after x s = s' := by
  simp only [after, h]

theorem after_bind_ok {a : α} (h : x s = .ok a s') : after (x >>= f) s = after (f a) s' := by
  rw [after, bind_ok h, after]

theorem after_bind_error {e : PyErr} (h : x s = .error e s') : after (x >>= f) s = s' := by
  rw [after, bind_error h]

theorem returned_ok {a : α} (h : x s = .ok a s') : returned x s = some a := by
  simp only [returned, h]

theorem returned_error {e : PyErr} (h : x s = .error e s') : returned x s = none := by
  simp only [returned, h]

theorem not_returned {e : PyErr} (h : x s = .error e s') : ¬∃ a, returned x s = some a := by
  rw [returned_error h]
  simp

theorem ok_of_returned {a : α} (h : returned x s = some a) : x s = .ok a (after x s) := by
  unfold returned at h
  unfold after
  cases hx : x s with
  | ok a' s' =>
      rw [hx] at h
      rw [Option.some.inj h]
  | error e s' =>
      rw [hx] at h
      cases h

theorem get_ok (s : σ) : (get : EStateM PyErr σ σ) s = .ok s s := rfl

@[simp] theorem eval_ok (a : α) : (eval (.ok a) : EStateM PyErr σ α) s = .ok a s := rfl

@[simp] theorem eval_error (e : PyErr) :
    (eval (.error e : Except PyErr α) : EStateM PyErr σ α) s = .error e s := rfl

theorem eval_eq_ok {y : Except PyErr α} {a : α} (h : eval y s = .ok a s') : y = .ok a ∧ s = s' := by
  cases y with
  | ok a' =>
      cases h
      exact ⟨rfl, rfl⟩
  | error e => cases h

end Calls

/-! ## Calls on a part of an object -/

/-- A call on the attribute that `part` reads and `put` writes. -/
def focus {σ τ α : Type} (part : σ → τ) (put : σ → τ → σ) (x : EStateM PyErr τ α) :
    EStateM PyErr σ α := fun s =>
  match x (part s) with
  | .ok a t => .ok a (put s t)
  | .error e t => .error e (put s t)

section Focus

variable {σ τ α : Type} {part : σ → τ} {put : σ → τ → σ} {x : EStateM PyErr τ α} {s : σ} {t : τ}

theorem focus_ok {a : α} (h : x (part s) = .ok a t) : focus part put x s = .ok a (put s t) := by
  simp only [focus, h]

theorem focus_error {e : PyErr} (h : x (part s) = .error e t) :
    focus part put x s = .error e (put s t) := by
  simp only [focus, h]

theorem focus_eq_ok {a : α} {s' : σ} (h : focus part put x s = .ok a s') :
    ∃ t, x (part s) = .ok a t ∧ s' = put s t := by
  cases hx : x (part s) with
  | ok a' t =>
      rw [focus_ok hx] at h
      cases h
      exact ⟨t, rfl, rfl⟩
  | error e t =>
      rw [focus_error hx] at h
      cases h

theorem after_focus (x : EStateM PyErr τ α) (s : σ) :
    after (focus part put x) s = put s (after x (part s)) := by
  cases h : x (part s) with
  | ok a t => rw [after_ok (focus_ok h), after_ok h]
  | error e t => rw [after_error (focus_error h), after_error h]

end Focus

/-! ## What every call does to the state -/

/-- Every call of `x`, whether it returns or raises, leaves a state
related to the one it started in. -/
def Keeps {σ α : Type} (R : σ → σ → Prop) (x : EStateM PyErr σ α) : Prop :=
  ∀ s, R s (after x s)

section Keeps

variable {σ α β : Type} {R : σ → σ → Prop}

theorem Keeps.of_ok {x : EStateM PyErr σ α} (hx : Keeps R x) {a : α} {s s' : σ}
    (h : x s = .ok a s') : R s s' := after_ok h ▸ hx s

theorem Keeps.of_error {x : EStateM PyErr σ α} (hx : Keeps R x) {e : PyErr} {s s' : σ}
    (h : x s = .error e s') : R s s' := after_error h ▸ hx s

theorem keeps_bind [IsTrans σ R] {x : EStateM PyErr σ α} {f : α → EStateM PyErr σ β}
    (hx : Keeps R x) (hf : ∀ a, Keeps R (f a)) : Keeps R (x >>= f) := fun s => by
  cases h : x s with
  | ok a s' =>
      rw [after, bind_ok h]
      exact trans_of R (hx.of_ok h) (hf a s')
  | error e s' =>
      rw [after, bind_error h]
      exact hx.of_error h

variable [Std.Refl R]

theorem keeps_pure (a : α) : Keeps R (pure a : EStateM PyErr σ α) := fun s => refl_of R s

theorem keeps_throw (e : PyErr) : Keeps R (throw e : EStateM PyErr σ α) := fun s => refl_of R s

theorem keeps_get : Keeps R (get : EStateM PyErr σ σ) := fun s => refl_of R s

theorem keeps_eval (x : Except PyErr α) : Keeps R (eval x : EStateM PyErr σ α) := fun s => by
  cases x <;> exact refl_of R s

theorem keeps_foldlM [IsTrans σ R] {f : β → α → EStateM PyErr σ β} (hf : ∀ b a, Keeps R (f b a)) :
    ∀ (l : List α) (b : β), Keeps R (l.foldlM f b)
  | [], b => by
      rw [List.foldlM_nil]
      exact keeps_pure b
  | a :: l, b => by
      rw [List.foldlM_cons]
      exact keeps_bind (hf b a) fun b' => keeps_foldlM hf l b'

end Keeps

/-! ## Calls that return -/

/-- The call returns, and its value and what it leaves are as `Q` says. -/
def Returns {σ α : Type} (x : EStateM PyErr σ α) (s : σ) (Q : α → σ → Prop) : Prop :=
  ∃ a s', x s = .ok a s' ∧ Q a s'

section Returns

variable {σ τ α β : Type} {x : EStateM PyErr σ α} {f : α → EStateM PyErr σ β} {s : σ}
  {Q : α → σ → Prop} {R : β → σ → Prop}

theorem returns_iff : Returns x s (fun _ _ => True) ↔ ∃ a, returned x s = some a := by
  constructor
  · rintro ⟨a, s', hx, -⟩
    exact ⟨a, returned_ok hx⟩
  · rintro ⟨a, hx⟩
    exact ⟨a, _, ok_of_returned hx, trivial⟩

theorem Returns.of_ok (hx : Returns x s Q) {a : α} {s' : σ} (h : x s = .ok a s') : Q a s' := by
  obtain ⟨a', s'', hx', hQ⟩ := hx
  cases h.symm.trans hx'
  exact hQ

theorem Returns.mono {Q' : α → σ → Prop} (hx : Returns x s Q) (h : ∀ a s', Q a s' → Q' a s') :
    Returns x s Q' := by
  obtain ⟨a, s', hx, hQ⟩ := hx
  exact ⟨a, s', hx, h a s' hQ⟩

/-- What holds of the state left, whichever way it was left. -/
theorem Returns.keeps {P : σ → σ → Prop} (hx : Returns x s Q) (hP : Keeps P x) :
    Returns x s fun a s' => Q a s' ∧ P s s' := by
  obtain ⟨a, s', hx, hQ⟩ := hx
  exact ⟨a, s', hx, hQ, hP.of_ok hx⟩

theorem returns_pure {a : α} (h : Q a s) : Returns (pure a) s Q := ⟨a, s, rfl, h⟩

theorem returns_modify {g : σ → σ} {Q : Unit → σ → Prop} (h : Q () (g s)) :
    Returns (modify g) s Q := ⟨(), g s, rfl, h⟩

theorem Returns.bind (hx : Returns x s Q) (hf : ∀ a s', Q a s' → Returns (f a) s' R) :
    Returns (x >>= f) s R := by
  obtain ⟨a, s', hx, hQ⟩ := hx
  obtain ⟨b, s'', hf, hR⟩ := hf a s' hQ
  exact ⟨b, s'', (bind_ok hx).trans hf, hR⟩

theorem Returns.of_get {f : σ → EStateM PyErr σ β} (h : Returns (f s) s R) :
    Returns (get >>= f) s R := h

theorem returns_ite {c : Prop} [Decidable c] {y : EStateM PyErr σ α} (hx : c → Returns x s Q)
    (hy : ¬c → Returns y s Q) : Returns (if c then x else y) s Q := by
  split
  · next hc => exact hx hc
  · next hc => exact hy hc

theorem Returns.focus {part : σ → τ} {put : σ → τ → σ} {y : EStateM PyErr τ α}
    {Q : α → τ → Prop} {R : α → σ → Prop} (hy : Returns y (part s) Q)
    (hR : ∀ a t, Q a t → R a (put s t)) : Returns (focus part put y) s R := by
  obtain ⟨a, t, hy, hQ⟩ := hy
  exact ⟨a, put s t, focus_ok hy, hR a t hQ⟩

end Returns

end Python
