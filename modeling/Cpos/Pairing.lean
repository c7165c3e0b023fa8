import Mathlib.Algebra.Order.Group.Nat
import Mathlib.Algebra.Order.Ring.Nat
import Mathlib.Data.List.Basic
import Mathlib.Tactic.Ring

/-!
# Reducing a list by pairs

A list is reduced by combining adjacent elements with `f`, level by level,
until one is left (`root`).

- `levels_eq_singleton`: on `2 ^ d` elements that is after `d` levels.
- `levels_inj`: two lists of one length with equal levels are equal,
  provided `f` tells apart the pairs it was given for them (`inputs`).
  Nothing is asked of `f` elsewhere, so it may be a hash.
- `InPlace` is the invariant of a reduction that works in one list: level
  `r` sits at the multiples of `2 ^ r`, and a pair is combined into the
  slot of its first element, so that the list ends up `Overwritten` in
  even slots. `InPlace.store` is one such step,
  `InPlace.next` the change of level and `InPlace.root` the result.
-/

namespace Pairing

variable {α : Type*}

/-! ## Levels -/

/-- The adjacent pairs; a last element without a partner is dropped. -/
def pairs : List α → List (α × α)
  | a :: b :: l => (a, b) :: pairs l
  | _ => []

def level (f : α → α → α) (l : List α) : List α :=
  (pairs l).map fun p => f p.1 p.2

/-- What is left of `l` after `r` levels. -/
def levels (f : α → α → α) : Nat → List α → List α
  | 0, l => l
  | r + 1, l => levels f r (level f l)

@[simp] theorem pairs_length : ∀ l : List α, (pairs l).length = l.length / 2
  | [] => by simp [pairs]
  | [_] => by simp [pairs]
  | a :: b :: l => by
      simp only [pairs, List.length_cons, pairs_length l]
      omega

@[simp] theorem level_length (f : α → α → α) (l : List α) : (level f l).length = l.length / 2 := by
  rw [level, List.length_map, pairs_length]

/-- The one element that combining all levels leaves; none for `[]`. -/
def root (f : α → α → α) : List α → Option α
  | [] => none
  | [a] => some a
  | a :: b :: l => root f (level f (a :: b :: l))
termination_by l => l.length
decreasing_by
  simp only [level_length, List.length_cons]
  omega

theorem pairs_getElem? : ∀ (l : List α) (i : Nat) {p : α × α},
    (pairs l)[i]? = some p ↔ l[2 * i]? = some p.1 ∧ l[2 * i + 1]? = some p.2
  | [], i, p => by simp [pairs]
  | [a], i, p => by simp [pairs]
  | a :: b :: l, 0, p => by simp [pairs, Prod.ext_iff]
  | a :: b :: l, i + 1, p => by
      rw [pairs, List.getElem?_cons_succ, pairs_getElem? l i,
        show 2 * (i + 1) = 2 * i + 1 + 1 by ring]
      simp only [List.getElem?_cons_succ]

theorem mem_of_mem_pairs {l : List α} {p : α × α} (h : p ∈ pairs l) : p.1 ∈ l ∧ p.2 ∈ l := by
  obtain ⟨i, hi⟩ := List.mem_iff_getElem?.mp h
  obtain ⟨ha, hb⟩ := (pairs_getElem? l i).mp hi
  exact ⟨List.mem_of_getElem? ha, List.mem_of_getElem? hb⟩

/-- Where no element is left over, the pairs determine the list. -/
theorem pairs_inj {l l' : List α} (hl : 2 ∣ l.length) (hlen : l.length = l'.length)
    (h : pairs l = pairs l') : l = l' := by
  refine List.ext_getElem? fun i => ?_
  rcases Nat.lt_or_ge i l.length with hi | hi
  · obtain ⟨p, hpair⟩ : ∃ p, (pairs l)[i / 2]? = some p :=
      ⟨_, List.getElem?_eq_getElem (by rw [pairs_length]; omega)⟩
    obtain ⟨ha, hb⟩ := (pairs_getElem? l (i / 2)).mp hpair
    obtain ⟨ha', hb'⟩ := (pairs_getElem? l' (i / 2)).mp (by rw [← h, hpair])
    rcases Nat.even_or_odd' i with ⟨k, rfl | rfl⟩
    · rw [Nat.mul_div_cancel_left _ (by decide)] at ha ha'
      rw [ha, ha']
    · rw [show (2 * k + 1) / 2 = k by omega] at hb hb'
      rw [hb, hb']
  · rw [List.getElem?_eq_none hi, List.getElem?_eq_none (by omega)]

section Levels

variable {f : α → α → α} {l l' : List α} {d r : Nat}

theorem levels_add (r s : Nat) (l : List α) : levels f (r + s) l = levels f s (levels f r l) := by
  induction r generalizing l with
  | zero => rw [Nat.zero_add]; rfl
  | succ r ih => rw [Nat.add_right_comm, levels, ih, levels]

theorem levels_succ (r : Nat) (l : List α) : levels f (r + 1) l = level f (levels f r l) :=
  levels_add r 1 l

theorem levels_length (hl : l.length = 2 ^ d) (hr : r ≤ d) :
    (levels f r l).length = 2 ^ (d - r) := by
  induction r with
  | zero => exact hl
  | succ r ih =>
      rw [levels_succ, level_length, ih (by omega), show d - r = d - (r + 1) + 1 by omega, pow_succ,
        Nat.mul_div_cancel _ (by decide)]

theorem levels_length_le (r : Nat) (l : List α) : (levels f r l).length ≤ l.length := by
  induction r with
  | zero => rfl
  | succ r ih =>
      rw [levels_succ, level_length]
      omega

/-- **`2 ^ d` elements leave one after `d` levels**, the root. -/
theorem levels_eq_singleton (f : α → α → α) (hl : l.length = 2 ^ d) :
    ∃ a, levels f d l = [a] ∧ root f l = some a := by
  induction d generalizing l with
  | zero =>
      obtain ⟨a, rfl⟩ := List.length_eq_one_iff.mp hl
      exact ⟨a, rfl, by rw [root]⟩
  | succ d ih =>
      obtain ⟨a, h, hroot⟩ := ih (l := level f l) (by
        rw [level_length, hl, pow_succ, Nat.mul_div_cancel _ (by decide)])
      refine ⟨a, h, ?_⟩
      match l, hl with
      | [], hl => exact absurd hl.symm (by simp)
      | [_], hl =>
          rw [pow_succ] at hl
          exact absurd hl (by simp only [List.length_singleton]; omega)
      | _ :: _ :: _, _ => rw [root, hroot]

theorem root_levels (hl : l.length = 2 ^ d) (hr : r ≤ d) : root f (levels f r l) = root f l := by
  obtain ⟨a, ha, hroot⟩ := levels_eq_singleton f hl
  obtain ⟨b, hb, hroot'⟩ := levels_eq_singleton f (levels_length (f := f) hl hr)
  rw [← levels_add, Nat.add_sub_cancel' hr, ha] at hb
  rw [hroot, hroot', List.cons.inj hb |>.1]

/-- Equal roots are equal last levels. -/
theorem levels_eq_of_root_eq (hl : l.length = 2 ^ d) (hl' : l'.length = 2 ^ d)
    (h : root f l = root f l') : levels f d l = levels f d l' := by
  obtain ⟨a, ha, hroot⟩ := levels_eq_singleton f hl
  obtain ⟨b, hb, hroot'⟩ := levels_eq_singleton f hl'
  rw [hroot, hroot'] at h
  rw [ha, hb, Option.some.inj h]

/-- The root is combined from the two elements of the level below it. -/
theorem root_of_pair (f : α → α → α) (hl : l.length = 2 ^ (d + 1)) :
    ∃ p, pairs (levels f d l) = [p] ∧ root f l = some (f p.1 p.2) := by
  obtain ⟨a, htop, hroot⟩ := levels_eq_singleton f hl
  rw [levels_succ, level, List.map_eq_singleton_iff] at htop
  obtain ⟨p, hpairs, rfl⟩ := htop
  exact ⟨p, hpairs, hroot⟩

/-! ## The pairs that were combined -/

/-- All pairs given to `f` over `d` levels, in order. -/
def inputs (f : α → α → α) (d : Nat) (l : List α) : List (α × α) :=
  (List.range d).flatMap fun r => pairs (levels f r l)

theorem inputs_succ (d : Nat) (l : List α) :
    inputs f (d + 1) l = inputs f d l ++ pairs (levels f d l) := by
  simp [inputs, List.range_succ]

theorem mem_inputs {p : α × α} : p ∈ inputs f d l ↔ ∃ r < d, p ∈ pairs (levels f r l) := by
  simp [inputs]

theorem inputs_levels {p : α × α} (h : p ∈ inputs f d (levels f r l)) :
    p ∈ inputs f (r + d) l := by
  obtain ⟨s, hs, hp⟩ := mem_inputs.mp h
  exact mem_inputs.mpr ⟨r + s, by omega, by rwa [levels_add]⟩

/-- If `f` tells apart the pairs of both lists, equal levels come from
equal pairs. -/
theorem level_inj (hl : 2 ∣ l.length) (hlen : l.length = l'.length)
    (hf : ∀ p ∈ pairs l, ∀ q ∈ pairs l', f p.1 p.2 = f q.1 q.2 → p = q)
    (h : level f l = level f l') : l = l' := by
  refine pairs_inj hl hlen ?_
  refine List.ext_getElem (by simp [hlen]) fun i hi hi' => ?_
  have hval := congrArg (·[i]?) h
  simp only [level, List.getElem?_map, List.getElem?_eq_getElem hi, List.getElem?_eq_getElem hi',
    Option.map_some, Option.some.injEq] at hval
  exact hf _ (List.getElem_mem hi) _ (List.getElem_mem hi') hval

/-- **The levels determine the list**, as far as `f` tells apart what it
was given. -/
theorem levels_inj (hl : 2 ^ d ∣ l.length) (hlen : l.length = l'.length)
    (hf : ∀ p ∈ inputs f d l, ∀ q ∈ inputs f d l', f p.1 p.2 = f q.1 q.2 → p = q)
    (h : levels f d l = levels f d l') : l = l' := by
  induction d generalizing l l' with
  | zero => exact h
  | succ d ih =>
      have hbelow : ∀ {m : List α} {p}, p ∈ inputs f d (level f m) → p ∈ inputs f (d + 1) m := by
        intro m p hp
        rw [Nat.add_comm]
        exact inputs_levels (r := 1) hp
      have hfirst : ∀ {m : List α} {p}, p ∈ pairs m → p ∈ inputs f (d + 1) m := fun hp =>
        mem_inputs.mpr ⟨0, by omega, hp⟩
      have hhalf : 2 ^ d ∣ l.length / 2 := by
        refine Nat.dvd_div_of_mul_dvd ?_
        rwa [← pow_succ']
      refine level_inj ((dvd_pow_self 2 (by omega)).trans hl) hlen
        (fun p hp q hq => hf p (hfirst hp) q (hfirst hq)) ?_
      exact ih (by rwa [level_length]) (by simp [hlen])
        (fun p hp q hq => hf p (hbelow hp) q (hbelow hq)) h

end Levels

/-! ## Reducing in place -/

/-- `t` is `l`, except that values of `f` may have come into even slots. -/
structure Overwritten (f : α → α → α) (l t : List α) : Prop where
  length : t.length = l.length
  slot : ∀ i c, t[i]? = some c → l[i]? = some c ∨ 2 ∣ i ∧ ∃ a b, f a b = c

section Overwritten

variable {f : α → α → α} {l t u : List α}

theorem Overwritten.refl (f : α → α → α) (l : List α) : Overwritten f l l where
  length := rfl
  slot _ _ h := .inl h

theorem Overwritten.trans (h : Overwritten f l t) (h' : Overwritten f t u) :
    Overwritten f l u where
  length := h'.length.trans h.length
  slot i c hc := (h'.slot i c hc).elim (h.slot i c) .inr

theorem Overwritten.set (h : Overwritten f l t) {i : Nat} (hi : 2 ∣ i) (a b : α) :
    Overwritten f l (t.set i (f a b)) where
  length := by rw [List.length_set, h.length]
  slot j c hc := by
    rcases eq_or_ne i j with rfl | hne
    · rw [List.getElem?_set_self'] at hc
      obtain ⟨-, -, rfl⟩ := Option.map_eq_some_iff.mp hc
      exact .inr ⟨hi, a, b, rfl⟩
    · rw [List.getElem?_set_ne hne] at hc
      exact h.slot j c hc

end Overwritten

/-- `t` after `k` pairs of level `r` of a reduction of the `2 ^ d`
elements `l`: the pairs done left their value in the slot of the first
element, the elements of the others still sit `2 ^ r` apart. -/
structure InPlace (f : α → α → α) (d : Nat) (l : List α) (r k : Nat) (t : List α) : Prop where
  overwritten : Overwritten f l t
  done : ∀ i < k, t[2 * i * 2 ^ r]? = (levels f (r + 1) l)[i]?
  todo : ∀ i, 2 * k ≤ i → i < 2 ^ (d - r) → t[i * 2 ^ r]? = (levels f r l)[i]?

section InPlace

variable {f : α → α → α} {d r k : Nat} {l t : List α}

theorem inPlace_start (f : α → α → α) (d : Nat) (l : List α) : InPlace f d l 0 0 l where
  overwritten := .refl f l
  done _ hi := absurd hi (Nat.not_lt_zero _)
  todo i _ _ := by rw [pow_zero, mul_one]; rfl

theorem levels_length_even (hl : l.length = 2 ^ d) (hr : r < d) :
    (levels f r l).length = 2 * 2 ^ (d - r - 1) := by
  rw [levels_length hl hr.le, ← pow_succ', show d - r - 1 + 1 = d - r by omega]

/-- The next pair is still in its slots. -/
theorem InPlace.operands (h : InPlace f d l r k t) (hl : l.length = 2 ^ d) (hr : r < d)
    (hk : k < 2 ^ (d - r - 1)) :
    ∃ a b, (pairs (levels f r l))[k]? = some (a, b) ∧ t[2 * k * 2 ^ r]? = some a
      ∧ t[(2 * k + 1) * 2 ^ r]? = some b := by
  have hlen := levels_length_even (f := f) hl hr
  have hwidth : 2 ^ (d - r) = 2 * 2 ^ (d - r - 1) := by rw [← levels_length hl hr.le, hlen]
  have ha : (levels f r l)[2 * k]? = some (levels f r l)[2 * k] :=
    List.getElem?_eq_getElem (by omega)
  have hb : (levels f r l)[2 * k + 1]? = some (levels f r l)[2 * k + 1] :=
    List.getElem?_eq_getElem (by omega)
  refine ⟨_, _, (pairs_getElem? _ k).mpr ⟨ha, hb⟩, ?_, ?_⟩
  · rw [h.todo _ (by omega) (by omega), ha]
  · rw [h.todo _ (by omega) (by omega), hb]

/-- **Combining the next pair in place.** -/
theorem InPlace.store (h : InPlace f d l r k t) {a b : α}
    (hpair : (pairs (levels f r l))[k]? = some (a, b)) (ha : t[2 * k * 2 ^ r]? = some a) :
    InPlace f d l r (k + 1) (t.set (2 * k * 2 ^ r) (f a b)) where
  overwritten := h.overwritten.set ((Nat.dvd_mul_right 2 k).mul_right _) a b
  done i hi := by
    obtain ⟨hslot, -⟩ := List.getElem?_eq_some_iff.mp ha
    rcases Nat.lt_succ_iff_lt_or_eq.mp hi with hlt | rfl
    · have hne : 2 * k * 2 ^ r ≠ 2 * i * 2 ^ r := fun heq => by
        have := Nat.mul_right_cancel (Nat.two_pow_pos r) heq
        omega
      rw [List.getElem?_set_ne hne, h.done i hlt]
    · rw [List.getElem?_set_self hslot, levels_succ, level, List.getElem?_map, hpair]
      rfl
  todo i hi hwidth := by
    have hne : 2 * k * 2 ^ r ≠ i * 2 ^ r := fun heq => by
      have := Nat.mul_right_cancel (Nat.two_pow_pos r) heq
      omega
    rw [List.getElem?_set_ne hne, h.todo i (by omega) hwidth]

/-- A level that is done is the next one, at twice the distance. -/
theorem InPlace.next (h : InPlace f d l r (2 ^ (d - r - 1)) t) :
    InPlace f d l (r + 1) 0 t where
  overwritten := h.overwritten
  done _ hi := absurd hi (Nat.not_lt_zero _)
  todo i _ hi := by
    rw [pow_succ', ← mul_assoc, mul_comm i 2, h.done i (by rwa [Nat.sub_sub])]

theorem InPlace.root (h : InPlace f d l d 0 t) (hl : l.length = 2 ^ d) :
    t[0]? = root f l := by
  obtain ⟨a, hlast, hroot⟩ := levels_eq_singleton f hl
  have hslot := h.todo 0 (Nat.zero_le _) (Nat.two_pow_pos _)
  rw [hlast, zero_mul] at hslot
  rw [hroot, hslot, List.getElem?_cons_zero]

end InPlace

end Pairing
