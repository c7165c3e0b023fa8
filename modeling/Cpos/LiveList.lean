import Mathlib.Data.List.Nodup
import Mathlib.Data.List.Perm.Subperm

/-!
# Walking a list that loses elements

A loop that walks a list by position while its body may remove the
element it is at. The next position then holds the element after the next
one, and the walk passes one over.

`visit` is what the body does to the surroundings, `gone` whether it
removes the element. `walk` is the list of elements visited. With a body
that does nothing for some elements, the walk visits all others exactly
if none of them comes right after one that is removed
(`walk_filter_eq_iff`).
-/

namespace LiveList

variable {α σ : Type} (visit : α → σ → σ) (gone : α → σ → Bool)

/-- The elements that are visited; the first one is passed over if `skip`
is set. -/
def walk : Bool → List α → σ → List α
  | _, [], _ => []
  | true, _ :: xs, s => walk false xs s
  | false, x :: xs, s => x :: walk (gone x s) xs (visit x s)

/-- In a pass over the whole list, no wanted element comes right after a
removal. -/
def NoLoss (wanted : α → Bool) : List α → σ → Prop
  | [], _ => True
  | x :: xs, s =>
      (gone x s = true → ∀ y ∈ xs.head?, wanted y = false) ∧ NoLoss wanted xs (visit x s)

variable {visit gone} {wanted : α → Bool}

/-- Passing one over is walking the tail. -/
theorem walk_skip (skip : Bool) (xs : List α) (s : σ) :
    walk visit gone skip xs s = walk visit gone false (if skip then xs.tail else xs) s := by
  cases skip <;> cases xs <;> rfl

theorem walk_sublist (xs : List α) : ∀ skip s, (walk visit gone skip xs s).Sublist xs := by
  induction xs with
  | nil =>
      intro skip s
      cases skip <;> exact List.Sublist.slnil
  | cons x xs ih =>
      intro skip s
      cases skip with
      | true => exact (ih false s).cons x
      | false => exact (ih _ _).cons_cons x

/-- The walk with and without an element to pass over. What is passed
over must not be wanted. -/
theorem walk_filter_eq (hidle : ∀ x s, wanted x = false → visit x s = s ∧ gone x s = false)
    (xs : List α) : ∀ s,
      ((walk visit gone false xs s).filter wanted = xs.filter wanted ↔
        NoLoss visit gone wanted xs s) ∧
      ((walk visit gone true xs s).filter wanted = xs.filter wanted ↔
        (∀ y ∈ xs.head?, wanted y = false) ∧ NoLoss visit gone wanted xs s) := by
  induction xs with
  | nil => exact fun s => ⟨iff_of_true rfl trivial, iff_of_true rfl ⟨by simp, trivial⟩⟩
  | cons x xs ih =>
      intro s
      constructor
      · obtain ⟨hstay, hskip⟩ := ih (visit x s)
        have hhead : (walk visit gone false (x :: xs) s).filter wanted = (x :: xs).filter wanted
            ↔ (walk visit gone (gone x s) xs (visit x s)).filter wanted = xs.filter wanted := by
          rw [walk, List.filter_cons, List.filter_cons]
          split
          · exact List.cons_eq_cons.trans (and_iff_right rfl)
          · exact Iff.rfl
        rw [hhead, NoLoss]
        cases hgone : gone x s with
        | true => rw [hskip, imp_iff_right rfl]
        | false => rw [hstay, and_iff_right (by simp)]
      · rw [walk]
        simp only [List.head?_cons, Option.mem_some_iff, forall_eq']
        cases hx : wanted x with
        | true =>
            refine iff_of_false (fun heq => ?_) (by simp)
            have hlength := congrArg List.length heq
            rw [List.filter_cons_of_pos hx, List.length_cons] at hlength
            have hshort : ((walk visit gone false xs s).filter wanted).length
                ≤ (xs.filter wanted).length := ((walk_sublist xs false s).filter wanted).length_le
            omega
        | false =>
            obtain ⟨hvisit, hgone⟩ := hidle x s hx
            rw [List.filter_cons_of_neg (by simp [hx]), NoLoss, hvisit, hgone, (ih s).1]
            simp

theorem walk_filter_eq_iff (hidle : ∀ x s, wanted x = false → visit x s = s ∧ gone x s = false)
    (xs : List α) (s : σ) :
    (walk visit gone false xs s).filter wanted = xs.filter wanted ↔
      NoLoss visit gone wanted xs s :=
  (walk_filter_eq hidle xs s).1

/-- A sublist that holds each element of a list without duplicates once
is that list. -/
theorem eq_iff_count [BEq α] [LawfulBEq α] {l xs : List α} (hsub : l.Sublist xs) (hxs : xs.Nodup) :
    l = xs ↔ ∀ x ∈ xs, l.count x = 1 := by
  constructor
  · rintro rfl x hx
    exact List.count_eq_one_of_mem hxs hx
  · intro hcount
    refine hsub.eq_of_length_le (List.Subperm.length_le (List.subperm_of_subset hxs ?_))
    intro x hx
    exact List.count_pos_iff.mp (by rw [hcount x hx]; exact Nat.one_pos)

end LiveList
