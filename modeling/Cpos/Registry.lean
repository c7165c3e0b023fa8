import Mathlib.Data.List.Nodup
import Mathlib.Logic.Function.Basic

/-!
# A list and a dictionary kept in step

A list of keys without duplicates beside a dictionary whose keys are
exactly those of the list (`InStep`): the list gives an order, the
dictionary a value for each entry. The dictionary is a function to
`Option`, written with `Function.update`. The lemmas say which pairs of
writes keep the two in step, and that a lookup of a listed key succeeds
(`InStep.lookup`).
-/

namespace Registry

variable {κ ν : Type} {keys : List κ} {d d' : κ → Option ν} {k : κ}

structure InStep (keys : List κ) (d : κ → Option ν) : Prop where
  nodup : keys.Nodup
  isSome_iff : ∀ k, (d k).isSome ↔ k ∈ keys

theorem inStep_nil : InStep ([] : List κ) (fun _ => (none : Option ν)) :=
  ⟨List.nodup_nil, fun k => by simp⟩

theorem InStep.lookup (h : InStep keys d) (hk : k ∈ keys) : ∃ v, d k = some v :=
  Option.isSome_iff_exists.mp ((h.isSome_iff k).mpr hk)

/-- Only the keys of the dictionary matter. -/
theorem InStep.congr (h : InStep keys d) (hd : ∀ k, (d' k).isSome = (d k).isSome) :
    InStep keys d' :=
  ⟨h.nodup, fun k => by rw [hd, h.isSome_iff]⟩

section Update

variable [DecidableEq κ]

theorem InStep.set (h : InStep keys d) (hk : k ∈ keys) (v : ν) :
    InStep keys (Function.update d k (some v)) := by
  refine h.congr fun k' => ?_
  rcases eq_or_ne k' k with rfl | hne
  · rw [Function.update_self, (h.isSome_iff k').mpr hk]
    rfl
  · rw [Function.update_of_ne hne]

theorem InStep.add (h : InStep keys d) (hk : k ∉ keys) (v : ν) :
    InStep (keys ++ [k]) (Function.update d k (some v)) where
  nodup := List.Nodup.append h.nodup (List.nodup_singleton k) (by simpa using hk)
  isSome_iff k' := by
    rw [List.mem_append, List.mem_singleton]
    rcases eq_or_ne k' k with rfl | hne
    · rw [Function.update_self]
      exact iff_of_true rfl (.inr rfl)
    · rw [Function.update_of_ne hne, h.isSome_iff]
      exact ⟨.inl, fun hmem => hmem.resolve_right hne⟩

theorem InStep.remove [BEq κ] [LawfulBEq κ] (h : InStep keys d) (k : κ) :
    InStep (keys.erase k) (Function.update d k none) where
  nodup := h.nodup.erase k
  isSome_iff k' := by
    rw [h.nodup.mem_erase_iff]
    rcases eq_or_ne k' k with rfl | hne
    · rw [Function.update_self]
      exact iff_of_false (by simp) fun hmem => hmem.1 rfl
    · rw [Function.update_of_ne hne, h.isSome_iff]
      exact (and_iff_right hne).symm

end Update

/-! ## Properties of all values -/

/-- Every value of the dictionary has the property. -/
def Values (P : ν → Prop) (d : κ → Option ν) : Prop := ∀ k v, d k = some v → P v

section Values

variable {P : ν → Prop} [DecidableEq κ]

theorem Values.set (h : Values P d) {v : ν} (hv : P v) :
    Values P (Function.update d k (some v)) := by
  intro k' v' h'
  rcases eq_or_ne k' k with rfl | hne
  · rw [Function.update_self] at h'
    exact Option.some.inj h' ▸ hv
  · rw [Function.update_of_ne hne] at h'
    exact h k' v' h'

theorem Values.remove (h : Values P d) : Values P (Function.update d k none) := by
  intro k' v' h'
  rcases eq_or_ne k' k with rfl | hne
  · rw [Function.update_self] at h'
    cases h'
  · rw [Function.update_of_ne hne] at h'
    exact h k' v' h'

end Values

end Registry
