import Mathlib.Data.List.Induction
import Mathlib.Data.List.Infix

/-!
# Leases

Something is held until it is not renewed between two expiries. An offer
takes effect only if nothing is held; a renewal does so too, and keeps
what is held. What happens is a list of operations, read as events.

`run_eq_fresh_iff` says when the next expiry leaves the lease, and
`granted_of_run` where what is held came from.
-/

namespace Lease

variable {α ω : Type}

inductive Event (α : Type) where
  | offer (a : α)
  | renew (a : α)
  | expire
  | other

/-- What is held, and whether it is fresh: granted or renewed since the
last expiry. -/
abbrev State (α : Type) := Option (α × Bool)

def step : State α → Event α → State α
  | none, .offer a => some (a, true)
  | none, .renew a => some (a, true)
  | some s, .offer _ => some s
  | some (a, _), .renew _ => some (a, true)
  | some (a, true), .expire => some (a, false)
  | some (_, false), .expire => none
  | none, .expire => none
  | s, .other => s

variable (event : ω → Event α)

def run (ops : List ω) : State α := ops.foldl (fun s op => step s (event op)) none

/-- An operation after which the lease is fresh. -/
def Refreshes (pre : List ω) (op : ω) : Prop :=
  (∃ a, event op = .renew a) ∨ (∃ a, event op = .offer a) ∧ run event pre = none

/-- There was one since the last expiry. -/
def Renewed (ops : List ω) : Prop :=
  ∃ pre op suf, ops = pre ++ op :: suf ∧ (∀ o ∈ suf, event o ≠ .expire) ∧ Refreshes event pre op

/-- The operation that granted what is held, which it has been since. -/
def Granted (ops : List ω) (a : α) : Prop :=
  ∃ pre op suf, ops = pre ++ op :: suf ∧ (event op = .offer a ∨ event op = .renew a) ∧
    run event pre = none ∧ ∀ suf', suf' <+: suf → (run event (pre ++ op :: suf')).isSome

variable {event} {ops : List ω} {op : ω} {a : α} {fresh : Bool}

theorem run_concat : run event (ops ++ [op]) = step (run event ops) (event op) := by
  rw [run, List.foldl_append]
  rfl

theorem renewed_concat :
    Renewed event (ops ++ [op]) ↔
      Refreshes event ops op ∨ event op ≠ .expire ∧ Renewed event ops := by
  constructor
  · rintro ⟨pre, o, suf, heq, hsuf, hrefreshes⟩
    rcases List.eq_nil_or_concat' suf with rfl | ⟨suf, o', rfl⟩
    · obtain ⟨rfl, rfl⟩ := List.append_singleton_inj.mp heq
      exact .inl hrefreshes
    · rw [← List.cons_append, ← List.append_assoc] at heq
      obtain ⟨rfl, rfl⟩ := List.append_singleton_inj.mp heq
      exact .inr ⟨hsuf op (by simp), pre, o, suf, rfl, fun o ho => hsuf o (by simp [ho]),
        hrefreshes⟩
  · rintro (hrefreshes | ⟨hop, pre, o, suf, rfl, hsuf, hrefreshes⟩)
    · exact ⟨ops, op, [], rfl, by simp, hrefreshes⟩
    · refine ⟨pre, o, suf ++ [op], by simp, fun o' ho' => ?_, hrefreshes⟩
      rcases List.mem_append.mp ho' with hmem | hmem
      · exact hsuf o' hmem
      · rwa [List.mem_singleton.mp hmem]

/-- The lease is fresh exactly if it was renewed, or granted, since the
last expiry. -/
theorem run_eq_fresh_iff (ops : List ω) :
    (∃ a, run event ops = some (a, true)) ↔ Renewed event ops := by
  induction ops using List.reverseRecOn with
  | nil =>
      refine iff_of_false (fun ⟨a, h⟩ => by cases h) ?_
      rintro ⟨pre, op, suf, heq, -⟩
      simp at heq
  | append_singleton ops op ih =>
      rw [renewed_concat, ← ih, Refreshes, run_concat]
      cases hop : event op <;> rcases hrun : run event ops with _ | ⟨a, _ | _⟩ <;> simp [step]

theorem isSome_expired (hop : event op = .expire) :
    (run event (ops ++ [op])).isSome ↔ Renewed event ops := by
  rw [← run_eq_fresh_iff, run_concat, hop]
  rcases run event ops with _ | ⟨a, _ | _⟩ <;> simp [step]

/-- What is held was granted, and has been held since. -/
theorem granted_of_run : ∀ {fresh : Bool}, run event ops = some (a, fresh) →
    Granted event ops a := by
  induction ops using List.reverseRecOn with
  | nil =>
      intro fresh h
      cases h
  | append_singleton ops op ih =>
      intro fresh h
      have hstep := h
      rw [run_concat] at hstep
      rcases hrun : run event ops with _ | ⟨a', fresh'⟩
      · refine ⟨ops, op, [], rfl, ?_, hrun, fun suf' hsuf' => ?_⟩
        · rw [hrun] at hstep
          cases hop : event op <;> rw [hop] at hstep <;> cases hstep
          · exact .inl rfl
          · exact .inr rfl
        · rw [List.prefix_nil.mp hsuf', h]
          rfl
      · have hsame : a' = a := by
          rw [hrun] at hstep
          cases hop : event op <;> cases fresh' <;> rw [hop] at hstep <;> cases hstep <;> rfl
        obtain ⟨pre, o, suf, rfl, ho, hpre, hheld⟩ := ih (hsame ▸ hrun)
        refine ⟨pre, o, suf ++ [op], by simp, ho, hpre, fun suf' hsuf' => ?_⟩
        rcases List.prefix_concat_iff.mp hsuf' with rfl | hprefix
        · rw [← List.cons_append, ← List.append_assoc, h]
          rfl
        · exact hheld suf' hprefix

end Lease
