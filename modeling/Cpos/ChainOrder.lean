import Mathlib.Data.List.Lex
import Cpos.LinkedChain

/-!
# Comparing chains

Two consequences of the replacement rule, over any type of blocks.

- *Siblings* (`blocks_offer_offer`): of two acceptable blocks for one
  position, the one offered second takes the place of the first exactly if
  it is another block with a smaller key. So which of the two is left
  depends on the order where keys are equal, and only there
  (`firstOf_comm_iff`).
- *Improvement* (`graft_improves`): a sequence is better than another if
  it extends it, or has the smaller key at the first position where the
  two differ (`improves_iff`). This is a strict order on sequences of any
  lengths, and a graft goes up in it, however much of the chain it drops.
  A run of steps that stay or go up never comes back to what it has left
  (`eq_of_returned`).
-/

namespace LinkedChain

variable {α β ι κ : Type} {R : Rules β ι κ}

/-! ## Siblings -/

section Siblings

variable [LinearOrder κ] {c : Chain R} {a b : β}

/-- On the chain with `a`, its sibling `b` meets `a` and nothing else. -/
theorem accepts_offer_iff (ha : c.Accepts a) (hb : c.Accepts b) (hpos : R.pos a = R.pos b) :
    (c.offer a).Accepts b ↔ R.ident b ≠ R.ident a ∧ R.key b < R.key a := by
  obtain ⟨⟨hfresh, p, hp, hf⟩, -⟩ := id hb
  have hlen := (List.getElem?_eq_some_iff.mp hp).1
  have hsucc := R.pos_follows hf
  have htake : (c.blocks.take (R.pos b)).length = R.pos b := by
    rw [List.length_take]
    omega
  have hat : (c.offer a).blocks[R.pos b]? = some a := by
    rw [Chain.offer_of_accepts ha, Chain.blocks_graft, hpos,
      List.getElem?_append_right (by omega), htake, Nat.sub_self]
    rfl
  have hparent : (c.offer a).blocks[R.pos b - 1]? = some p := by
    rw [Chain.offer_of_accepts ha, Chain.blocks_graft, hpos,
      List.getElem?_append_left (by omega), List.getElem?_take, if_pos (by omega), hp]
  have hnew : R.ident b ∉ (c.offer a).blocks.map R.ident ↔ R.ident b ≠ R.ident a := by
    have hold : R.ident b ∉ (c.blocks.take (R.pos b)).map R.ident := by
      rw [List.map_take]
      exact fun hmem => hfresh (List.mem_of_mem_take hmem)
    rw [Chain.offer_of_accepts ha, Chain.blocks_graft, hpos, List.map_append, List.mem_append,
      or_iff_right hold, List.map_singleton, List.mem_singleton]
  constructor
  · rintro ⟨⟨hfresh', -⟩, hbeats⟩
    exact ⟨hnew.mp hfresh', hbeats a hat⟩
  · rintro ⟨hne, hlt⟩
    refine ⟨⟨hnew.mpr hne, p, hparent, hf⟩, fun q hq => ?_⟩
    obtain rfl := Option.some.inj (hat.symm.trans hq)
    exact hlt

/-- Which of two siblings is left, when `a` is offered first. -/
def firstOf [DecidableEq ι] (R : Rules β ι κ) (a b : β) : β :=
  if R.ident b ≠ R.ident a ∧ R.key b < R.key a then b else a

theorem blocks_offer_offer [DecidableEq ι] (ha : c.Accepts a) (hb : c.Accepts b)
    (hpos : R.pos a = R.pos b) :
    ((c.offer a).offer b).blocks = c.blocks.take (R.pos a) ++ [firstOf R a b] := by
  rw [firstOf]
  split
  · next h =>
    have hacc := (accepts_offer_iff ha hb hpos).mpr h
    rw [Chain.offer_of_accepts hacc, Chain.blocks_graft, Chain.offer_of_accepts ha,
      Chain.blocks_graft, ← hpos, List.take_append_of_le_length, List.take_take, Nat.min_self]
    obtain ⟨⟨-, p, hp, hf⟩, -⟩ := ha
    have hlen := (List.getElem?_eq_some_iff.mp hp).1
    have hsucc := R.pos_follows hf
    rw [List.length_take]
    omega
  · next h =>
    have hacc := mt (accepts_offer_iff ha hb hpos).mp h
    rw [Chain.offer_of_not_accepts hacc, Chain.offer_of_accepts ha, Chain.blocks_graft]

/-- Two different blocks, which are told apart by their identity where
their keys differ, are chosen between independently of the order exactly
if their keys differ. -/
theorem firstOf_comm_iff [DecidableEq ι] (hne : a ≠ b)
    (hident : R.key a ≠ R.key b → R.ident a ≠ R.ident b) :
    firstOf R a b = firstOf R b a ↔ R.key a ≠ R.key b := by
  rcases lt_trichotomy (R.key a) (R.key b) with hlt | heq | hgt
  · rw [firstOf, if_neg fun h => lt_asymm hlt h.2, firstOf,
      if_pos ⟨hident (ne_of_lt hlt), hlt⟩]
    exact iff_of_true rfl (ne_of_lt hlt)
  · rw [firstOf, if_neg fun h => absurd h.2 (by rw [heq]; exact lt_irrefl _), firstOf,
      if_neg fun h => absurd h.2 (by rw [heq]; exact lt_irrefl _)]
    exact iff_of_false hne (not_not_intro heq)
  · rw [firstOf, if_pos ⟨(hident (ne_of_gt hgt)).symm, hgt⟩, firstOf,
      if_neg fun h => lt_asymm hgt h.2]
    exact iff_of_true rfl (ne_of_gt hgt)

end Siblings

/-! ## Better sequences -/

section Improvement

/-- `l'` is better than `l`: lexicographically, with the smaller key
above. -/
def Improves [LT κ] (key : α → κ) (l l' : List α) : Prop :=
  List.Lex (fun a b => key b < key a) l l'

/-- It extends `l`, or has the smaller key where the two first differ. -/
theorem improves_iff [Preorder κ] {key : α → κ} {l l' : List α} :
    Improves key l l' ↔
      (∃ x t, l' = l ++ x :: t) ∨
        ∃ front a b t t', l = front ++ a :: t ∧ l' = front ++ b :: t' ∧ key b < key a := by
  constructor
  · intro h
    induction h with
    | @nil x t => exact .inl ⟨x, t, rfl⟩
    | @cons x l l' _ ih =>
        rcases ih with ⟨y, t, rfl⟩ | ⟨front, a, b, t, t', rfl, rfl, hlt⟩
        · exact .inl ⟨y, t, rfl⟩
        · exact .inr ⟨x :: front, a, b, t, t', rfl, rfl, hlt⟩
    | @rel a t b t' h => exact .inr ⟨[], a, b, t, t', rfl, rfl, h⟩
  · rintro (⟨x, t, rfl⟩ | ⟨front, a, b, t, t', rfl, rfl, hlt⟩)
    · have h := List.Lex.append_left (fun a b => key b < key a)
        (List.Lex.nil (a := x) (l := t)) l
      rwa [List.append_nil] at h
    · exact List.Lex.append_left (fun a b => key b < key a) (.rel hlt) front

variable [Preorder κ] {key : α → κ} {l l' l'' : List α}

theorem Improves.trans (h : Improves key l l') (h' : Improves key l' l'') :
    Improves key l l'' :=
  List.lex_trans (fun hab hbc => lt_trans hbc hab) h h'

theorem improves_irrefl (key : α → κ) (l : List α) : ¬Improves key l l :=
  List.lex_irrefl (fun a => lt_irrefl (key a)) l

/-- A proper prefix is worse. -/
theorem improves_take {n : Nat} (h : n < l.length) : Improves key (l.take n) l := by
  refine improves_iff.mpr (.inl ⟨l[n], l.drop (n + 1), ?_⟩)
  rw [← List.drop_eq_getElem_cons h, List.take_append_drop]

theorem Improves.map {γ : Type} {key' : γ → κ} {g : α → γ} (hkey : ∀ a, key' (g a) = key a)
    (h : Improves key l l') : Improves key' (l.map g) (l'.map g) := by
  induction h with
  | nil => exact .nil
  | cons _ ih => exact .cons ih
  | rel h => exact .rel (by rw [hkey, hkey]; exact h)

/-- A graft improves the chain. -/
theorem graft_improves {R : Rules α ι κ} {c : Chain R} {b : α} (h : c.Accepts b) :
    Improves R.key c.blocks (c.graft b h.1).blocks := by
  rw [Chain.blocks_graft]
  conv_lhs => rw [← List.take_append_drop (R.pos b) c.blocks]
  refine List.Lex.append_left _ ?_ _
  cases hdrop : c.blocks.drop (R.pos b) with
  | nil => exact .nil
  | cons q t =>
      refine .rel (h.2 q ?_)
      have := congrArg List.head? hdrop
      rwa [List.head?_drop] at this

/-! ## Runs that stay or go up -/

section Run

variable {f : Nat → List α} {n : Nat}
  (hstep : ∀ i < n, f (i + 1) = f i ∨ Improves key (f i) (f (i + 1)))
include hstep

/-- The run lemma: later is the same or better. -/
theorem eq_or_improves {i j : Nat} (hij : i ≤ j) (hj : j ≤ n) :
    f j = f i ∨ Improves key (f i) (f j) := by
  induction j, hij using Nat.le_induction with
  | base => exact .inl rfl
  | succ j hij ih =>
      rcases ih (by omega) with heq | hlt
      · rw [← heq]
        exact hstep j hj
      · rcases hstep j hj with heq | hlt'
        · exact .inr (heq ▸ hlt)
        · exact .inr (hlt.trans hlt')

/-- What is left is not returned to. -/
theorem eq_of_returned {i j k : Nat} (hij : i ≤ j) (hjk : j ≤ k) (hk : k ≤ n)
    (heq : f k = f i) : f j = f i := by
  rcases eq_or_improves hstep hij (by omega) with hsame | hlt
  · exact hsame
  · rcases eq_or_improves hstep hjk hk with hsame | hlt'
    · rw [← hsame, heq]
    · rw [heq] at hlt'
      exact absurd (hlt.trans hlt') (improves_irrefl key _)

end Run

end Improvement

end LinkedChain
