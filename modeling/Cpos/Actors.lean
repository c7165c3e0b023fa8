import Mathlib.Algebra.BigOperators.Group.Finset.Basic
import Mathlib.Algebra.GroupWithZero.Nat
import Mathlib.Logic.Relation

/-!
# Parties that exchange messages

A system of parties, each with a state of its own and an address. A party
moves by itself or on a message that is under way to its address, and
posts messages; the network hands them over in any order, or loses them.
What a move can do is a relation, the parameter of everything here.

Properties of all runs are proved from single moves, in three ways:

- `LeadsTo.holds`: a property of every party and one of every message
  under way, kept by every move. Both may speak of the whole
  configuration, if they are not undone by the moves of others.
- `LeadsTo.budget`: messages that are charged to a party. If a move costs
  no more than it is given, the charge under way stays within what the
  state of the party allows. `LeadsTo.total` is the same for all parties
  together, and `Delivers.balance` for what has to be there, in runs
  without losses.
- `Once`: what was the case in an earlier configuration of the run.
-/

namespace Actors

variable {ι α σ μ : Type}

structure Envelope (α μ : Type) where
  sender : α
  dest : α
  msg : μ

/-- Where each party is reached, and what it can do: `Move i s input s' posts`
if in state `s`, having read `input` (a message and its sender), party
`i` can go to `s'` and post messages to these addresses. -/
structure Parties (ι α σ μ : Type) where
  address : ι → α
  Move : ι → σ → Option (α × μ) → σ → List (α × μ) → Prop

structure Config (ι α σ μ : Type) where
  party : ι → σ
  underWay : List (Envelope α μ)

/-- What is left under way when the input has been read at an address. -/
def Takes (dest : α) (underWay : List (Envelope α μ)) :
    Option (α × μ) → List (Envelope α μ) → Prop
  | none, rest => rest = underWay
  | some (sender, msg), rest => underWay.Perm (⟨sender, dest, msg⟩ :: rest)

/-- Posts on their way. -/
def posted (sender : α) (posts : List (α × μ)) : List (Envelope α μ) :=
  posts.map fun p => ⟨sender, p.1, p.2⟩

theorem mem_posted {sender : α} {posts : List (α × μ)} {e : Envelope α μ} :
    e ∈ posted sender posts ↔ e.sender = sender ∧ (e.dest, e.msg) ∈ posts := by
  simp only [posted, List.mem_map, Prod.exists]
  constructor
  · rintro ⟨dest, msg, hmem, rfl⟩
    exact ⟨rfl, hmem⟩
  · rintro ⟨rfl, hmem⟩
    exact ⟨e.dest, e.msg, hmem, rfl⟩

theorem posted_length {sender : α} {posts : List (α × μ)} :
    (posted sender posts).length = posts.length := List.length_map ..

theorem posted_append {sender : α} (posts posts' : List (α × μ)) :
    posted sender (posts ++ posts') = posted sender posts ++ posted sender posts' :=
  List.map_append ..

/-- Party `i` has moved from `C` to `C'`: it has read `input`, which
leaves `rest` under way, and posted `posts`. -/
structure Moves (P : Parties ι α σ μ) (C : Config ι α σ μ) (i : ι) (input : Option (α × μ))
    (rest : List (Envelope α μ)) (posts : List (α × μ)) (C' : Config ι α σ μ) : Prop where
  takes : Takes (P.address i) C.underWay input rest
  move : P.Move i (C.party i) input (C'.party i) posts
  others : ∀ j ≠ i, C'.party j = C.party j
  underWay : C'.underWay = rest ++ posted (P.address i) posts

inductive Step (P : Parties ι α σ μ) (C C' : Config ι α σ μ) : Prop
  | moves {i : ι} {input : Option (α × μ)} {rest : List (Envelope α μ)} {posts : List (α × μ)}
      (h : Moves P C i input rest posts C')
  | loses {e : Envelope α μ} (h : C.underWay.Perm (e :: C'.underWay)) (hparty : C'.party = C.party)

def LeadsTo (P : Parties ι α σ μ) : Config ι α σ μ → Config ι α σ μ → Prop :=
  Relation.ReflTransGen (Step P)

variable {P : Parties ι α σ μ} {C₀ C C' : Config ι α σ μ} {i : ι} {input : Option (α × μ)}
  {rest : List (Envelope α μ)} {posts : List (α × μ)}

/-! ## Moves -/

theorem Takes.subset {dest : α} {underWay : List (Envelope α μ)} :
    ∀ {input : Option (α × μ)}, Takes dest underWay input rest → rest ⊆ underWay
  | none, h => by
      obtain rfl : rest = underWay := h
      exact List.Subset.refl _
  | some _, h => fun _ he => h.symm.subset (List.mem_cons_of_mem _ he)

theorem Takes.mem {dest sender : α} {msg : μ} {underWay : List (Envelope α μ)}
    (h : Takes dest underWay (some (sender, msg)) rest) : ⟨sender, dest, msg⟩ ∈ underWay :=
  h.symm.subset List.mem_cons_self

theorem Moves.mem {sender : α} {msg : μ} (h : Moves P C i (some (sender, msg)) rest posts C') :
    ⟨sender, P.address i, msg⟩ ∈ C.underWay := h.takes.mem

/-- A message under way was left there or has just been posted. -/
theorem Moves.underWay_cases (h : Moves P C i input rest posts C') {e : Envelope α μ}
    (he : e ∈ C'.underWay) :
    e ∈ rest ∨ e.sender = P.address i ∧ (e.dest, e.msg) ∈ posts := by
  rw [h.underWay] at he
  exact (List.mem_append.mp he).imp_right mem_posted.mp

theorem Moves.step (h : Moves P C i input rest posts C') : Step P C C' := .moves h

/-! ## Properties of parties and messages -/

/-- Every party and every message under way is as it should be. -/
structure Config.Holds (I : Config ι α σ μ → ι → σ → Prop)
    (J : Config ι α σ μ → Envelope α μ → Prop) (C : Config ι α σ μ) : Prop where
  parties : ∀ i, I C i (C.party i)
  messages : ∀ e ∈ C.underWay, J C e

/-- **Invariants.** -/
theorem LeadsTo.holds {I : Config ι α σ μ → ι → σ → Prop}
    {J : Config ι α σ μ → Envelope α μ → Prop}
    (hlost : ∀ {C C'}, LeadsTo P C₀ C → Step P C C' → C'.party = C.party →
      C'.underWay ⊆ C.underWay → C.Holds I J → C'.Holds I J)
    (hothers : ∀ {C i input rest posts C' j}, LeadsTo P C₀ C → Moves P C i input rest posts C' →
      j ≠ i → I C j (C.party j) → I C' j (C.party j))
    (hleft : ∀ {C i input rest posts C' e}, LeadsTo P C₀ C → Moves P C i input rest posts C' →
      e ∈ rest → J C e → J C' e)
    (hmove : ∀ {C i input rest posts C'}, LeadsTo P C₀ C → C.Holds I J →
      Moves P C i input rest posts C' →
      (∀ sender msg, input = some (sender, msg) → J C ⟨sender, P.address i, msg⟩) →
        I C' i (C'.party i) ∧ ∀ p ∈ posts, J C' ⟨P.address i, p.1, p.2⟩)
    (h : LeadsTo P C₀ C) (h₀ : C₀.Holds I J) : C.Holds I J := by
  induction h with
  | refl => exact h₀
  | @tail C C' hleadsTo hstep ih =>
      cases hstep with
      | @loses e hperm hparty =>
          have hsub : C'.underWay ⊆ C.underWay := fun e' he' =>
            hperm.symm.subset (List.mem_cons_of_mem _ he')
          exact hlost hleadsTo (.loses hperm hparty) hparty hsub ih
      | @moves i input rest posts hmoves =>
          have hinput : ∀ sender msg, input = some (sender, msg) →
              J C ⟨sender, P.address i, msg⟩ := by
            rintro sender msg rfl
            exact ih.messages _ hmoves.mem
          obtain ⟨hself, hposts⟩ := hmove hleadsTo ih hmoves hinput
          refine ⟨fun j => ?_, fun e he => ?_⟩
          · by_cases hj : j = i
            · subst hj
              exact hself
            · rw [hmoves.others j hj]
              exact hothers hleadsTo hmoves hj (ih.parties j)
          · rcases hmoves.underWay_cases he with hrest | ⟨hsender, hpost⟩
            · exact hleft hleadsTo hmoves hrest (ih.messages e (hmoves.takes.subset hrest))
            · obtain ⟨sender, dest, msg⟩ := e
              obtain rfl : sender = P.address i := hsender
              exact hposts _ hpost

/-- Properties that no step of another party undoes. -/
theorem LeadsTo.holds_of_stable {I : Config ι α σ μ → ι → σ → Prop}
    {J : Config ι α σ μ → Envelope α μ → Prop}
    (hparties : ∀ {C C' i s}, Step P C C' → I C i s → I C' i s)
    (hmessages : ∀ {C C' e}, Step P C C' → J C e → J C' e)
    (hmove : ∀ {C i input rest posts C'}, LeadsTo P C₀ C → C.Holds I J →
      Moves P C i input rest posts C' →
      (∀ sender msg, input = some (sender, msg) → J C ⟨sender, P.address i, msg⟩) →
        I C' i (C'.party i) ∧ ∀ p ∈ posts, J C' ⟨P.address i, p.1, p.2⟩)
    (h : LeadsTo P C₀ C) (h₀ : C₀.Holds I J) : C.Holds I J := by
  refine h.holds (fun _ hstep hparty hsub hholds => ⟨fun i => ?_, fun e he => ?_⟩)
    (fun _ hmoves _ => hparties hmoves.step) (fun _ hmoves _ => hmessages hmoves.step) hmove h₀
  · rw [hparty]
    exact hparties hstep (hholds.parties i)
  · exact hmessages hstep (hholds.messages e (hsub he))

/-- Properties of a party's own state and of a message by itself. -/
theorem LeadsTo.always {I : ι → σ → Prop} {J : Envelope α μ → Prop}
    (hmove : ∀ {i s input s' posts}, P.Move i s input s' posts → I i s →
      (∀ sender msg, input = some (sender, msg) → J ⟨sender, P.address i, msg⟩) →
        I i s' ∧ ∀ p ∈ posts, J ⟨P.address i, p.1, p.2⟩)
    (h : LeadsTo P C₀ C) (h₀ : C₀.Holds (fun _ => I) fun _ => J) :
    C.Holds (fun _ => I) fun _ => J :=
  h.holds_of_stable (fun _ hI => hI) (fun _ hJ => hJ)
    (fun _ hholds hmoves hinput => hmove hmoves.move (hholds.parties _) hinput) h₀

/-! ## Budgets -/

/-- What the messages of a list are charged. -/
def charge (cost : Envelope α μ → Nat) (es : List (Envelope α μ)) : Nat := (es.map cost).sum

@[simp] theorem charge_append (cost : Envelope α μ → Nat) (es es' : List (Envelope α μ)) :
    charge cost (es ++ es') = charge cost es + charge cost es' := by
  simp [charge]

theorem le_charge {cost : Envelope α μ → Nat} {e : Envelope α μ} {es : List (Envelope α μ)}
    (he : e ∈ es) : cost e ≤ charge cost es := by
  obtain ⟨before, after, rfl⟩ := List.append_of_mem he
  rw [charge_append, charge, charge, List.map_cons, List.sum_cons]
  omega

theorem charge_of_free {cost : Envelope α μ → Nat} {es : List (Envelope α μ)}
    (h : ∀ e ∈ es, cost e = 0) : charge cost es = 0 := by
  refine List.sum_eq_zero fun x hx => ?_
  obtain ⟨e, he, rfl⟩ := List.mem_map.mp hx
  exact h e he

theorem charge_le_length {cost : Envelope α μ → Nat} (h : ∀ e, cost e ≤ 1)
    (es : List (Envelope α μ)) : charge cost es ≤ es.length := by
  induction es with
  | nil => exact le_refl _
  | cons e es ih =>
      have hone := h e
      rw [charge] at ih ⊢
      rw [List.map_cons, List.sum_cons, List.length_cons]
      omega

theorem charge_le_of_lost (cost : Envelope α μ → Nat) {e : Envelope α μ}
    {es es' : List (Envelope α μ)} (h : es.Perm (e :: es')) : charge cost es' ≤ charge cost es := by
  have hsum := (h.map cost).sum_eq
  rw [List.map_cons, List.sum_cons] at hsum
  rw [charge, charge, hsum]
  exact Nat.le_add_left ..

/-- What the message read is charged. -/
def chargeOf (cost : Envelope α μ → Nat) (dest : α) : Option (α × μ) → Nat
  | none => 0
  | some (sender, msg) => cost ⟨sender, dest, msg⟩

theorem Takes.charge (cost : Envelope α μ → Nat) {dest : α} {underWay : List (Envelope α μ)} :
    ∀ {input : Option (α × μ)}, Takes dest underWay input rest →
      charge cost underWay = chargeOf cost dest input + charge cost rest
  | none, h => by
      obtain rfl : rest = underWay := h
      simp [chargeOf]
  | some (sender, msg), h => by
      simp [Actors.charge, chargeOf, (h.map cost).sum_eq]

/-- **Budgets.** What is under way at the charge of a party is within its
credit, if every move of the party pays for what it posts with what it
reads and with its credit, and the others pay with what they read. -/
theorem LeadsTo.budget {cost : ι → Envelope α μ → Nat} {credit : ι → σ → Nat}
    (hown : ∀ {C i input rest posts C'}, LeadsTo P C₀ C → Moves P C i input rest posts C' →
      charge (cost i) (posted (P.address i) posts) + credit i (C.party i)
        ≤ chargeOf (cost i) (P.address i) input + credit i (C'.party i))
    (hothers : ∀ {C i j input rest posts C'}, i ≠ j → LeadsTo P C₀ C →
      Moves P C j input rest posts C' →
        charge (cost i) (posted (P.address j) posts) ≤ chargeOf (cost i) (P.address j) input)
    (h : LeadsTo P C₀ C) (h₀ : ∀ i, charge (cost i) C₀.underWay ≤ credit i (C₀.party i)) :
    ∀ i, charge (cost i) C.underWay ≤ credit i (C.party i) := by
  induction h with
  | refl => exact h₀
  | @tail C C' hleadsTo hstep ih =>
      intro i
      have hle := ih i
      cases hstep with
      | @loses e hperm hparty =>
          rw [hparty]
          exact Nat.le_trans (charge_le_of_lost (cost i) hperm) hle
      | @moves j input rest posts hmoves =>
          have htaken := hmoves.takes.charge (cost i)
          rw [hmoves.underWay, charge_append]
          rcases eq_or_ne i j with rfl | hne
          · have := hown hleadsTo hmoves
            omega
          · rw [hmoves.others i hne]
            have := hothers hne hleadsTo hmoves
            omega

/-- **Totals.** Over all parties, what is under way and what they have
gained is within what they have spent, if every move gains and posts no
more than it reads and spends. -/
theorem LeadsTo.total [Fintype ι] {cost : Envelope α μ → Nat} {gained spent : ι → σ → Nat}
    (hmove : ∀ {C i input rest posts C'}, LeadsTo P C₀ C → Moves P C i input rest posts C' →
      charge cost (posted (P.address i) posts) + gained i (C'.party i) + spent i (C.party i)
        ≤ chargeOf cost (P.address i) input + gained i (C.party i) + spent i (C'.party i))
    (h : LeadsTo P C₀ C)
    (h₀ : charge cost C₀.underWay + ∑ i, gained i (C₀.party i) ≤ ∑ i, spent i (C₀.party i)) :
    charge cost C.underWay + ∑ i, gained i (C.party i) ≤ ∑ i, spent i (C.party i) := by
  classical
  induction h with
  | refl => exact h₀
  | @tail C C' hleadsTo hstep ih =>
      cases hstep with
      | @loses e hperm hparty =>
          have hle := charge_le_of_lost cost hperm
          rw [hparty]
          omega
      | @moves i input rest posts hmoves =>
          have hsplit (f : ι → σ → Nat) : ∑ j, f j (C'.party j)
              = f i (C'.party i) + ∑ j ∈ Finset.univ.erase i, f j (C.party j) := by
            rw [← Finset.add_sum_erase _ _ (Finset.mem_univ i)]
            congr 1
            refine Finset.sum_congr rfl fun j hj => ?_
            rw [hmoves.others j (Finset.ne_of_mem_erase hj)]
          have hsplit' (f : ι → σ → Nat) : ∑ j, f j (C.party j)
              = f i (C.party i) + ∑ j ∈ Finset.univ.erase i, f j (C.party j) :=
            (Finset.add_sum_erase _ _ (Finset.mem_univ i)).symm
          have htaken := hmoves.takes.charge cost
          have hle := hmove hleadsTo hmoves
          rw [hsplit gained, hsplit spent, hmoves.underWay, charge_append]
          rw [hsplit' gained, hsplit' spent] at ih
          omega

/-- A run in which no message is lost. -/
def Delivers (P : Parties ι α σ μ) : Config ι α σ μ → Config ι α σ μ → Prop :=
  Relation.ReflTransGen fun C C' => ∃ i input rest posts, Moves P C i input rest posts C'

theorem Delivers.leadsTo (h : Delivers P C₀ C) : LeadsTo P C₀ C := by
  induction h with
  | refl => exact .refl
  | tail _ hstep ih =>
      obtain ⟨i, input, rest, posts, hmoves⟩ := hstep
      exact ih.tail hmoves.step

/-- **Balances.** What is under way at the charge of a party is its
credit, if no message is lost and every move pays in full. -/
theorem Delivers.balance {cost : ι → Envelope α μ → Nat} {credit : ι → σ → Nat}
    (hown : ∀ {C i input rest posts C'}, Delivers P C₀ C → Moves P C i input rest posts C' →
      charge (cost i) (posted (P.address i) posts) + credit i (C.party i)
        = chargeOf (cost i) (P.address i) input + credit i (C'.party i))
    (hothers : ∀ {C i j input rest posts C'}, i ≠ j → Delivers P C₀ C →
      Moves P C j input rest posts C' →
        charge (cost i) (posted (P.address j) posts) = chargeOf (cost i) (P.address j) input)
    (h : Delivers P C₀ C) (h₀ : ∀ i, charge (cost i) C₀.underWay = credit i (C₀.party i)) :
    ∀ i, charge (cost i) C.underWay = credit i (C.party i) := by
  induction h with
  | refl => exact h₀
  | @tail C C' hdelivers hstep ih =>
      intro i
      obtain ⟨j, input, rest, posts, hmoves⟩ := hstep
      have heq := ih i
      have htaken := hmoves.takes.charge (cost i)
      rw [hmoves.underWay, charge_append]
      rcases eq_or_ne i j with rfl | hne
      · have := hown hdelivers hmoves
        omega
      · rw [hmoves.others i hne]
        have := hothers hne hdelivers hmoves
        omega

/-! ## Earlier configurations -/

/-- In some configuration between the two, it was so. -/
def Once (P : Parties ι α σ μ) (C₀ : Config ι α σ μ) (Q : Config ι α σ μ → Prop)
    (C : Config ι α σ μ) : Prop :=
  ∃ C₁, LeadsTo P C₀ C₁ ∧ LeadsTo P C₁ C ∧ Q C₁

theorem Once.now {Q : Config ι α σ μ → Prop} (h : LeadsTo P C₀ C) (hQ : Q C) : Once P C₀ Q C :=
  ⟨C, h, .refl, hQ⟩

theorem Once.step {Q : Config ι α σ μ → Prop} (h : Once P C₀ Q C) (hstep : Step P C C') :
    Once P C₀ Q C' := by
  obtain ⟨C₁, hbefore, hafter, hQ⟩ := h
  exact ⟨C₁, hbefore, hafter.tail hstep, hQ⟩

end Actors
