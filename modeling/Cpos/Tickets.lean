import Mathlib.Data.Int.Interval
import Cpos.Draws
import Cpos.Run

/-!
# The tickets validation accepts

The sortition grants `w` tickets, and a producer counts them from 0:
`generate_block` enumerates `range(0, stake)`. `validate_block` compares
`ticket_number` with `w` from one side only, and lets `w` itself pass. So
it accepts every number up to `w`, negative ones included
(`validateBlockOfStake_eq`), one more of the non-negative ones than were
granted (`accepted_ncard`).

**The rule of `0, …, w - 1`** holds for a block exactly if no ticket was
granted, or its number is neither negative nor `w` (`ticketRule_iff`).
-/

namespace Cpos

open Python ByteString Sha256

section Granted

variable {K : Type} [PyNum K] {env : Env K} {stake w : Int} {b : Block}

/-- The key and the signature of `b` verify, and the sortition for a
stake grants it `w` tickets. -/
structure Granted (env : Env K) (stake w : Int) (b : Block) : Prop where
  key : env.fromPublicBytes b.ownerPubkey = true
  signature : env.verify b.ownerPubkey b.signedNodeHash b.nodeHash = true
  sortition : ∃ p : K,
    PyNum.truediv (PyNum.ofInt env.parameters.tau : K) (PyNum.ofInt (lookupTotalStake env)) = .ok p
      ∧ runSortition b.signedNodeHash stake p = .ok w

theorem Granted.nonneg (h : Granted env stake w b) : 0 ≤ w := by
  obtain ⟨p, -, hw⟩ := h.sortition
  exact runSortition_nonneg hw

/-- The ticket is no part of what is signed. -/
theorem Granted.ticket (h : Granted env stake w b) (t : Int) :
    Granted env stake w { b with ticketNumber := t } :=
  ⟨h.key, h.signature, h.sortition⟩

theorem validateBlockOfStake_eq (h : Granted env stake w b) :
    validateBlockOfStake env stake b
      = .ok (if w = 0 ∨ w < b.ticketNumber then none else some w) := by
  obtain ⟨p, hp, hw⟩ := h.sortition
  unfold validateBlockOfStake
  rw [h.key, h.signature]
  simp only [Bool.not_true, Bool.false_eq_true, if_false]
  show (PyNum.truediv _ _ >>= fun p => _) = _
  rw [hp]
  show (runSortition b.signedNodeHash stake p >>= _) = _
  rw [hw]
  show (if _ then _ else _ : Except PyErr (Option Int)) = _
  split <;> rfl

/-- `validate_block` returns winning tickets. -/
def AcceptedTicket (env : Env K) (stake : Int) (b : Block) : Prop :=
  ∃ v, validateBlockOfStake env stake b = .ok (some v)

theorem acceptedTicket_iff (h : Granted env stake w b) :
    AcceptedTicket env stake b ↔ w ≠ 0 ∧ b.ticketNumber ≤ w := by
  rw [AcceptedTicket, validateBlockOfStake_eq h]
  constructor
  · rintro ⟨v, hv⟩
    split at hv
    · cases hv
    · next hno => exact ⟨fun hw => hno (.inl hw), by omega⟩
  · rintro ⟨hw, hle⟩
    exact ⟨w, by rw [if_neg (by omega)]⟩

/-! ## How many there are -/

/-- Of the non-negative numbers, one more is accepted than was granted. -/
theorem accepted_ncard (h : Granted env stake w b) (hw : w ≠ 0) :
    (Set.ncard {t : Nat | AcceptedTicket env stake { b with ticketNumber := t }} : Int)
      = w + 1 := by
  have hset : {t : Nat | AcceptedTicket env stake { b with ticketNumber := t }}
      = (Finset.range (w.toNat + 1) : Set Nat) := by
    ext t
    rw [Set.mem_ofPred_eq, acceptedTicket_iff (h.ticket t), Finset.coe_range, Set.mem_Iio]
    have := h.nonneg
    show w ≠ 0 ∧ (t : Int) ≤ w ↔ _
    omega
  rw [hset, Set.ncard_coe_finset, Finset.card_range]
  have := h.nonneg
  omega

end Granted

/-- Of the numbers `generate_block` enumerates, the accepted ones are as
many as were granted only if none or all of them were. -/
theorem enumerated_ncard {env : Env ℚ} {stake w : Int} {b : Block} (hstake : 0 ≤ stake)
    (h : Granted env stake w b) :
    (Set.ncard {t : Int | t ∈ rangeUp 0 stake ∧ AcceptedTicket env stake
        { b with ticketNumber := t }} : Int) = w ↔ w = 0 ∨ w = stake := by
  have hnonneg := h.nonneg
  obtain ⟨p, -, hw⟩ := h.sortition
  obtain ⟨n, rfl⟩ := Int.eq_ofNat_of_zero_le hstake
  obtain ⟨v, hv, hle, -⟩ := runSortition_spec b.signedNodeHash n p
  obtain rfl := Except.ok.inj (hv.symm.trans hw)
  have hset : {t : Int | t ∈ rangeUp 0 n ∧ AcceptedTicket env n { b with ticketNumber := t }}
      = (Finset.Ico 0 (if v = 0 then 0 else min (n : Int) (v + 1)) : Set Int) := by
    ext t
    have hrange : t ∈ rangeUp 0 n ↔ 0 ≤ t ∧ t < n := by
      rw [show (n : Int) = 0 + n by omega, rangeUp_eq, List.mem_map]
      constructor
      · rintro ⟨i, hi, rfl⟩
        have := List.mem_range.mp hi
        omega
      · intro ht
        exact ⟨t.toNat, List.mem_range.mpr (by omega), by omega⟩
    rw [Set.mem_ofPred_eq, hrange, acceptedTicket_iff (h.ticket t), Finset.coe_Ico, Set.mem_Ico]
    show (0 ≤ t ∧ t < (n : Int)) ∧ (v : Int) ≠ 0 ∧ t ≤ v ↔ _
    split
    · omega
    · omega
  rw [hset, Set.ncard_coe_finset, Int.card_Ico]
  split
  · omega
  · omega

/-! ## The rule -/

section Rule

variable {K : Type} [PyNum K] {env : Env K} {stake w : Int} {b : Block}

/-- `b` is accepted exactly if its number is one of `0, …, w - 1`. -/
def TicketRule (env : Env K) (stake w : Int) (b : Block) : Prop :=
  AcceptedTicket env stake b ↔ 0 ≤ b.ticketNumber ∧ b.ticketNumber < w

/-- **Where `validate_block` keeps to the granted tickets.** -/
theorem ticketRule_iff (h : Granted env stake w b) :
    TicketRule env stake w b ↔ w = 0 ∨ 0 ≤ b.ticketNumber ∧ b.ticketNumber ≠ w := by
  have := h.nonneg
  rw [TicketRule, acceptedTicket_iff h]
  omega

end Rule

/-! ## A ticket too many -/

/-- `a1` with the second ticket of a stake of one. -/
def a1Second : Block :=
  { a1 with
    ticketNumber := 1
    proofHash := bytesOf 32 0x59c4fc9deac6a2331777c82960da3b003fb28a794aeb459ed515d113b68414da
    hash := bytesOf 32 0x7fe94bb00c9015b00a6ab3f2ced67421316bcc548bb125c698ccf76f7648618f }

theorem a1Second_granted : Granted sampleEnv 1 1 a1Second := by
  refine ⟨by decide, by decide +kernel, 1, ?_, ?_⟩
  · decide +kernel
  · decide +kernel

theorem ticketRule_a1Second :
    TicketRule sampleEnv 1 1 a1Second
      ↔ (1 : Int) = 0 ∨ 0 ≤ a1Second.ticketNumber ∧ a1Second.ticketNumber ≠ 1 :=
  ticketRule_iff a1Second_granted

/-- The one ticket is number 0, and number 1 is accepted. -/
theorem second_ticket_accepted :
    a1Second.Bound ∧ Granted sampleEnv (lookupNodeStake a1Second.ownerPubkey) 1 a1Second
      ∧ ¬TicketRule sampleEnv (lookupNodeStake a1Second.ownerPubkey) 1 a1Second := by
  refine ⟨by decide +kernel, a1Second_granted, fun hrule => ?_⟩
  have := hrule.mp ((acceptedTicket_iff a1Second_granted).mpr ⟨by decide, by decide⟩)
  exact absurd this.2 (by decide)

end Cpos
