import Cpos.RoundUpdate

/-!
# What a rejected block leaves behind

`insert` has eight exits, and a write in front of the last three: a block
that passes the checks up to validation adds its tickets to the rows
below its index, then it is compared with the block at its index, and
last its round is compared with its parent's. So a rejection leaves the
state as it was or counts the block, and nothing else (`rejected_state`).

Counting a block that is good in every respect but the comparison is what
the count is for. **A rejection does no more than that**
(`rejectionLaw_iff`) unless a block that is not later than its parent has
been counted for an unconfirmed row.
-/

namespace Cpos

open Python ByteString LinkedChain BlockChain

variable {K : Type} [PyNum K] {env : Env K} {s s' : BlockChain} {c : Chain (rules env)} {b : Block}
  {w : Int}

/-! ## The checks, on the rows -/

/-- `b` passes the checks in front of the count: it is new, `parent` is
the row before its index, and validation grants it `w` tickets. -/
structure PassesChecks (env : Env K) (rows : List Row) (b : Block) (parent : Row) (w : Int) :
    Prop where
  fresh : ∀ r ∈ rows, r.id ≠ hex b.hash
  row : parent ∈ rows
  index : parent.blockIndex = b.index - 1
  hash : parent.hash = hex b.parentHash
  valid : validateBlock env b = .ok (some w)
  nonzero : w ≠ 0

/-- It passes every check but the comparison of proof hashes. -/
structure OnlyLoses (env : Env K) (rows : List Row) (b : Block) (parent : Row) (w : Int) : Prop
    extends PassesChecks env rows b parent w where
  later : parent.round < b.round
  beaten : ∃ r ∈ rows, r.blockIndex = b.index ∧ ∃ q, r.proofHash = hex q ∧ q ≤ b.proofHash

theorem PassesChecks.counted (hc : Represents env s c) {parent : Row}
    (h : PassesChecks env s.localChains b parent w) :
    ∃ p, Counted env c b p w ∧ Stores parent p := by
  obtain ⟨i, hi⟩ := List.mem_iff_getElem?.mp h.row
  obtain ⟨p, hp, hst⟩ := hc.block_at hi
  have hindex := hc.indexed i parent hi
  have hpos := h.index
  refine ⟨p, ⟨⟨?_, by omega, ?_, ?_⟩, h.valid, h.nonzero⟩, hst⟩
  · refine (hc.no_row_iff _).mp fun r hr => ?_
    rw [← hc.id_eq_hash hr]
    exact h.fresh r hr
  · rw [show b.index.toNat - 1 = i by omega]
    exact hp
  · exact hex_inj.mp (hst.hash.symm.trans h.hash)

theorem Counted.passesChecks (hc : Represents env s c) {p : Block} (h : Counted env c b p w) :
    ∃ parent, PassesChecks env s.localChains b parent w ∧ Stores parent p := by
  obtain ⟨parent, hrow, hst⟩ := hc.row_at h.parentAt
  have hindex := h.index_eq
  refine ⟨parent, ⟨fun r hr => ?_, List.mem_of_getElem? hrow, ?_, ?_, h.valid, h.nonzero⟩, hst⟩
  · rw [hc.id_eq_hash hr]
    exact (hc.no_row_iff _).mpr h.fresh r hr
  · rw [hst.blockIndex]
    omega
  · rw [hst.hash, h.parent]

/-- Parent and tickets of a block that is counted are determined. -/
theorem PassesChecks.unique (hc : Represents env s c) {parent : Row} {p : Block} {v : Int}
    (h : PassesChecks env s.localChains b parent v) (hcounted : Counted env c b p w) :
    v = w ∧ parent.round = p.round := by
  obtain ⟨p', hp', hst⟩ := h.counted hc
  obtain rfl := Option.some.inj (hp'.parentAt.symm.trans hcounted.parentAt)
  exact ⟨Option.some.inj (Except.ok.inj (h.valid.symm.trans hcounted.valid)), hst.round⟩

/-! ## The state after a rejection -/

/-- A rejected block has been refused before the count, or counted. -/
theorem rejected_state (hc : Represents env s c)
    (h : insert env b s = .ok false s') :
    (s' = s ∧ ∀ p w, ¬Counted env c b p w) ∨
      ∃ p w, Counted env c b p w ∧ (Beats c b → b.round ≤ p.round) ∧ s' = s.counted b.index w := by
  have hspec := insert_spec hc b
  rw [h] at hspec
  cases hspec with
  | rejected hno => exact .inl ⟨rfl, hno.not_counted⟩
  | beaten p q w hcounted hq hle =>
      exact .inr ⟨p, w, hcounted, fun hb => absurd (hb q hq) (not_lt_of_ge hle), rfl⟩
  | sameRound p w hcounted _ hround => exact .inr ⟨p, w, hcounted, fun _ => hround, rfl⟩

/-- Counting changes the rows exactly if an unconfirmed one is below. -/
theorem map_count_eq_iff {rows : List Row} {i : Int} (hw : w ≠ 0) :
    rows.map (Row.count i w) = rows ↔ ∀ r ∈ rows, ¬(r.blockIndex < i ∧ r.confirmed = 0) := by
  conv_lhs => rhs; rw [← List.map_id rows]
  rw [List.map_inj_left]
  refine forall₂_congr fun r _ => ?_
  unfold Row.count
  split
  · next hbelow =>
    refine iff_of_false (fun heq => ?_) (not_not_intro hbelow)
    have : r.numSuc + w = r.numSuc := congrArg Row.numSuc heq
    omega
  · next hno => exact iff_of_true rfl hno

/-! ## The law -/

/-- After a rejection the rows are what they were, except that a block
which only loses the comparison has been counted. -/
structure RejectionLaw (env : Env K) (s : BlockChain) (b : Block) : Prop where
  loses : ∀ parent w, OnlyLoses env s.localChains b parent w →
    (after (insert env b) s).localChains = s.localChains.map (Row.count b.index w)
  unchanged : (∀ parent w, ¬OnlyLoses env s.localChains b parent w) →
    (after (insert env b) s).localChains = s.localChains

/-- `b` is counted for an unconfirmed row though it is not later than its
parent. -/
def CountedInVain (env : Env K) (rows : List Row) (b : Block) : Prop :=
  ∃ parent w, PassesChecks env rows b parent w ∧ b.round ≤ parent.round
    ∧ ∃ r ∈ rows, r.blockIndex < b.index ∧ r.confirmed = 0

/-- A block refused before the count changes no row. -/
theorem rejectionLaw_of_refused (hc : Represents env s c) (h : insert env b s = .ok false s)
    (hno : ∀ p w, ¬Counted env c b p w) :
    RejectionLaw env s b ∧ ¬CountedInVain env s.localChains b := by
  have hnone (parent : Row) (w : Int) : ¬PassesChecks env s.localChains b parent w := by
    intro hp
    obtain ⟨p, hcounted, -⟩ := hp.counted hc
    exact hno p w hcounted
  refine ⟨⟨fun parent w hl => absurd hl.toPassesChecks (hnone parent w), fun _ => ?_⟩, ?_⟩
  · rw [after_ok h]
  · rintro ⟨parent, w, hp, -⟩
    exact hnone parent w hp

/-- A later block that is counted and rejected has lost the comparison. -/
theorem onlyLoses_of_rejected (hc : Represents env s c) {p : Block} (h : Counted env c b p w)
    (hlate : Beats c b → b.round ≤ p.round) (hround : p.round < b.round) :
    ∃ parent, OnlyLoses env s.localChains b parent w := by
  obtain ⟨parent, hp, hst⟩ := h.passesChecks hc
  have hnot : ¬Beats c b := fun hb => by
    have := hlate hb
    omega
  rw [Beats] at hnot
  push Not at hnot
  obtain ⟨q, hq, hle⟩ := hnot
  obtain ⟨r, hr, hstr⟩ := hc.row_at hq
  have hindex := index_at hq
  have hpos := h.pos
  refine ⟨parent, hp, by rw [hst.round]; exact hround, r, List.mem_of_getElem? hr, ?_, q.proofHash,
    hstr.proofHash, hle⟩
  rw [hstr.blockIndex]
  omega

theorem rejectionLaw_of_later (hc : Represents env s c) {p : Block} (h : Counted env c b p w)
    (hrun : insert env b s = .ok false (s.counted b.index w))
    (hlate : Beats c b → b.round ≤ p.round) (hround : p.round < b.round) :
    RejectionLaw env s b ∧ ¬CountedInVain env s.localChains b := by
  refine ⟨⟨fun parent v hl => ?_, fun hno => ?_⟩, ?_⟩
  · rw [after_ok hrun, (hl.toPassesChecks.unique hc h).1]
    rfl
  · obtain ⟨parent, hl⟩ := onlyLoses_of_rejected hc h hlate hround
    exact absurd hl (hno parent w)
  · rintro ⟨parent, v, hp, hle, -⟩
    have := (hp.unique hc h).2
    omega

theorem rejectionLaw_of_early (hc : Represents env s c) {p : Block} (h : Counted env c b p w)
    (hrun : insert env b s = .ok false (s.counted b.index w)) (hround : b.round ≤ p.round) :
    RejectionLaw env s b ↔ ¬CountedInVain env s.localChains b := by
  have hnone (parent : Row) (v : Int) : ¬OnlyLoses env s.localChains b parent v := by
    intro hl
    have := (hl.toPassesChecks.unique hc h).2
    have := hl.later
    omega
  have hrows : RejectionLaw env s b ↔ s.localChains.map (Row.count b.index w) = s.localChains := by
    constructor
    · intro hlaw
      have := hlaw.unchanged hnone
      rwa [after_ok hrun] at this
    · intro heq
      refine ⟨fun parent v hl => absurd hl (hnone parent v), fun _ => ?_⟩
      rw [after_ok hrun]
      exact heq
  obtain ⟨parent, hp, hst⟩ := h.passesChecks hc
  rw [hrows, map_count_eq_iff h.nonzero]
  constructor
  · rintro hall ⟨-, -, -, -, r, hr, hbelow⟩
    exact hall r hr hbelow
  · intro hvain r hr hbelow
    exact hvain ⟨parent, w, hp, by rw [hst.round]; exact hround, r, hr, hbelow⟩

/-- **What a rejection changes**, in every reachable state. -/
theorem rejectionLaw_iff (hs : Reachable env s) (h : returned (insert env b) s = some false) :
    RejectionLaw env s b ↔ ¬CountedInVain env s.localChains b := by
  obtain ⟨c, hc⟩ := hs.represents
  have hrun := ok_of_returned h
  rcases rejected_state hc hrun with ⟨heq, hno⟩ | ⟨p, w, hcounted, hlate, heq⟩
  · rw [heq] at hrun
    obtain ⟨hlaw, hvain⟩ := rejectionLaw_of_refused hc hrun hno
    exact iff_of_true hlaw hvain
  · rw [heq] at hrun
    by_cases hround : b.round ≤ p.round
    · exact rejectionLaw_of_early hc hcounted hrun hround
    · obtain ⟨hlaw, hvain⟩ := rejectionLaw_of_later hc hcounted hrun hlate (by omega)
      exact iff_of_true hlaw hvain

/-- `a1` is the tip; `aRush` names it as parent and is in its round. -/
def rushedTip : BlockChain := run rushEnv .init [.insert a1]

theorem rushedTip_reachable : Reachable rushEnv rushedTip := ⟨.init, _, rfl, rfl⟩

/-- `aRush` is rejected for its round, and the tip has its ticket. -/
theorem aRush_rejected :
    returned (insert rushEnv aRush) rushedTip = some false ∧
      rushedTip.localChains.map Row.numSuc = [0, 0] ∧
      (after (insert rushEnv aRush) rushedTip).localChains.map Row.numSuc = [0, 1] ∧
      ∀ r ∈ rushedTip.localChains, r.blockIndex = 1 → ¬r.round < 1 := by decide +kernel

theorem rejectionLaw_iff_rush :
    RejectionLaw rushEnv rushedTip aRush ↔ ¬CountedInVain rushEnv rushedTip.localChains aRush :=
  rejectionLaw_iff rushedTip_reachable aRush_rejected.1

theorem rejected_block_counted :
    Reachable rushEnv rushedTip ∧ aRush.Bound ∧
      returned (insert rushEnv aRush) rushedTip = some false ∧
      (after (insert rushEnv aRush) rushedTip).localChains.map Row.numSuc = [0, 1] ∧
      ¬RejectionLaw rushEnv rushedTip aRush := by
  obtain ⟨hfalse, hbefore, hcounted, htip⟩ := aRush_rejected
  refine ⟨rushedTip_reachable, by decide +kernel, hfalse, hcounted, fun hlaw => ?_⟩
  have hrows := hlaw.unchanged fun parent w hl => htip parent hl.row hl.index hl.later
  rw [hrows, hbefore] at hcounted
  cases hcounted

end Cpos
