import Cpos.Equivocation

/-!
# How fast chains grow

Rounds rise along a chain, and no block is of a later round than its
author has come to. So a table is no longer than the number of rounds that
the furthest of the authors has been through, and the blocks of one author
in it are no more than that node has made (`growth`). Neither needs a
clock in common, nor that messages arrive.
-/

namespace Cpos

open Python ByteString LinkedChain BlockChain Actors

variable {ι K : Type} [PyNum K]

/-! ## Rounds along a chain -/

section Chain

variable {env : Env K} {s : BlockChain} {c : Chain (rules env)}

theorem rounds_increasing (c : Chain (rules env)) :
    c.blocks.Pairwise fun b b' => b.round < b'.round := by
  have hlinked : (c.blocks.map Block.round).IsChain (· < ·) :=
    (List.isChain_map _).mpr (c.linked.imp fun b b' h => h.round)
  exact List.pairwise_map.mp (List.isChain_iff_pairwise.mp hlinked)

theorem le_round_at : ∀ {i : Nat} {b : Block}, c.blocks[i]? = some b → (i : Int) ≤ b.round
  | 0, b, hb => by
      obtain rfl := Option.some.inj (c.getElem?_zero.symm.trans hb)
      exact le_refl _
  | i + 1, b, hb => by
      have hlt : i < c.blocks.length := by
        have := (List.getElem?_eq_some_iff.mp hb).1
        omega
      have hp := List.getElem?_eq_getElem hlt
      have hround := (follows_at hp hb).round
      have hle := le_round_at hp
      omega

theorem Represents.rounds_nodup (h : Represents env s c) : (s.localChains.map Row.round).Nodup := by
  have hrounds : s.localChains.map Row.round = c.blocks.map Block.round := by
    have hrows := congrArg (List.map Row.round) h.rows
    rw [List.map_map, List.map_map] at hrows
    exact hrows
  rw [hrounds]
  exact List.pairwise_map.mpr ((rounds_increasing c).imp fun hlt => ne_of_lt hlt)

end Chain

/-! ## The deployment -/

namespace Deployment

variable {D : Deployment ι K} {S : System ι}

/-- A node has been in the rounds of its blocks. -/
theorem Reachable.made_round (hclock : ∀ i, ClockRises (D.member i).toEnv) (h : D.Reachable S)
    {i : ι} {m : Block} (hm : m ∈ (S.party i).made) :
    m.round ≤ (S.party i).node.bc.currentRound := by
  have hsteady := h.steady hclock i
  cases hseen : (S.party i).loop.round with
  | none =>
      rw [hsteady.unseen hseen] at hm
      cases hm
  | some r =>
      obtain ⟨hle, hall⟩ := hsteady.seen r hseen
      exact (hall m hm).trans hle

/-- The author of a row, and a block that it has made in the row's round. -/
theorem Reachable.row_made (h : D.Reachable S) {i : ι} {k : Nat} {r : Row}
    (hr : (S.party i).node.bc.localChains[k + 1]? = some r) :
    ∃ j, r.ownerPubkey = hex (D.member j).publicKey ∧
      ∃ m ∈ (S.party j).made, m.round = r.round := by
  obtain ⟨b, hst, j, hmade, m, hm, hcopy⟩ := h.row_original hr
  have hbody := body_of_copy ((h.authored.parties j).2 m hm).isSealed.bound hcopy
  have hround : b.body.round = m.body.round := by rw [hbody]
  exact ⟨j, by rw [hst.ownerPubkey, hmade.ownerPubkey], m, hm, hround.symm.trans hst.round.symm⟩

/-- **Growth.** A row at height `k` shows that its author has come to
round `k` at least, and no author has more rows in a table than it has
made blocks. -/
theorem growth (hclock : ∀ i, ClockRises (D.member i).toEnv) (h : D.Reachable S) (i : ι) :
    (∀ k r, (S.party i).node.bc.localChains[k + 1]? = some r →
      ∃ j, r.ownerPubkey = hex (D.member j).publicKey ∧ ((k + 1 : Nat) : Int) ≤ r.round ∧
        r.round ≤ (S.party j).node.bc.currentRound) ∧
      ∀ j, ((S.party i).node.bc.localChains.tail.filter fun r =>
        r.ownerPubkey = hex (D.member j).publicKey).length ≤ (S.party j).made.length := by
  obtain ⟨c, hc⟩ := h.represented i
  refine ⟨fun k r hr => ?_, fun j => ?_⟩
  · obtain ⟨j, howner, m, hm, hround⟩ := h.row_made hr
    obtain ⟨b, hb, hst⟩ := hc.block_at hr
    refine ⟨j, howner, ?_, ?_⟩
    · rw [hst.round]
      exact le_round_at hb
    · rw [← hround]
      exact h.made_round hclock hm
  · -- the rows are told apart by their rounds, in each of which there is a block
    have hnodup : (((S.party i).node.bc.localChains.tail.filter fun r =>
        r.ownerPubkey = hex (D.member j).publicKey).map Row.round).Nodup :=
      hc.rounds_nodup.sublist ((List.filter_sublist.trans (List.tail_sublist _)).map _)
    have hsub : ((S.party i).node.bc.localChains.tail.filter fun r =>
        r.ownerPubkey = hex (D.member j).publicKey).map Row.round
          ⊆ (S.party j).made.map Block.round := by
      intro round hmem
      obtain ⟨r, hr, rfl⟩ := List.mem_map.mp hmem
      obtain ⟨hrow, howner⟩ := List.mem_filter.mp hr
      obtain ⟨k, hk⟩ := List.mem_iff_getElem?.mp hrow
      rw [List.getElem?_tail] at hk
      obtain ⟨j', howner', m, hm, hround⟩ := h.row_made hk
      have hkeys : hex (D.member j').publicKey = hex (D.member j).publicKey :=
        howner'.symm.trans (of_decide_eq_true howner)
      obtain rfl : j' = j := D.publicKey_injective (hex_inj.mp hkeys)
      exact List.mem_map.mpr ⟨m, hm, hround⟩
    have hle := (List.subperm_of_subset hnodup hsub).length_le
    rwa [List.length_map, List.length_map] at hle

end Deployment

/-- The row that the second node has of the first. -/
theorem pair_growth :
    (pairSystem.party .second).node.bc.localChains.length = 2 ∧
      (∀ k r, (pairSystem.party .second).node.bc.localChains[k + 1]? = some r →
        ∃ j, r.ownerPubkey = hex (pair.member j).publicKey ∧ ((k + 1 : Nat) : Int) ≤ r.round ∧
          r.round ≤ (pairSystem.party j).node.bc.currentRound) ∧
      ∀ j, ((pairSystem.party .second).node.bc.localChains.tail.filter fun r =>
        r.ownerPubkey = hex (pair.member j).publicKey).length ≤ (pairSystem.party j).made.length :=
  ⟨pairSystem_run.2.stored, Deployment.growth pair_clockRises pairSystem_reachable .second⟩

end Cpos
