import Cpos.Node
import Cpos.Reload

/-!
# Answering requests for stored blocks

A row is read back through the constructor, which encodes the round and
the ticket in four unsigned bytes and raises where it cannot; `insert`
stores the fields of a received block without it. The checks of `insert`
bound both from above, by the columns, and the round from below, since
rounds rise from the genesis block's 0. Nothing bounds the ticket from
below: `validate_block` lets every negative one pass.

So a store answers every request for a block it has **exactly if no row
holds a negative ticket** (`served_iff`), and a run in which no valid
block with a negative ticket is handed over leaves no other
(`run_served`).
-/

namespace Cpos

open Python ByteString LinkedChain BlockChain

variable {K : Type} [PyNum K] {env : Env K} {s : BlockChain} {c : Chain (rules env)} {b : Block}

/-! ## Where the constructor returns -/

theorem toBytes4_ok_iff {n : Int} : (∃ bs, toBytes4 n = .ok bs) ↔ 0 ≤ n ∧ n < 2 ^ 32 := by
  unfold toBytes4 toBytesLE
  by_cases hn : 0 ≤ n ∧ n < 256 ^ 4
  · rw [if_pos hn]
    exact iff_of_true ⟨_, rfl⟩ (by omega)
  · rw [if_neg hn]
    refine iff_of_false ?_ (by omega)
    rintro ⟨bs, h⟩
    cases h

theorem Block.update_ok_iff :
    (∃ b', b.update = .ok b') ↔
      (0 ≤ b.round ∧ b.round < 2 ^ 32) ∧ 0 ≤ b.ticketNumber ∧ b.ticketNumber < 2 ^ 32 := by
  rw [← toBytes4_ok_iff, ← toBytes4_ok_iff]
  simp only [Block.update, Block.calculateNodeHash, Block.calculateProofHash]
  cases hr : toBytes4 b.round with
  | error e =>
      refine iff_of_false ?_ ?_
      · rintro ⟨b', h⟩
        cases h
      · rintro ⟨⟨bs, h⟩, -⟩
        cases h
  | ok r =>
      cases ht : toBytes4 b.ticketNumber with
      | error e =>
          refine iff_of_false ?_ ?_
          · rintro ⟨b', h⟩
            cases h
          · rintro ⟨-, bs, h⟩
            cases h
      | ok t => exact iff_of_true ⟨_, rfl⟩ ⟨⟨r, rfl⟩, t, rfl⟩

/-! ## What the checks of insert bound -/

theorem round_nonneg_at : ∀ {i : Nat} {b : Block}, c.blocks[i]? = some b → 0 ≤ b.round
  | 0, b, hb => by
      obtain rfl := Option.some.inj (c.getElem?_zero.symm.trans hb)
      exact le_refl _
  | i + 1, b, hb => by
      have hi : i < c.blocks.length := by
        have := (List.getElem?_eq_some_iff.mp hb).1; omega
      have hp := List.getElem?_eq_getElem hi
      have := (follows_at hp hb).round
      have := round_nonneg_at hp
      omega

theorem Block.Storable.ranges (h : b.Storable) : b.round < 2 ^ 31 ∧ b.ticketNumber < 2 ^ 31 := by
  have hfits : (rowOf b).fits = true := h
  simp only [Row.fits, fitsInteger, Bool.and_eq_true, decide_eq_true_eq] at hfits
  exact ⟨hfits.1.1.1.1.1.1.1.1.1.2.2, hfits.1.1.1.2.2⟩

theorem ranges_at : ∀ {i : Nat} {b : Block}, c.blocks[i]? = some b →
    b.round < 2 ^ 31 ∧ b.ticketNumber < 2 ^ 31
  | 0, b, hb => by
      obtain rfl := Option.some.inj (c.getElem?_zero.symm.trans hb)
      show (0 : Int) < 2 ^ 31 ∧ (0 : Int) < 2 ^ 31
      decide
  | i + 1, b, hb => by
      have hi : i < c.blocks.length := by
        have := (List.getElem?_eq_some_iff.mp hb).1; omega
      exact (follows_at (List.getElem?_eq_getElem hi) hb).storable.ranges

/-- A stored block can be built again exactly if its ticket is not
negative. -/
theorem reloaded_ok_iff {i : Nat} (hb : c.blocks[i]? = some b) :
    (∃ b', b.reloaded = .ok b') ↔ 0 ≤ b.ticketNumber := by
  have hround := round_nonneg_at hb
  have hranges := ranges_at hb
  rw [Block.reloaded, Block.update_ok_iff]
  show (0 ≤ b.round ∧ b.round < 2 ^ 32) ∧ 0 ≤ b.ticketNumber ∧ b.ticketNumber < 2 ^ 32 ↔ _
  omega

/-! ## Which requests are answered -/

/-- A request for any of the blocks, counted from either end, is answered
with a block. -/
def AnswersAll (s : BlockChain) : Prop :=
  ∀ k : Int, |k| < s.localChains.length → ∃ b, returned (resyncAnswer k) s = some (some b)

/-- The request for the block `b` at position `i`. -/
theorem answered_iff (h : Represents env s c) {k : Int} {i : Nat}
    (hk : |k| < c.blocks.length) (hi : (if k < 0 then c.blocks.length + k else k) = i)
    (hb : c.blocks[i]? = some b) :
    (∃ b', returned (resyncAnswer k) s = some (some b')) ↔ 0 ≤ b.ticketNumber := by
  have hrun : resyncAnswer k s = (blockByIndex k >>= fun b => pure (some b)) s := by
    rw [resyncAnswer, bind_ok h.run_numberOfBlocks, if_pos hk]
  have hblock := h.run_blockByIndex hi hb
  rw [← reloaded_ok_iff hb]
  cases hre : b.reloaded with
  | ok b' =>
      rw [hre, eval_ok] at hblock
      rw [bind_ok hblock] at hrun
      exact iff_of_true ⟨b', returned_ok hrun⟩ ⟨b', rfl⟩
  | error e =>
      rw [hre, eval_error] at hblock
      rw [bind_error hblock] at hrun
      refine iff_of_false ?_ ?_
      · rintro ⟨b', hret⟩
        exact not_returned hrun ⟨_, hret⟩
      · rintro ⟨b', hok⟩
        cases hok

theorem answersAll_iff (h : Represents env s c) :
    AnswersAll s ↔ ∀ r ∈ s.localChains, 0 ≤ r.ticketNumber := by
  rw [AnswersAll, h.length]
  constructor
  · intro hall r hr
    obtain ⟨i, hi⟩ := List.mem_iff_getElem?.mp hr
    obtain ⟨b, hb, hst⟩ := h.block_at hi
    have hlt := (List.getElem?_eq_some_iff.mp hb).1
    have hk : |(i : Int)| < c.blocks.length := by
      rw [abs_of_nonneg (Int.natCast_nonneg i)]
      omega
    rw [hst.ticketNumber]
    exact (answered_iff h hk (if_neg (by omega)) hb).mp (hall i hk)
  · intro hrows k hk
    obtain ⟨hlow, hhigh⟩ := abs_lt.mp hk
    obtain ⟨i, hi⟩ : ∃ i : Nat, (if k < 0 then c.blocks.length + k else k) = i := by
      split
      · exact ⟨(c.blocks.length + k).toNat, by omega⟩
      · exact ⟨k.toNat, by omega⟩
    have hlt : i < c.blocks.length := by
      split at hi <;> omega
    have hb := List.getElem?_eq_getElem hlt
    obtain ⟨r, hr, hst⟩ := h.row_at hb
    refine (answered_iff h hk hi hb).mpr ?_
    rw [← hst.ticketNumber]
    exact hrows r (List.mem_of_getElem? hr)

/-! ## Over a run -/

/-- The blocks of a chain other than the genesis block are valid. -/
theorem valid_of_mem (hb : b ∈ c.blocks) : b = genesisBlock ∨ b.Valid env := by
  obtain ⟨i, hi⟩ := List.mem_iff_getElem?.mp hb
  cases i with
  | zero => exact .inl (Option.some.inj (hi.symm.trans c.getElem?_zero))
  | succ i =>
      have hlt : i < c.blocks.length := by
        have := (List.getElem?_eq_some_iff.mp hi).1; omega
      exact .inr (follows_at (List.getElem?_eq_getElem hlt) hi).valid

/-- What is handed over decides what is stored. -/
theorem run_answersAll {ops : List Op} (hs : s.localChains = [genesisRow])
    (htickets : ∀ op ∈ ops, ∀ b ∈ op.blocks, b.Valid env → 0 ≤ b.ticketNumber) :
    AnswersAll (run env s ops) := by
  have hgenesis : Represents env s (genesisChain env) := represents_genesis hs
  obtain ⟨c, hc, hsub⟩ := run_represents ops hgenesis
  refine (answersAll_iff hc).mpr fun r hr => ?_
  obtain ⟨i, hi⟩ := List.mem_iff_getElem?.mp hr
  obtain ⟨b, hb, hst⟩ := hc.block_at hi
  have hmem := List.mem_of_getElem? hb
  rw [hst.ticketNumber]
  rcases valid_of_mem hmem with rfl | hvalid
  · exact le_refl _
  rcases List.mem_append.mp (hsub hmem) with hroot | hhanded
  · obtain rfl := List.mem_singleton.mp hroot
    exact le_refl _
  · obtain ⟨op, hop, hb⟩ := List.mem_flatMap.mp hhanded
    exact htickets op hop b hb hvalid

/-- **Which stores answer every request**: those without a negative
ticket, in every reachable state; and every state of a run to which no
valid block with a negative ticket is handed. -/
theorem served_iff (hs : s.localChains = [genesisRow]) (ops : List Op) :
    (AnswersAll (run env s ops) ↔ ∀ r ∈ (run env s ops).localChains, 0 ≤ r.ticketNumber) ∧
      ((∀ op ∈ ops, ∀ b ∈ op.blocks, b.Valid env → 0 ≤ b.ticketNumber) →
        ∀ pre, pre <+: ops → AnswersAll (run env s pre)) := by
  have hgenesis : Represents env s (genesisChain env) := represents_genesis hs
  obtain ⟨c, hc, -⟩ := run_represents ops hgenesis
  refine ⟨answersAll_iff hc, fun htickets pre hpre => run_answersAll hs fun op hop => ?_⟩
  exact htickets op (hpre.subset hop)

theorem served_iff_sample :
    (AnswersAll (run sampleEnv .init [.insert a1, .merge [a2, a3]]) ↔
        ∀ r ∈ (run sampleEnv .init [.insert a1, .merge [a2, a3]]).localChains,
          0 ≤ r.ticketNumber) ∧
      ((∀ op ∈ [Op.insert a1, .merge [a2, a3]], ∀ b ∈ op.blocks, b.Valid sampleEnv →
          0 ≤ b.ticketNumber) →
        ∀ pre, pre <+: [.insert a1, .merge [a2, a3]] → AnswersAll (run sampleEnv .init pre)) :=
  served_iff rfl [.insert a1, .merge [a2, a3]]

/-- `a1` with ticket -1. -/
def aNegative : Block := { a1 with ticketNumber := -1 }

/-- It is stored, and the request for the last block raises. -/
theorem negative_ticket_not_served :
    returned (insert sampleEnv aNegative) .init = some true ∧
      raised (resyncAnswer (-1)) (after (insert sampleEnv aNegative) .init) = some .overflowError ∧
      ¬AnswersAll (run sampleEnv .init [.insert aNegative]) := by
  have hcalls : returned (insert sampleEnv aNegative) .init = some true ∧
      raised (resyncAnswer (-1)) (after (insert sampleEnv aNegative) .init) = some .overflowError ∧
      ¬∀ r ∈ (run sampleEnv .init [.insert aNegative]).localChains, 0 ≤ r.ticketNumber := by
    decide +kernel
  refine ⟨hcalls.1, hcalls.2.1, fun hall => ?_⟩
  have hreachable : Reachable sampleEnv (run sampleEnv .init [.insert aNegative]) :=
    ⟨.init, _, rfl, rfl⟩
  obtain ⟨c, hc⟩ := hreachable.represents
  exact hcalls.2.2 ((answersAll_iff hc).mp hall)

end Cpos
