import Cpos.Run

/-!
# Derived fields of stored blocks

A block from the network arrives field by field. `validate_block` checks
the signature against the sender's `node_hash`, and `insert` compares the
sender's `proof_hash` and stores the sender's `hash`; none of the three
is recomputed from the block's contents. The blocks that `insert` takes
are therefore those the chain accepts, bound to their contents or not
(`insert_bound_iff`), and no state in which anything can be inserted is
safe: the block that can, with `proof_hash` emptied, can be inserted too
(`accepts_forge`).
-/

namespace Cpos

open Python ByteString Sha256 LinkedChain BlockChain

variable {K : Type} [PyNum K] {env : Env K} {s : BlockChain} {c : Chain (rules env)} {b : Block}

namespace Block

/-- The proof hash of a bound block is a hash. -/
theorem Bound.proofHash_ne_nil (h : b.Bound) : b.proofHash ≠ [] := by
  obtain ⟨r, t, -, -, hb⟩ := update_eq_ok h
  rw [hb]
  exact sha256_ne_nil _

/-- The sender's choice of the value that decides between competing
blocks. -/
def forge (b : Block) : Block := { b with proofHash := [] }

theorem not_bound_forge (b : Block) : ¬b.forge.Bound :=
  fun h => h.proofHash_ne_nil rfl

theorem Storable.forge (h : b.Storable) : b.forge.Storable := by
  simp only [Storable, Row.fits, Bool.and_eq_true] at h ⊢
  exact ⟨h.1, rfl⟩

end Block

/-- `insert` reads `proof_hash` in one comparison only, which the empty
one wins. -/
theorem accepts_forge (h : c.Accepts b) : c.Accepts b.forge := by
  obtain ⟨⟨hfresh, p, hp, hf⟩, hbeats⟩ := h
  refine ⟨⟨hfresh, p, hp, ?_⟩, ?_⟩
  · exact ⟨hf.parent, hf.index, hf.nonneg, hf.round, hf.valid, hf.storable.forge⟩
  · intro q hq
    have hlt : b.proofHash < q.proofHash := hbeats q hq
    have hle : ([] : Bytes) ≤ b.proofHash := not_lt.mp (List.not_lt_nil _)
    exact lt_of_le_of_lt hle hlt

/-- **Binding of stored blocks.** In every reachable state, a block that
`insert` stores has the derived fields of its contents exactly if it was
sent with them or fails one of the checks, which concern the fields as
they were sent; and all stored blocks have them only where no block
passes the checks. -/
theorem insert_bound_iff (h : Reachable env s) :
    ∃ c, Represents env s c ∧
      (∀ b : Block, (returned (insert env b) s = some true → b.Bound) ↔ b.Bound ∨ ¬c.Accepts b) ∧
      ((∀ b : Block, returned (insert env b) s = some true → b.Bound) ↔
        ∀ b : Block, ¬c.Accepts b) := by
  obtain ⟨c, hc⟩ := h.represents
  refine ⟨c, hc, fun b => ?_, ?_⟩
  · rw [returned_insert_iff hc]
    tauto
  · simp only [returned_insert_iff hc]
    refine ⟨fun hall b hacc => ?_, fun hno b hacc => absurd hacc (hno b)⟩
    exact b.not_bound_forge (hall _ (accepts_forge hacc))

/-- `a1` with an empty proof hash, on the genesis block. -/
theorem insert_bound_iff_init :
    ∃ c, Represents sampleEnv .init c ∧
      ((returned (insert sampleEnv a1.forge) .init = some true → a1.forge.Bound) ↔
        a1.forge.Bound ∨ ¬c.Accepts a1.forge) ∧
      c.Accepts a1.forge ∧
      ¬∀ b : Block, returned (insert sampleEnv b) .init = some true → b.Bound := by
  have hreachable : Reachable sampleEnv .init := ⟨.init, [], rfl, rfl⟩
  obtain ⟨c, hc, hblock, hall⟩ := insert_bound_iff hreachable
  have hstored : returned (insert sampleEnv a1.forge) .init = some true := by decide +kernel
  have hacc : c.Accepts a1.forge := by
    by_contra hno
    exact a1.not_bound_forge ((hblock a1.forge).mpr (.inr hno) hstored)
  exact ⟨c, hc, hblock a1.forge, hacc, fun hbound => hall.mp hbound a1.forge hacc⟩

/-- `a1` with an empty proof hash, and with another round than the one
that was signed. -/
theorem forged_block_inserted :
    returned (insert sampleEnv { a1 with proofHash := [], round := 2 }) .init = some true ∧
      ¬Block.Bound { a1 with proofHash := [], round := 2 } := by
  decide +kernel

end Cpos
