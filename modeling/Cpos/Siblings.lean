import Cpos.ChainOrder
import Cpos.Headers
import Cpos.Reload

/-!
# Two blocks for one place

Two blocks that extend the same tip are chosen between by their proof
hashes, and a tie keeps the block that came first. The proof hash covers
the owner, the round and the ticket (and, through the node hash, the
parent); transactions reach only the hash, and the signature reaches
none of the three.

So **the choice depends on the order of arrival exactly between blocks of
one owner, round and ticket** (`sibling_choice`): then each order leaves
the block it starts with.
-/

namespace Cpos

open Python ByteString Sha256 LinkedChain BlockChain

variable {K : Type} [PyNum K] {env : Env K} {s : BlockChain} {c : Chain (rules env)} {X Y : Block}

/-! ## The choice -/

/-- Of a bound block the row determines every field. -/
theorem Block.Bound.rowOf_inj (hX : X.Bound) (hY : Y.Bound) (h : rowOf X = rowOf Y) : X = Y := by
  have hcontents : ({ X with nodeHash := [] } : Block) = { Y with nodeHash := [] } := by
    cases X
    cases Y
    simp only [rowOf, Block.toRow, Row.mk.injEq, hex_inj] at h
    simp only [Block.mk.injEq]
    tauto
  have hupdate : X.update = Y.update := by
    have := congrArg Block.update hcontents
    rwa [Block.update_congr _ _ _ rfl, Block.update_congr _ _ _ rfl] at this
  exact Except.ok.inj (hX.symm.trans (hupdate.trans hY))

/-- Two different blocks with their own hash fields, each of which extends
the tip and is accepted on its own. -/
structure Competing (env : Env K) (s : BlockChain) (X Y : Block) : Prop where
  distinct : X ≠ Y
  bound : X.Bound ∧ Y.Bound
  index : X.index = s.localChains.length ∧ Y.index = s.localChains.length
  accepted : returned (insert env X) s = some true ∧ returned (insert env Y) s = some true

theorem Competing.symm (h : Competing env s X Y) : Competing env s Y X :=
  ⟨h.distinct.symm, h.bound.symm, h.index.symm, h.accepted.symm⟩

/-- The block at a position, as its row holds it. -/
def blockColumns (s : BlockChain) (i : Nat) : Option Row := s.localChains[i]?.map Row.static

/-- Both orders leave the same block at the new index. -/
def SameChoice (env : Env K) (s : BlockChain) (X Y : Block) : Prop :=
  blockColumns (run env s [.insert X, .insert Y]) s.localChains.length
    = blockColumns (run env s [.insert Y, .insert X]) s.localChains.length

/-- What one order leaves. -/
theorem Competing.left_by (h : Competing env s X Y) (hc : Represents env s c) :
    blockColumns (run env s [.insert X, .insert Y]) s.localChains.length
      = some (rowOf (firstOf (rules env) X Y)) := by
  obtain ⟨hindexX, hindexY⟩ := h.index
  have haccX := (returned_insert_iff hc X).mp h.accepted.1
  have haccY := (returned_insert_iff hc Y).mp h.accepted.2
  obtain ⟨_, _, _, _, _, hfitsX⟩ := counted_of_accepts haccX
  obtain ⟨_, _, _, _, _, hfitsY⟩ := counted_of_accepts haccY
  have hrep : Represents env (run env s [.insert X, .insert Y]) ((c.offer X).offer Y) := by
    show Represents env (step env (step env s (.insert X)) (.insert Y)) _
    rw [step_insert, step_insert]
    exact insert_offer (insert_offer hc hfitsX) hfitsY
  have hposX : (rules env).pos X = c.blocks.length := by
    show X.index.toNat = _
    rw [hindexX, hc.length, Int.toNat_natCast]
  have hposY : (rules env).pos Y = c.blocks.length := by
    show Y.index.toNat = _
    rw [hindexY, hc.length, Int.toNat_natCast]
  have hblocks := blocks_offer_offer haccX haccY (hposX.trans hposY.symm)
  rw [hposX, List.take_length] at hblocks
  have hat : ((c.offer X).offer Y).blocks[c.blocks.length]? = some (firstOf (rules env) X Y) := by
    rw [hblocks, List.getElem?_append_right (le_refl _), Nat.sub_self]
    rfl
  obtain ⟨r, hr, hst⟩ := hrep.row_at hat
  rw [blockColumns, hc.length, hr]
  exact congrArg some hst

theorem firstOf_bound (h : Competing env s X Y) : (firstOf (rules env) X Y).Bound := by
  unfold firstOf
  split
  · exact h.bound.2
  · exact h.bound.1

/-- Both extend the tip. -/
theorem Competing.parentHash_eq (h : Competing env s X Y) (hc : Represents env s c) :
    X.parentHash = Y.parentHash := by
  obtain ⟨p, _, hcX, -⟩ := counted_of_accepts ((returned_insert_iff hc X).mp h.accepted.1)
  obtain ⟨q, _, hcY, -⟩ := counted_of_accepts ((returned_insert_iff hc Y).mp h.accepted.2)
  have hp := hcX.parentAt
  rw [h.index.1, ← h.index.2] at hp
  obtain rfl := Option.some.inj (hp.symm.trans hcY.parentAt)
  rw [← hcX.parent, hcY.parent]

/-- Where the proof hashes are equal, the first block stays. -/
theorem firstOf_of_tie (h : X.proofHash = Y.proofHash) : firstOf (rules env) X Y = X := by
  rw [firstOf, if_neg]
  rintro ⟨-, hlt⟩
  have hlt : Y.proofHash < X.proofHash := hlt
  rw [h] at hlt
  exact absurd hlt (lt_irrefl _)

/-- **Which sibling is left.** The order makes no difference between
blocks that differ in owner, round or ticket; of blocks that agree in
them, the one that came first stays. -/
theorem sibling_choice (hs : Reachable env s) (h : Competing env s X Y)
    (hfree : CollisionFree [X, Y]) :
    (SameChoice env s X Y ↔ Separated X Y) ∧
      (¬Separated X Y →
        blockColumns (run env s [.insert X, .insert Y]) s.localChains.length = some (rowOf X) ∧
        blockColumns (run env s [.insert Y, .insert X]) s.localChains.length = some (rowOf Y)) := by
  obtain ⟨c, hc⟩ := hs.represents
  obtain ⟨hX, hY⟩ := h.bound
  have hkeys := proofHash_eq_iff hX hY hfree (h.parentHash_eq hc)
  constructor
  · have hrows : SameChoice env s X Y ↔ firstOf (rules env) X Y = firstOf (rules env) Y X := by
      rw [SameChoice, h.left_by hc, h.symm.left_by hc, Option.some.injEq]
      exact ⟨fun heq => (firstOf_bound h).rowOf_inj (firstOf_bound h.symm) heq, congrArg rowOf⟩
    have hcomm := firstOf_comm_iff (R := rules env) h.distinct
      fun hne => hash_ne_of_proofHash_ne hX hY hfree hne
    rw [hrows, hcomm]
    exact (not_congr hkeys).trans not_not
  · intro hno
    have htie := hkeys.mpr hno
    exact ⟨by rw [h.left_by hc, firstOf_of_tie htie],
      by rw [h.symm.left_by hc, firstOf_of_tie htie.symm]⟩

/-! ## One producer, two blocks -/

/-- Each of `b1` and `aMock` competes with `a1`. -/
theorem samples_compete :
    (a1 ≠ b1 ∧ a1 ≠ aMock ∧ aMock.Bound) ∧
      ([a1, b1].flatMap fun b => [b.nodeHash, b.proofHash, b.hash]).Nodup ∧
      returned (insert sampleEnv a1) .init = some true ∧
      returned (insert sampleEnv b1) .init = some true ∧
      returned (insert sampleEnv aMock) .init = some true := by decide +kernel

theorem competing_siblings : Competing sampleEnv .init a1 b1 := by
  obtain ⟨⟨hne, -, -⟩, -, hfirst, hsecond, -⟩ := samples_compete
  exact ⟨hne, ⟨sampleBlocks_bound a1 (by simp), sampleBlocks_bound b1 (by simp)⟩, ⟨rfl, rfl⟩,
    hfirst, hsecond⟩

theorem competing_twins : Competing sampleEnv .init a1 aMock := by
  obtain ⟨⟨-, hne, hbound⟩, -, hfirst, -, hsecond⟩ := samples_compete
  exact ⟨hne, ⟨sampleBlocks_bound a1 (by simp), hbound⟩, ⟨rfl, rfl⟩, hfirst, hsecond⟩

theorem sibling_choice_sample :
    (SameChoice sampleEnv .init a1 b1 ↔ Separated a1 b1) ∧
      (¬Separated a1 b1 →
        blockColumns (run sampleEnv .init [.insert a1, .insert b1])
          BlockChain.init.localChains.length = some (rowOf a1) ∧
        blockColumns (run sampleEnv .init [.insert b1, .insert a1])
          BlockChain.init.localChains.length = some (rowOf b1)) :=
  sibling_choice ⟨.init, [], rfl, rfl⟩ competing_siblings
    (collisionFree_of_nodup
      (fun b hb => sampleBlocks_bound b (List.mem_of_mem_take (i := 2) hb)) samples_compete.2.1)

/-- The two blocks share the strings of node hash and proof hash. -/
theorem collisionFree_twins : CollisionFree [a1, aMock] := by
  have hhashes : ((a1.hashed ++ [aMock.proofHash ++ aMock.parentHash ++ aMock.transactionHash]).map
      sha256).Nodup := by
    rw [List.map_append, competing_twins.bound.1.map_hashed, List.map_singleton]
    decide +kernel
  have hshared : [a1, aMock].flatMap Block.hashed
      ⊆ a1.hashed ++ [aMock.proofHash ++ aMock.parentHash ++ aMock.transactionHash] := by
    decide +kernel
  intro x hx y hy hxy
  exact List.inj_on_of_nodup_map hhashes (hshared hx) (hshared hy) hxy

/-- Two blocks of one producer that differ in their transactions: each
order leaves the one it starts with. -/
theorem twins_by_arrival :
    Competing sampleEnv .init a1 aMock ∧ CollisionFree [a1, aMock] ∧
      (run sampleEnv .init [.insert a1, .insert aMock]).localChains.map Row.hash
        = [genesisRow.hash, hex a1.hash] ∧
      (run sampleEnv .init [.insert aMock, .insert a1]).localChains.map Row.hash
        = [genesisRow.hash, hex aMock.hash] ∧
      ¬SameChoice sampleEnv .init a1 aMock := by
  have hruns : (run sampleEnv .init [.insert a1, .insert aMock]).localChains.map Row.hash
        = [genesisRow.hash, hex a1.hash] ∧
      (run sampleEnv .init [.insert aMock, .insert a1]).localChains.map Row.hash
        = [genesisRow.hash, hex aMock.hash] ∧ hex a1.hash ≠ hex aMock.hash := by decide +kernel
  refine ⟨competing_twins, collisionFree_twins, hruns.1, hruns.2.1, fun hsame => ?_⟩
  -- the hashes of the second rows
  have hhash (s : BlockChain) :
      (blockColumns s 1).map Row.hash = (s.localChains.map Row.hash)[1]? := by
    rw [blockColumns, Option.map_map, List.getElem?_map]
    rfl
  have heq : (blockColumns (run sampleEnv .init [.insert a1, .insert aMock]) 1).map Row.hash
      = (blockColumns (run sampleEnv .init [.insert aMock, .insert a1]) 1).map Row.hash :=
    congrArg (Option.map Row.hash) hsame
  rw [hhash, hhash, hruns.1, hruns.2.1] at heq
  exact hruns.2.2 (Option.some.inj heq)

end Cpos
