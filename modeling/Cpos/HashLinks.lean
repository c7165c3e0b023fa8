import Mathlib.Data.Set.Function
import Cpos.LocalChain

/-!
# Hash links

What the hash of a block pins down. Where the derived fields of blocks
are the ones `update` computes and no two strings hashed for them
collide, blocks with one hash have one parent (`parentHash_eq`): the
proof hash has 32 bytes, a parent's hash one or 32 and a transaction hash
none or 32, so the hashed string can be taken apart in one way only.

Hence a hash stands for a whole path. Two chains that share the hash of a
block share all hashes below it, at the same positions, whichever nodes
they belong to (`prefix_of_hash_eq`).
-/

namespace Cpos

open Python ByteString Sha256 LinkedChain

variable {K : Type} [PyNum K] {env env' : Env K}

/-! ## What is hashed -/

/-- The strings that `update` hashes for a block. -/
def Block.hashed (b : Block) : List Bytes :=
  ((toBytesLE 4 b.round).map fun r => b.ownerPubkey ++ r ++ b.parentHash).toList
    ++ ((toBytesLE 4 b.ticketNumber).map fun t => b.nodeHash ++ t).toList
    ++ [b.proofHash ++ b.parentHash ++ b.transactionHash]

/-- Different strings hashed for these blocks have different hashes. -/
def CollisionFree (blocks : List Block) : Prop :=
  Set.InjOn sha256 {x | x ∈ blocks.flatMap Block.hashed}

/-- The derived fields of a bound block are hashes of strings hashed for
it. -/
theorem Block.Bound.hashes {b : Block} (h : b.Bound) :
    ∃ r t, toBytesLE 4 b.round = some r ∧ toBytesLE 4 b.ticketNumber = some t ∧
      b.nodeHash = sha256 (b.ownerPubkey ++ r ++ b.parentHash) ∧
      b.proofHash = sha256 (b.nodeHash ++ t) ∧
      b.hash = sha256 (b.proofHash ++ b.parentHash ++ b.transactionHash) ∧
      b.hashed = [b.ownerPubkey ++ r ++ b.parentHash, b.nodeHash ++ t,
        b.proofHash ++ b.parentHash ++ b.transactionHash] := by
  obtain ⟨r, t, hr, ht, hb⟩ := Block.update_eq_ok h
  have hnode : b.nodeHash = sha256 (b.ownerPubkey ++ r ++ b.parentHash) :=
    congrArg Block.nodeHash hb
  have hproof : b.proofHash = sha256 (b.nodeHash ++ t) := by
    rw [hnode]
    exact congrArg Block.proofHash hb
  have hhash : b.hash = sha256 (b.proofHash ++ b.parentHash ++ b.transactionHash) := by
    rw [hproof, hnode]
    exact congrArg Block.hash hb
  refine ⟨r, t, hr, ht, hnode, hproof, hhash, ?_⟩
  rw [Block.hashed, hr, ht]
  rfl

theorem Block.Bound.map_hashed {b : Block} (h : b.Bound) :
    b.hashed.map sha256 = [b.nodeHash, b.proofHash, b.hash] := by
  obtain ⟨r, t, -, -, hnode, hproof, hhash, hstrings⟩ := h.hashes
  rw [hstrings, List.map_cons, List.map_cons, List.map_singleton, ← hnode, ← hproof, ← hhash]

/-- It is enough that the derived fields are different. -/
theorem collisionFree_of_nodup {blocks : List Block} (hbound : ∀ b ∈ blocks, b.Bound)
    (hnodup : (blocks.flatMap fun b => [b.nodeHash, b.proofHash, b.hash]).Nodup) :
    CollisionFree blocks := by
  have hmap : (blocks.flatMap Block.hashed).map sha256
      = blocks.flatMap fun b => [b.nodeHash, b.proofHash, b.hash] := by
    rw [List.map_flatMap]
    exact List.flatMap_congr fun b hb => (hbound b hb).map_hashed
  exact List.inj_on_of_nodup_map (hmap ▸ hnodup)

/-! ## Taking the hashed string apart -/

/-- The derived fields are the block's own, and the transaction hash is
that of a plain list or a digest. -/
structure Block.Sealed (b : Block) : Prop where
  bound : b.Bound
  transactionHash : b.transactionHash = [] ∨ b.transactionHash.length = 32

theorem Block.Sealed.hash_length {b : Block} (h : b.Sealed) : b.hash.length = 32 := by
  obtain ⟨_, _, _, _, _, _, hhash, _⟩ := h.bound.hashes
  rw [hhash, sha256_length]

section Sealed

variable {blocks : List Block} (hcol : CollisionFree blocks) (hsealed : ∀ b ∈ blocks, b.Sealed)
include hcol hsealed

/-- Blocks with one hash agree in what is hashed last. -/
theorem hash_parts_eq {b b' : Block} (hmem : b ∈ blocks) (hmem' : b' ∈ blocks)
    (hlen : b.parentHash.length = 1 ∨ b.parentHash.length = 32)
    (hlen' : b'.parentHash.length = 1 ∨ b'.parentHash.length = 32) (h : b.hash = b'.hash) :
    b.proofHash = b'.proofHash ∧ b.parentHash = b'.parentHash ∧
      b.transactionHash = b'.transactionHash := by
  obtain ⟨r, t, hr, ht, hnode, hproof, hhash, hstrings⟩ := (hsealed b hmem).bound.hashes
  obtain ⟨r', t', hr', ht', hnode', hproof', hhash', hstrings'⟩ := (hsealed b' hmem').bound.hashes
  have hsame : b.proofHash ++ b.parentHash ++ b.transactionHash
      = b'.proofHash ++ b'.parentHash ++ b'.transactionHash := by
    refine hcol (List.mem_flatMap.mpr ⟨b, hmem, ?_⟩) (List.mem_flatMap.mpr ⟨b', hmem', ?_⟩) ?_
    · simp [hstrings]
    · simp [hstrings']
    · rw [← hhash, ← hhash', h]
  rw [List.append_assoc, List.append_assoc] at hsame
  obtain ⟨hproofs, hrest⟩ := List.append_inj hsame (by
    rw [hproof, hproof', sha256_length, sha256_length])
  have htx : b.transactionHash.length = 0 ∨ b.transactionHash.length = 32 :=
    (hsealed b hmem).transactionHash.imp_left fun hnil => by simp [hnil]
  have htx' : b'.transactionHash.length = 0 ∨ b'.transactionHash.length = 32 :=
    (hsealed b' hmem').transactionHash.imp_left fun hnil => by simp [hnil]
  have htotal := congrArg List.length hrest
  rw [List.length_append, List.length_append] at htotal
  exact ⟨hproofs, List.append_inj hrest (by omega)⟩

/-- Blocks with one hash have one parent. -/
theorem parentHash_eq {b b' : Block} (hmem : b ∈ blocks) (hmem' : b' ∈ blocks)
    (hlen : b.parentHash.length = 1 ∨ b.parentHash.length = 32)
    (hlen' : b'.parentHash.length = 1 ∨ b'.parentHash.length = 32) (h : b.hash = b'.hash) :
    b.parentHash = b'.parentHash :=
  (hash_parts_eq hcol hsealed hmem hmem' hlen hlen' h).2.1

end Sealed

/-! ## Chains of such blocks -/

/-- Apart from the genesis block the chain holds blocks of the list. -/
def Over (blocks : List Block) (c : Chain (rules env)) : Prop :=
  ∀ b ∈ c.blocks, b = genesisBlock ∨ b ∈ blocks

theorem over_of_subset {blocks l : List Block} {c : Chain (rules env)}
    (h : c.blocks ⊆ [genesisBlock] ++ l) (hl : l ⊆ blocks) : Over blocks c := by
  intro b hb
  rcases List.mem_append.mp (h hb) with hb | hb
  · exact .inl (List.mem_singleton.mp hb)
  · exact .inr (hl hb)

theorem Over.mem_of_index {blocks : List Block} {c : Chain (rules env)} (hc : Over blocks c)
    {i : Nat} {b : Block} (hb : c.blocks[i + 1]? = some b) : b ∈ blocks := by
  rcases hc b (List.mem_of_getElem? hb) with rfl | hmem
  · have hidx := index_at hb
    have hzero : genesisBlock.index = 0 := rfl
    omega
  · exact hmem

section Prefix

variable {blocks : List Block} (hcol : CollisionFree blocks) (hsealed : ∀ b ∈ blocks, b.Sealed)
  {c : Chain (rules env)} {c' : Chain (rules env')} (hc : Over blocks c) (hc' : Over blocks c')

include hsealed hc in
theorem hash_length_of_over {b : Block} (hb : b ∈ c.blocks) :
    b.hash.length = 1 ∨ b.hash.length = 32 := by
  rcases hc b hb with rfl | hmem
  · exact .inl rfl
  · exact .inr (hsealed b hmem).hash_length

include hsealed hc in
theorem parentHash_length_of_over {i : Nat} {b : Block} (hb : c.blocks[i + 1]? = some b) :
    b.parentHash.length = 1 ∨ b.parentHash.length = 32 := by
  have hlt := (List.getElem?_eq_some_iff.mp hb).1
  have hp := List.getElem?_eq_getElem (l := c.blocks) (i := i) (by omega)
  rw [(follows_at hp hb).parent]
  exact hash_length_of_over hsealed hc (List.mem_of_getElem? hp)

include hcol hsealed hc hc' in
/-- A hash stands for the path to it. -/
theorem prefix_of_hash_eq {i j : Nat} {a a' : Block} (ha : c.blocks[i]? = some a)
    (ha' : c'.blocks[j]? = some a') (h : a.hash = a'.hash) :
    i = j ∧ (c.blocks.take (i + 1)).map Block.hash = (c'.blocks.take (j + 1)).map Block.hash := by
  refine @Chain.take_eq_of_ident _ _ _ _ _ c c' rfl rfl ?_ _ _ _ _ ha ha' h
  intro p b p' b' hpb hpb' hb hb' heq
  have hsucc {e : Env K} {d : Chain (rules e)} {x y : Block} (hxy : Follows e x y)
      (hy : y ∈ d.blocks) : ∃ k, d.blocks[k + 1]? = some y := by
    obtain ⟨k, hk⟩ := List.mem_iff_getElem?.mp hy
    have hidx := index_at hk
    have hindex := hxy.index
    have hnonneg := hxy.nonneg
    exact ⟨k - 1, by rw [show k - 1 + 1 = k by omega]; exact hk⟩
  obtain ⟨k, hk⟩ := hsucc hpb hb
  obtain ⟨k', hk'⟩ := hsucc hpb' hb'
  show p.hash = p'.hash
  rw [← Follows.parent hpb, ← Follows.parent hpb']
  exact parentHash_eq hcol hsealed (hc.mem_of_index hk) (hc'.mem_of_index hk')
    (parentHash_length_of_over hsealed hc hk) (parentHash_length_of_over hsealed hc' hk') heq

end Prefix

end Cpos
