import Cpos.HashLinks
import Cpos.Run

/-!
# The header of a block

The three hashes of a block are nested: the node hash covers owner, round
and parent, the proof hash the node hash and the ticket, and the hash the
proof hash, the parent and the transactions. None of the strings has
separators. Owner and parent come with a field of four bytes between
them, and a digest, the parent's one or 32 bytes and a transaction hash of
none or 32 have a different total length in each case.

So **the hash pins down the header** (`header_of_hash`), level by level
from the outside. The index and the signature are in none of the strings.
-/

namespace Cpos

open Python ByteString Sha256

variable {X Y : Block}

/-! ## What the proof hash covers -/

/-- They differ in what the proof hash is made of, apart from the parent. -/
def Separated (X Y : Block) : Prop :=
  X.ownerPubkey ≠ Y.ownerPubkey ∨ X.round ≠ Y.round ∨ X.ticketNumber ≠ Y.ticketNumber

/-- Equal hashes of strings hashed for the two blocks are hashes of equal
strings. -/
theorem CollisionFree.string_eq (hfree : CollisionFree [X, Y]) {x y : Bytes} (hx : x ∈ X.hashed)
    (hy : y ∈ Y.hashed) (h : sha256 x = sha256 y) : x = y :=
  hfree (List.mem_flatMap.mpr ⟨X, by simp, hx⟩) (List.mem_flatMap.mpr ⟨Y, by simp, hy⟩) h

section Hashes

variable (hX : X.Bound) (hY : Y.Bound) (hfree : CollisionFree [X, Y])
include hX hY hfree

theorem proofHash_eq_iff (hparent : X.parentHash = Y.parentHash) :
    X.proofHash = Y.proofHash ↔ ¬Separated X Y := by
  obtain ⟨r, t, hr, ht, hnode, hproof, -, hstrings⟩ := hX.hashes
  obtain ⟨r', t', hr', ht', hnode', hproof', -, hstrings'⟩ := hY.hashes
  rw [Separated]
  push Not
  constructor
  · intro heq
    -- from the proof hash to the node hash and the ticket
    have hproofs := hfree.string_eq (by rw [hstrings]; simp) (by rw [hstrings']; simp)
      (hproof.symm.trans (heq.trans hproof'))
    obtain ⟨hnodes, htickets⟩ := List.append_inj hproofs (by
      rw [hnode, hnode', sha256_length, sha256_length])
    -- from the node hash to the owner and the round
    have hheads := hfree.string_eq (by rw [hstrings]; simp) (by rw [hstrings']; simp)
      (hnode.symm.trans (hnodes.trans hnode'))
    rw [hparent] at hheads
    obtain ⟨howners, hrounds⟩ := List.append_inj' (List.append_cancel_right hheads) (by
      rw [toBytesLE_length hr, toBytesLE_length hr'])
    refine ⟨howners, ?_, ?_⟩
    · rw [← fromBytesLE_toBytesLE hr, ← fromBytesLE_toBytesLE hr', hrounds]
    · rw [← fromBytesLE_toBytesLE ht, ← fromBytesLE_toBytesLE ht', htickets]
  · rintro ⟨howner, hround, hticket⟩
    rw [hround] at hr
    rw [hticket] at ht
    obtain rfl := Option.some.inj (hr.symm.trans hr')
    obtain rfl := Option.some.inj (ht.symm.trans ht')
    rw [hproof, hproof', hnode, hnode', howner, hparent]

theorem hash_ne_of_proofHash_ne (h : X.proofHash ≠ Y.proofHash) : X.hash ≠ Y.hash := by
  obtain ⟨_, _, _, _, _, hproof, hhash, hstrings⟩ := hX.hashes
  obtain ⟨_, _, _, _, _, hproof', hhash', hstrings'⟩ := hY.hashes
  intro heq
  have hstring := hfree.string_eq (by rw [hstrings]; simp) (by rw [hstrings']; simp)
    (hhash.symm.trans (heq.trans hhash'))
  rw [List.append_assoc, List.append_assoc] at hstring
  exact h (List.append_inj hstring (by
    rw [hproof, hproof', sha256_length, sha256_length])).1

end Hashes

/-! ## What the hash covers -/

/-- They agree in everything that reaches the hash. -/
structure SameHeader (X Y : Block) : Prop where
  ownerPubkey : X.ownerPubkey = Y.ownerPubkey
  round : X.round = Y.round
  parentHash : X.parentHash = Y.parentHash
  ticketNumber : X.ticketNumber = Y.ticketNumber
  transactionHash : X.transactionHash = Y.transactionHash

/-- Two different strings hashed for the blocks have one hash. -/
def Collide (X Y : Block) : Prop :=
  ∃ x ∈ X.hashed ++ Y.hashed, ∃ y ∈ X.hashed ++ Y.hashed, x ≠ y ∧ sha256 x = sha256 y

theorem collisionFree_of_not_collide (h : ¬Collide X Y) : CollisionFree [X, Y] := by
  intro x hx y hy heq
  have hstrings : [X, Y].flatMap Block.hashed = X.hashed ++ Y.hashed := by simp
  rw [Set.mem_ofPred_eq, hstrings] at hx hy
  by_contra hne
  exact h ⟨x, hx, y, hy, hne, heq⟩

/-- **A block hash determines the block's header.** -/
theorem header_of_hash (hX : X.Sealed) (hY : Y.Sealed)
    (hparentX : X.parentHash = genesisBlock.hash ∨ X.parentHash.length = 32)
    (hparentY : Y.parentHash = genesisBlock.hash ∨ Y.parentHash.length = 32)
    (h : X.hash = Y.hash) : SameHeader X Y ∨ Collide X Y := by
  by_cases hcollide : Collide X Y
  · exact .inr hcollide
  have hfree := collisionFree_of_not_collide hcollide
  have hsealed : ∀ b ∈ [X, Y], b.Sealed := by
    intro b hb
    rcases List.mem_pair.mp hb with rfl | rfl
    · exact hX
    · exact hY
  have hlength {b : Block} (hb : b.parentHash = genesisBlock.hash ∨ b.parentHash.length = 32) :
      b.parentHash.length = 1 ∨ b.parentHash.length = 32 :=
    hb.imp_left fun heq => by rw [heq]; rfl
  obtain ⟨hproofs, hparents, htransactions⟩ := hash_parts_eq hfree hsealed (by simp) (by simp)
    (hlength hparentX) (hlength hparentY) h
  have hsame := (proofHash_eq_iff hX.bound hY.bound hfree hparents).mp hproofs
  rw [Separated] at hsame
  push Not at hsame
  obtain ⟨howners, hrounds, htickets⟩ := hsame
  exact .inl ⟨howners, hrounds, hparents, htickets, htransactions⟩

/-- `a1` without its signature and at another index. -/
def aMoved : Block := { a1 with signedNodeHash := [], index := 7 }

theorem header_of_hash_moved : SameHeader a1 aMoved ∨ Collide a1 aMoved :=
  header_of_hash ⟨sampleBlocks_bound a1 (by simp), .inl rfl⟩ ⟨by decide +kernel, .inl rfl⟩
    (.inl rfl) (.inl rfl) rfl

end Cpos
