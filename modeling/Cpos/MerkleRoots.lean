import Mathlib.Data.List.Nodup
import Mathlib.Data.Set.Function
import Cpos.Merkle

/-!
# What a Merkle root says about the data

Leaves, inner nodes and padding go into one hash function without a mark
of what they are. The padding does no harm: digests have 32 bytes, the
padding one, so two equal strings hashed for inner nodes have equal parts
(`join_inj`), and equal roots of trees of one height have equal leaves
(`leaves_inj`).

A leaf may pass for an inner node, though. If the data of one tree are,
chunk by chunk, the strings hashed for a level of the other (`Nested`),
both have the same root, and different data. That needs a chunk size of
at least 64 (`chunkSize_of_nested`), which the default is, and it is all
that can happen without a collision (`merkleRoot_inj_iff`).
-/

namespace Cpos

open Python Pairing Chunking
open ByteString (Bytes)
open Sha256 (sha256 sha256_length)

namespace MerkleTree

/-! ## Taking the hashed strings apart -/

/-- Two digests, a digest and padding, or padding only. -/
def Splits (p : Bytes × Bytes) : Prop :=
  p.1.length = 32 ∧ (p.2.length = 32 ∨ p.2.length = 1) ∨ p.1.length = 1 ∧ p.2.length = 1

theorem join_inj {p q : Bytes × Bytes} (hp : Splits p) (hq : Splits q) (h : join p = join q) :
    p = q := by
  have hlen := congrArg List.length h
  simp only [join, List.length_append] at hlen
  have hfirst : p.1.length = q.1.length := by
    simp only [Splits] at hp hq
    omega
  obtain ⟨h₁, h₂⟩ := List.append_inj h hfirst
  exact Prod.ext h₁ h₂

theorem length_of_mem_level {l : List Bytes} {c : Bytes} (h : c ∈ level node l) :
    c.length = 32 := by
  obtain ⟨p, -, rfl⟩ := List.mem_map.mp h
  exact sha256_length _

/-- Only the leaves have to be looked at: above them everything is a
digest. -/
theorem splits_inputs {l : List Bytes} {d : Nat} (h : ∀ p ∈ pairs l, Splits p) :
    ∀ p ∈ inputs node d l, Splits p := by
  intro p hp
  obtain ⟨r, -, hp⟩ := mem_inputs.mp hp
  cases r with
  | zero => exact h p hp
  | succ r =>
      rw [levels_succ] at hp
      obtain ⟨h₁, h₂⟩ := mem_of_mem_pairs hp
      exact .inl ⟨length_of_mem_level h₁, .inl (length_of_mem_level h₂)⟩

/-- A digest where there is a chunk, padding behind. -/
theorem leaves_getElem? {n : Nat} {data c : Bytes} {i : Nat} (h : (leaves n data)[i]? = some c) :
    c.length = if i < (chunksOf n data).length then 32 else 1 := by
  rw [leaves, List.getElem?_append, List.length_map] at h
  split at h
  · next hlt =>
    rw [List.getElem?_map, Option.map_eq_some_iff] at h
    obtain ⟨x, -, rfl⟩ := h
    rw [if_pos hlt, sha256_length]
  · next hge =>
    rw [if_neg hge, List.eq_of_mem_replicate (List.mem_of_getElem? h), List.length_singleton]

theorem splits_leaves (n : Nat) (data : Bytes) : ∀ p ∈ pairs (leaves n data), Splits p := by
  intro p hp
  obtain ⟨i, hi⟩ := List.mem_iff_getElem?.mp hp
  obtain ⟨ha, hb⟩ := (pairs_getElem? _ i).mp hi
  have hfirst := leaves_getElem? ha
  have hsecond := leaves_getElem? hb
  rw [Splits, hfirst, hsecond]
  split <;> split <;> omega

/-- The digests of the chunks are the leaves of 32 bytes. -/
theorem filter_leaves (n : Nat) (data : Bytes) :
    (leaves n data).filter (fun c => c.length = 32) = (chunksOf n data).map sha256 := by
  rw [leaves, List.filter_append, List.filter_eq_self.mpr, List.filter_eq_nil_iff.mpr,
    List.append_nil]
  · intro c hc
    rw [List.eq_of_mem_replicate hc]
    decide
  · intro c hc
    obtain ⟨x, -, rfl⟩ := List.mem_map.mp hc
    simp

/-! ## Collisions -/

/-- Two different ones of these strings have one digest. -/
def Collide (strings : List Bytes) : Prop :=
  ∃ x ∈ strings, ∃ y ∈ strings, x ≠ y ∧ sha256 x = sha256 y

theorem Collide.mono {strings strings' : List Bytes} (h : Collide strings)
    (hsub : strings ⊆ strings') : Collide strings' := by
  obtain ⟨x, hx, y, hy, hne, heq⟩ := h
  exact ⟨x, hsub hx, y, hsub hy, hne, heq⟩

theorem injOn_of_not_collide {strings : List Bytes} (h : ¬Collide strings) :
    Set.InjOn sha256 {x | x ∈ strings} := by
  intro x hx y hy heq
  by_contra hne
  exact h ⟨x, hx, y, hy, hne, heq⟩

/-- It is enough that the digests of the different ones are different. -/
theorem not_collide_of_nodup {strings : List Bytes} (distinct : List Bytes)
    (hsub : strings ⊆ distinct) (h : (distinct.map sha256).Nodup) : ¬Collide strings := by
  rintro ⟨x, hx, y, hy, hne, heq⟩
  exact hne (List.inj_on_of_nodup_map h (hsub hx) (hsub hy) heq)

section Free

variable {strings : List Bytes} (hfree : ¬Collide strings)

include hfree

/-- Equal digests in order come from equal strings in order. -/
theorem map_sha256_inj {xs ys : List Bytes} (hxs : xs ⊆ strings) (hys : ys ⊆ strings)
    (h : xs.map sha256 = ys.map sha256) : xs = ys := by
  have hlen : xs.length = ys.length := by simpa using congrArg List.length h
  refine List.ext_getElem hlen fun i hi hi' => ?_
  refine injOn_of_not_collide hfree (hxs (List.getElem_mem hi)) (hys (List.getElem_mem hi')) ?_
  simpa [hi, hi'] using congrArg (·[i]?) h

/-- **Trees of one height with equal nodes at the top have equal leaves.** -/
theorem leaves_inj {l l' : List Bytes} {d : Nat} (hl : 2 ^ d ∣ l.length)
    (hlen : l.length = l'.length) (hsplits : ∀ p ∈ inputs node d l, Splits p)
    (hsplits' : ∀ p ∈ inputs node d l', Splits p)
    (hmem : (inputs node d l).map join ⊆ strings) (hmem' : (inputs node d l').map join ⊆ strings)
    (h : levels node d l = levels node d l') : l = l' := by
  refine levels_inj hl hlen (fun p hp q hq heq => ?_) h
  refine join_inj (hsplits p hp) (hsplits' q hq) ?_
  exact injOn_of_not_collide hfree (hmem (List.mem_map_of_mem hp)) (hmem' (List.mem_map_of_mem hq))
    heq

end Free

/-! ## A leaf as an inner node -/

/-- The chunks of `data` are the strings hashed for one level of the tree
of `data'`. -/
def Nested (n : Nat) (data data' : Bytes) : Prop :=
  ∃ j, chunksOf n data = (pairs (levels node j (leaves n data'))).map join

section Nested

variable {n d : Nat} {data data' : Bytes}

theorem chunksOf_ne_nil (hn : 0 < n) (hdata : data ≠ []) : chunksOf n data ≠ [] := by
  rw [chunksOf_cons hn hdata]
  simp

/-- Then that level has two nodes at least. -/
theorem level_lt_of_nested (hn : 0 < n) (hdata : data ≠ [])
    (hd : (leaves n data').length = 2 ^ d) {j : Nat}
    (h : chunksOf n data = (pairs (levels node j (leaves n data'))).map join) : j < d := by
  by_contra hge
  obtain ⟨root, hroot, -⟩ := levels_eq_singleton node hd
  have hle : (levels node j (leaves n data')).length ≤ 1 := by
    rw [show j = d + (j - d) by omega, levels_add, hroot]
    exact levels_length_le (j - d) [root]
  have hpos := List.length_pos_of_ne_nil (chunksOf_ne_nil hn hdata)
  rw [h, List.length_map, pairs_length] at hpos
  omega

/-- **A nested tree is a part of the other**: its leaves are the nodes of
the level above. -/
theorem leaves_of_nested (hn : 0 < n) (hdata : data ≠ [])
    (hd : (leaves n data').length = 2 ^ d) {j : Nat}
    (h : chunksOf n data = (pairs (levels node j (leaves n data'))).map join) :
    leaves n data = levels node (j + 1) (leaves n data') := by
  have hlt := level_lt_of_nested hn hdata hd h
  have hcount : (chunksOf n data).length = 2 ^ (d - j - 1) := by
    rw [h, List.length_map, pairs_length, levels_length_even hd hlt,
      Nat.mul_div_cancel_left _ (by decide)]
  have hpadding : calculatePadding (chunksOf n data).length = 0 := by
    rw [calculatePadding, if_pos ((isPowerOfTwo_iff _).mpr ⟨_, hcount⟩)]
  rw [leaves, hpadding, List.replicate_zero, List.append_nil, h, List.map_map, levels_succ]
  rfl

theorem root_eq_of_nested (hn : 0 < n) (hdata : data ≠ []) (h : Nested n data data') :
    root node (leaves n data) = root node (leaves n data') := by
  obtain ⟨d, hd⟩ := leaves_length n data'
  obtain ⟨j, h⟩ := h
  rw [leaves_of_nested hn hdata hd h, root_levels hd (level_lt_of_nested hn hdata hd h)]

theorem ne_of_nested (hn : 0 < n) (hdata : data ≠ []) (h : Nested n data data') : data ≠ data' := by
  rintro rfl
  obtain ⟨d, hd⟩ := leaves_length n data
  obtain ⟨j, h⟩ := h
  have hlt := level_lt_of_nested hn hdata hd h
  have hlen := congrArg List.length (leaves_of_nested hn hdata hd h)
  rw [levels_length hd hlt, hd] at hlen
  have := Nat.pow_right_injective (le_refl 2) hlen
  omega

/-- One chunk needs no padding. -/
theorem leaves_length_one (h : (chunksOf n data).length ≤ 1) : (leaves n data).length = 1 := by
  obtain ⟨d, hd⟩ := leaves_length n data
  have hleast := (isLeast_padded (chunksOf n data).length).2 ⟨⟨0, rfl⟩, h⟩
  have hpos := Nat.two_pow_pos d
  rw [leaves, List.length_append, List.length_map, List.length_replicate] at hd ⊢
  omega

theorem one_lt_chunks (hd : (leaves n data).length = 2 ^ d) (hpos : 0 < d) :
    1 < (chunksOf n data).length := by
  by_contra hle
  have hone := leaves_length_one (not_lt.mp hle)
  have := Nat.one_lt_two_pow (show d ≠ 0 by omega)
  omega

/-- The first two nodes of a level are digests, of the leaves or of what
earlier calls made of them. -/
theorem first_pair (hd : (leaves n data).length = 2 ^ d) {l : List Bytes}
    (hl : Overwritten node (leaves n data) l) {j : Nat} (hj : j < d) {p : Bytes × Bytes}
    (hp : (pairs (levels node j l))[0]? = some p) : p.1.length = 32 ∧ p.2.length = 32 := by
  obtain ⟨ha, hb⟩ := (pairs_getElem? _ 0).mp hp
  cases j with
  | zero =>
      have hcount := one_lt_chunks hd hj
      have hdigest {i : Nat} {c : Bytes} (hi : i < 2) (hc : l[i]? = some c) : c.length = 32 := by
        rcases hl.slot i c hc with hleaf | ⟨-, x, y, rfl⟩
        · rw [leaves_getElem? hleaf, if_pos (by omega)]
        · exact sha256_length _
      exact ⟨hdigest (by decide) ha, hdigest (by decide) hb⟩
  | succ j =>
      rw [levels_succ] at ha hb
      exact ⟨length_of_mem_level (List.mem_of_getElem? ha),
        length_of_mem_level (List.mem_of_getElem? hb)⟩

/-- **Small chunks cannot be nested.** -/
theorem chunkSize_of_nested (hn : 0 < n) (hdata : data ≠ []) (h : Nested n data data') :
    64 ≤ n := by
  obtain ⟨d, hd⟩ := leaves_length n data'
  obtain ⟨j, h⟩ := h
  have hj := level_lt_of_nested hn hdata hd h
  obtain ⟨p, hp⟩ : ∃ p, (pairs (levels node j (leaves n data')))[0]? = some p := by
    have hpos := List.length_pos_of_ne_nil (chunksOf_ne_nil hn hdata)
    rw [h, List.length_map] at hpos
    exact ⟨_, List.getElem?_eq_getElem hpos⟩
  obtain ⟨h₁, h₂⟩ := first_pair hd (.refl node _) hj hp
  have hmem : join p ∈ chunksOf n data := by
    rw [h]
    exact List.mem_map_of_mem (List.mem_of_getElem? hp)
  have hle := (isChunking_chunksOf hn data).length_le _ hmem
  rw [join, List.length_append] at hle
  omega

section Free

variable {strings : List Bytes} (hfree : ¬Collide strings)

include hfree

/-- **Equal roots have equal nodes** as far down as both trees go. -/
theorem leaves_eq_levels {d' : Nat} (hd : (leaves n data).length = 2 ^ d)
    (hd' : (leaves n data').length = 2 ^ d') (hle : d ≤ d')
    (hroot : root node (leaves n data) = root node (leaves n data'))
    (hjoins : (inputs node d (leaves n data)).map join ⊆ strings)
    (hjoins' : (inputs node d' (leaves n data')).map join ⊆ strings) :
    leaves n data = levels node (d' - d) (leaves n data') := by
  have hlen : (levels node (d' - d) (leaves n data')).length = 2 ^ d := by
    rw [levels_length hd' (Nat.sub_le d' d), Nat.sub_sub_self hle]
  have habove : ∀ p ∈ inputs node d (levels node (d' - d) (leaves n data')),
      p ∈ inputs node d' (leaves n data') := fun p hp => by
    have := inputs_levels hp
    rwa [Nat.sub_add_cancel hle] at this
  refine leaves_inj hfree (by rw [hd]) (by rw [hd, hlen]) (splits_inputs (splits_leaves n data))
    (fun p hp => splits_inputs (splits_leaves n data') p (habove p hp)) hjoins
    (List.Subset.trans (List.map_subset join habove) hjoins') ?_
  refine levels_eq_of_root_eq hd hlen ?_
  rw [hroot, root_levels hd' (Nat.sub_le d' d)]

theorem data_of_leaves (hn : 0 < n) (hchunks : chunksOf n data ⊆ strings)
    (hchunks' : chunksOf n data' ⊆ strings) (h : leaves n data = leaves n data') :
    data = data' := by
  have hdigests := congrArg (List.filter fun c => c.length = 32) h
  rw [filter_leaves, filter_leaves] at hdigests
  rw [← (isChunking_chunksOf hn data).flatten, ← (isChunking_chunksOf hn data').flatten,
    map_sha256_inj hfree hchunks hchunks' hdigests]

/-- Leaves that are inner nodes are no padding, so they are the digests of
what was hashed for these nodes. -/
theorem nested_of_leaves {d' j : Nat} (hj : j < d') (hchunks : chunksOf n data ⊆ strings)
    (hjoins' : (inputs node d' (leaves n data')).map join ⊆ strings)
    (h : leaves n data = levels node (j + 1) (leaves n data')) : Nested n data data' := by
  refine ⟨j, map_sha256_inj hfree hchunks ?_ ?_⟩
  · refine List.Subset.trans (List.map_subset join fun p hp => ?_) hjoins'
    exact mem_inputs.mpr ⟨j, hj, hp⟩
  · rw [← filter_leaves, h, levels_succ, List.filter_eq_self.mpr, level, List.map_map]
    · rfl
    · intro c hc
      exact decide_eq_true (length_of_mem_level hc)

/-- **Equal roots, taken apart.** Without a collision the lower tree is
the other one or a part of it. -/
theorem eq_or_nested (hn : 0 < n) {d' : Nat} (hd : (leaves n data).length = 2 ^ d)
    (hd' : (leaves n data').length = 2 ^ d') (hle : d ≤ d')
    (hroot : root node (leaves n data) = root node (leaves n data'))
    (hlog : chunksOf n data ++ (inputs node d (leaves n data)).map join ⊆ strings)
    (hlog' : chunksOf n data' ++ (inputs node d' (leaves n data')).map join ⊆ strings) :
    data = data' ∨ Nested n data data' := by
  obtain ⟨hchunks, hjoins⟩ := List.append_subset.mp hlog
  obtain ⟨hchunks', hjoins'⟩ := List.append_subset.mp hlog'
  have hleaves := leaves_eq_levels hfree hd hd' hle hroot hjoins hjoins'
  rcases Nat.eq_or_lt_of_le hle with rfl | hlt
  · rw [Nat.sub_self] at hleaves
    exact .inl (data_of_leaves hfree hn hchunks hchunks' hleaves)
  · obtain ⟨j, hj⟩ : ∃ j, d' - d = j + 1 := ⟨d' - d - 1, by omega⟩
    rw [hj] at hleaves
    exact .inr (nested_of_leaves hfree (by omega) hchunks hjoins' hleaves)

end Free

end Nested

/-- **Equal roots mean equal data, unless a leaf passes for an inner node**
or two of the strings hashed collide. -/
theorem merkleRoot_inj_iff {data data' : Bytes} (hdata : data ≠ []) (hdata' : data' ≠ [])
    {chunkSize : Int} (hsize : 1 ≤ chunkSize) :
    ∃ tree tree' root root' strings, init data chunkSize = .ok tree
      ∧ init data' chunkSize = .ok tree'
      ∧ returned merkleRoot tree = some root
      ∧ returned merkleRoot tree' = some root'
      ∧ strings = (after merkleRoot tree).hashed ++ (after merkleRoot tree').hashed
      ∧ ((root = root' → data = data' ∨ Collide strings)
        ↔ ¬(Nested chunkSize.toNat data data' ∨ Nested chunkSize.toNat data' data)
          ∨ Collide strings) := by
  obtain ⟨n, rfl⟩ := Int.eq_ofNat_of_zero_le (show 0 ≤ chunkSize by omega)
  have hn : 0 < n := by omega
  obtain ⟨tree, root, t, d, hinit, hcall, hd, hroot, hlog⟩ := first_call hdata hn
  obtain ⟨tree', root', t', d', hinit', hcall', hd', hroot', hlog'⟩ := first_call hdata' hn
  have hsame : root = root' ↔
      Pairing.root node (leaves n data) = Pairing.root node (leaves n data') := by
    rw [hroot, hroot', Option.some.injEq]
  refine ⟨tree, tree', root, root', _, hinit, hinit', returned_ok hcall, returned_ok hcall', rfl,
    ?_⟩
  rw [after_ok hcall, after_ok hcall', Int.toNat_natCast, hsame]
  constructor
  · rintro h
    by_contra hcon
    push Not at hcon
    obtain ⟨hnested | hnested, hfree⟩ := hcon
    · have heq := root_eq_of_nested hn hdata hnested
      exact (h heq).elim (ne_of_nested hn hdata hnested) hfree
    · have heq := root_eq_of_nested hn hdata' hnested
      exact (h heq.symm).elim (fun hdd => ne_of_nested hn hdata' hnested hdd.symm) hfree
  · intro h heq
    by_cases hfree : Collide (t.hashed ++ t'.hashed)
    · exact .inr hfree
    left
    have hapart := h.resolve_right hfree
    rcases Nat.le_total d d' with hle | hle
    · exact (eq_or_nested hfree hn hd hd' hle heq (hlog ▸ List.subset_append_left _ _)
        (hlog' ▸ List.subset_append_right _ _)).resolve_right fun h => hapart (.inl h)
    · exact ((eq_or_nested hfree hn hd' hd hle heq.symm (hlog' ▸ List.subset_append_right _ _)
        (hlog ▸ List.subset_append_left _ _)).resolve_right fun h => hapart (.inr h)).symm

theorem merkleRoot_inj_iff_bytes :
    ∃ tree tree' root root' strings, init [1] 1 = .ok tree ∧ init [2, 3] 1 = .ok tree'
      ∧ returned merkleRoot tree = some root
      ∧ returned merkleRoot tree' = some root'
      ∧ strings = (after merkleRoot tree).hashed ++ (after merkleRoot tree').hashed
      ∧ ((root = root' → ([1] : Bytes) = [2, 3] ∨ Collide strings)
        ↔ ¬(Nested 1 [1] [2, 3] ∨ Nested 1 [2, 3] [1]) ∨ Collide strings) :=
  merkleRoot_inj_iff (by decide) (by decide) (by decide)

/-- Two chunks of 64 bytes at most. -/
def wide : Bytes := List.replicate 65 0xFF

/-- One chunk: what is hashed for the root of `wide`. -/
def forged : Bytes := sha256 (List.replicate 64 0xFF) ++ sha256 [0xFF]

/-- **Different data, one root**, and three strings hashed with three
digests. -/
theorem forged_root :
    forged ≠ [] ∧ wide ≠ [] ∧ forged ≠ wide
      ∧ ∃ tree tree' root, init forged 64 = .ok tree ∧ init wide 64 = .ok tree'
        ∧ returned merkleRoot tree = some root ∧ returned merkleRoot tree' = some root
        ∧ ¬Collide ((after merkleRoot tree).hashed ++ (after merkleRoot tree').hashed) := by
  have hlen : forged.length = 64 := by
    rw [forged, List.length_append, sha256_length, sha256_length]
  have hforged : forged ≠ [] := List.ne_nil_of_length_pos (by omega)
  have hwide : wide ≠ [] := by decide
  -- one chunk and two
  have hchunks : chunksOf 64 forged = [forged] :=
    chunksOf_of_length_le (by decide) hforged hlen.le
  have hchunks' : chunksOf 64 wide = [List.replicate 64 0xFF, [0xFF]] := by decide
  have hleaves' : leaves 64 wide = [sha256 (List.replicate 64 0xFF), sha256 [0xFF]] := by
    rw [leaves, hchunks']
    rfl
  have hnested : Nested 64 forged wide := ⟨0, by rw [hchunks, hleaves']; rfl⟩
  obtain ⟨tree, root, t, d, hinit, hcall, hd, hroot, hlog⟩ :=
    first_call hforged (n := 64) (by decide)
  obtain ⟨tree', root', t', d', hinit', hcall', hd', hroot', hlog'⟩ :=
    first_call hwide (n := 64) (by decide)
  obtain rfl : root = root' := by
    rw [root_eq_of_nested (by decide) hforged hnested, hroot'] at hroot
    exact (Option.some.inj hroot).symm
  refine ⟨hforged, hwide, ne_of_nested (by decide) hforged hnested, tree, tree', root, hinit,
    hinit', returned_ok hcall, returned_ok hcall', ?_⟩
  rw [leaves_length_one (by rw [hchunks]; rfl)] at hd
  rw [hleaves'] at hd'
  obtain rfl : d = 0 := Nat.pow_right_injective (le_refl 2) hd.symm
  obtain rfl : d' = 1 := Nat.pow_right_injective (le_refl 2) hd'.symm
  rw [after_ok hcall, after_ok hcall', hlog, hlog', hchunks, hchunks', hleaves']
  refine not_collide_of_nodup [List.replicate 64 0xFF, [0xFF], forged] ?_ (by decide +kernel)
  simp [inputs, pairs, levels, join, forged]

end MerkleTree

end Cpos
