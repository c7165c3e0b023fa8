import Mathlib.Logic.Function.Iterate
import Cpos.MerkleRoots

/-!
# Asking for the root again

`merkle_root` works in `self.chunks`, so the next call starts from what
the last one left there: the first leaf of every pair is overwritten with
a digest from above it. The later calls still run over a list of the same
shape (`overwritten_calls`), so equal roots have equal lists below them
(`chunks_eq_of_root_eq`), and the first leaf is back only if the first
chunk is the very string the last call hashed at the top. A chunk of more
or less than 64 bytes is not (`chunkSize_of_recurring`).

So of the trees with more than one chunk only those come back to their
first root whose chunks lie on a cycle of the hash function
(`root_again_iff`).
-/

namespace Cpos

open Python Pairing Chunking
open ByteString (Bytes)
open Sha256 (sha256)

namespace MerkleTree

/-- Overwriting keeps the hashed strings apart. -/
theorem splits_of_overwritten {l t : List Bytes} (h : Overwritten node l t)
    (hl : ∀ p ∈ pairs l, Splits p) : ∀ p ∈ pairs t, Splits p := by
  intro p hp
  obtain ⟨i, hi⟩ := List.mem_iff_getElem?.mp hp
  obtain ⟨ha, hb⟩ := (pairs_getElem? _ i).mp hi
  have hsecond : l[2 * i + 1]? = some p.2 :=
    (h.slot _ _ hb).resolve_right fun ⟨heven, _⟩ => by omega
  obtain ⟨a, hfirst⟩ : ∃ a, l[2 * i]? = some a := by
    obtain ⟨hlt, -⟩ := List.getElem?_eq_some_iff.mp ha
    exact ⟨_, List.getElem?_eq_getElem (by rwa [← h.length])⟩
  have hpair := hl _ (List.mem_of_getElem? ((pairs_getElem? l i (p := (a, p.2))).mpr
    ⟨hfirst, hsecond⟩))
  rcases h.slot _ _ ha with hsame | ⟨-, x, y, hdigest⟩
  · rw [hfirst] at hsame
    rwa [Option.some.inj hsame] at hpair
  · have hlen : p.1.length = 32 := by rw [← hdigest, node, Sha256.sha256_length]
    simp only [Splits] at hpair ⊢
    omega

/-! ## Runs of calls -/

section Calls

variable {tree : MerkleTree} {d : Nat} (hd : tree.chunks.length = 2 ^ d)

include hd

theorem overwritten_calls (k : Nat) :
    Overwritten node tree.chunks ((after merkleRoot)^[k] tree).chunks := by
  induction k with
  | zero => exact .refl node _
  | succ k ih =>
      obtain ⟨root, t, hcall, -, -, hover, -⟩ := merkleRoot_ok (ih.length.trans hd)
      rw [Function.iterate_succ_apply', after_ok hcall]
      exact ih.trans hover

/-- The call after `k` others. -/
theorem call_ok (k : Nat) :
    ∃ root, returned merkleRoot ((after merkleRoot)^[k] tree) = some root
      ∧ Pairing.root node ((after merkleRoot)^[k] tree).chunks = some root
      ∧ ((after merkleRoot)^[k + 1] tree).chunks[0]? = some root
      ∧ ((after merkleRoot)^[k + 1] tree).hashed = ((after merkleRoot)^[k] tree).hashed
        ++ (inputs node d ((after merkleRoot)^[k] tree).chunks).map join := by
  obtain ⟨root, t, hcall, hroot, hslot, -, hlog⟩ :=
    merkleRoot_ok ((overwritten_calls hd k).length.trans hd)
  rw [Function.iterate_succ_apply', after_ok hcall]
  exact ⟨root, returned_ok hcall, hroot, hslot, hlog⟩

theorem hashed_mono {j k : Nat} (hjk : j ≤ k) :
    ((after merkleRoot)^[j] tree).hashed ⊆ ((after merkleRoot)^[k] tree).hashed := by
  induction k, hjk using Nat.le_induction with
  | base => exact List.Subset.refl _
  | succ k _ ih =>
      obtain ⟨-, -, -, -, hlog⟩ := call_ok hd k
      rw [hlog]
      exact List.subset_append_of_subset_left _ ih

theorem inputs_hashed {j k : Nat} (hjk : j < k) :
    (inputs node d ((after merkleRoot)^[j] tree).chunks).map join
      ⊆ ((after merkleRoot)^[k] tree).hashed := by
  obtain ⟨-, -, -, -, hlog⟩ := call_ok hd j
  refine List.Subset.trans ?_ (hashed_mono hd hjk)
  rw [hlog]
  exact List.subset_append_right _ _

/-- **The same root means the same list**, without a collision. -/
theorem chunks_eq_of_root_eq (hsplits : ∀ p ∈ pairs tree.chunks, Splits p) {k : Nat}
    (hfree : ¬Collide ((after merkleRoot)^[k + 1] tree).hashed)
    (h : Pairing.root node ((after merkleRoot)^[k] tree).chunks = Pairing.root node tree.chunks) :
    ((after merkleRoot)^[k] tree).chunks = tree.chunks := by
  have hover := overwritten_calls hd k
  have hd' := hover.length.trans hd
  refine leaves_inj hfree (by rw [hd']) hover.length
    (splits_inputs (splits_of_overwritten hover hsplits)) (splits_inputs hsplits)
    (inputs_hashed hd (Nat.lt_succ_self k)) (inputs_hashed hd (Nat.succ_pos k)) ?_
  exact levels_eq_of_root_eq hd' hd h

theorem root_eq_iff (hsplits : ∀ p ∈ pairs tree.chunks, Splits p) {k : Nat}
    (hfree : ¬Collide ((after merkleRoot)^[k + 1] tree).hashed) {root root' : Bytes}
    (hroot : Pairing.root node tree.chunks = some root)
    (hroot' : Pairing.root node ((after merkleRoot)^[k] tree).chunks = some root') :
    root' = root ↔ ((after merkleRoot)^[k] tree).chunks = tree.chunks := by
  constructor
  · rintro rfl
    exact chunks_eq_of_root_eq hd hsplits hfree (hroot'.trans hroot.symm)
  · intro heq
    rw [heq] at hroot'
    exact Option.some.inj (hroot'.symm.trans hroot)

end Calls

/-- A single chunk is its own root, and nothing is overwritten. -/
theorem calls_of_single {tree : MerkleTree} (hd : tree.chunks.length = 1) (k : Nat) :
    ((after merkleRoot)^[k] tree).chunks = tree.chunks := by
  induction k with
  | zero => rfl
  | succ k ih =>
      obtain ⟨root, -, hroot, hslot, -⟩ := call_ok (d := 0) hd k
      obtain ⟨c, hc⟩ := List.length_eq_one_iff.mp hd
      have hlen := (overwritten_calls (d := 0) hd (k + 1)).length.trans hd
      obtain ⟨c', hc'⟩ := List.length_eq_one_iff.mp hlen
      rw [ih, hc, Pairing.root] at hroot
      rw [hc', List.getElem?_cons_zero, ← hroot] at hslot
      rw [hc', hc, Option.some.inj hslot]

/-! ## When the first leaf comes back -/

section Recurring

variable {n : Nat} {data : Bytes}

theorem one_lt_leaves (hn : 0 < n) (hlong : n < data.length) : 1 < (leaves n data).length := by
  have hcount : ¬(chunksOf n data).length ≤ 1 := fun hle =>
    absurd ((chunksOf_length_le_one hn).mp hle) (by omega)
  rw [leaves, List.length_append, List.length_map]
  omega

/-- **Only chunks of 64 bytes come back**: the first one is then what the
call before hashed for its root. -/
theorem chunkSize_of_recurring (hn : 0 < n) (hlong : n < data.length) {k : Nat}
    (hfree : ¬Collide ((after merkleRoot)^[k + 1] (built n data)).hashed)
    (h : ((after merkleRoot)^[k + 1] (built n data)).chunks = leaves n data) : n = 64 := by
  have hdata : data ≠ [] := List.ne_nil_of_length_pos (by omega)
  have hmany := one_lt_leaves hn hlong
  obtain ⟨d, hd⟩ := leaves_length n data
  obtain ⟨e, rfl⟩ : ∃ e, d = e + 1 := by
    refine Nat.exists_eq_succ_of_ne_zero ?_
    rintro rfl
    omega
  -- the root of the call before, and the two nodes it was hashed from
  have hd' : (built n data).chunks.length = 2 ^ (e + 1) := hd
  have hover := overwritten_calls hd' k
  obtain ⟨root, -, hroot, hslot, -⟩ := call_ok hd' k
  obtain ⟨p, hpairs, hp⟩ := root_of_pair node (hover.length.trans hd')
  have htop : (pairs (levels node e ((after merkleRoot)^[k] (built n data)).chunks))[0]?
      = some p := by
    rw [hpairs, List.getElem?_cons_zero]
  obtain ⟨h₁, h₂⟩ := first_pair hd hover (Nat.lt_succ_self e) htop
  -- its digest is the first leaf again, so the two were the first chunk
  have hfirst : sha256 (data.take n) = node p.1 p.2 := by
    rw [h, leaves, chunksOf_cons hn hdata, List.map_cons] at hslot
    exact Option.some.inj (hslot.trans (hroot.symm.trans hp))
  have hchunk : data.take n = join p := by
    refine injOn_of_not_collide hfree ?_ ?_ hfirst
    · have hmem : data.take n ∈ chunksOf n data := by
        rw [chunksOf_cons hn hdata]
        exact List.mem_cons_self
      exact hashed_mono hd' (Nat.zero_le (k + 1)) hmem
    · have hmem := mem_inputs.mpr ⟨e, Nat.lt_succ_self e, List.mem_of_getElem? htop⟩
      exact inputs_hashed hd' (Nat.lt_succ_self k) (List.mem_map_of_mem hmem)
  have hlen := congrArg List.length hchunk
  rw [List.length_take, join, List.length_append] at hlen
  omega

theorem chunks_again_iff (hn : 0 < n) {k : Nat}
    (hfree : ¬Collide ((after merkleRoot)^[k] (built n data)).hashed) :
    ((after merkleRoot)^[k] (built n data)).chunks = leaves n data ↔
      k = 0 ∨ data.length ≤ n
        ∨ n = 64 ∧ ((after merkleRoot)^[k] (built n data)).chunks = leaves n data := by
  constructor
  · intro heq
    rcases Nat.lt_or_ge n data.length with hlong | hshort
    · cases k with
      | zero => exact .inl rfl
      | succ k => exact .inr (.inr ⟨chunkSize_of_recurring hn hlong hfree heq, heq⟩)
    · exact .inr (.inl hshort)
  · rintro (rfl | hshort | ⟨-, heq⟩)
    · rfl
    · have hone := leaves_length_one ((chunksOf_length_le_one hn).mpr hshort)
      exact calls_of_single (show (built n data).chunks.length = 1 from hone) k
    · exact heq

end Recurring

/-- **When a later call returns the first root**: with one chunk, or where
the chunks lie on a cycle of the hash function, or with a collision. -/
theorem root_again_iff {data : Bytes} (hdata : data ≠ []) {chunkSize : Int} (hsize : 1 ≤ chunkSize)
    (k : Nat) :
    ∃ tree root root' strings, init data chunkSize = .ok tree
      ∧ returned merkleRoot tree = some root
      ∧ returned merkleRoot ((after merkleRoot)^[k] tree) = some root'
      ∧ strings = ((after merkleRoot)^[k + 1] tree).hashed
      ∧ (root' = root ∨ Collide strings
        ↔ (k = 0 ∨ data.length ≤ chunkSize
            ∨ chunkSize = 64 ∧ ((after merkleRoot)^[k] tree).chunks = tree.chunks)
          ∨ Collide strings) := by
  obtain ⟨n, rfl⟩ := Int.eq_ofNat_of_zero_le (show 0 ≤ chunkSize by omega)
  have hn : 0 < n := by omega
  obtain ⟨d, hleaves⟩ := leaves_length n data
  have hd : (built n data).chunks.length = 2 ^ d := hleaves
  obtain ⟨root, hcall, hroot, -, -⟩ := call_ok hd 0
  obtain ⟨root', hcall', hroot', -, -⟩ := call_ok hd k
  refine ⟨built n data, root, root', _, init_ok hdata hn, hcall, hcall', rfl,
    or_congr_left' fun hfree => ?_⟩
  have hfree' : ¬Collide ((after merkleRoot)^[k] (built n data)).hashed :=
    fun h => hfree (h.mono (hashed_mono hd (Nat.le_succ k)))
  have h64 : (n : Int) = 64 ↔ n = 64 := by omega
  rw [Int.ofNat_le, h64]
  exact (root_eq_iff hd (splits_leaves n data) hfree hroot hroot').trans
    (chunks_again_iff hn hfree')

theorem root_again_iff_short :
    ∃ tree root root' strings, init [1] 2 = .ok tree
      ∧ returned merkleRoot tree = some root
      ∧ returned merkleRoot ((after merkleRoot)^[3] tree) = some root'
      ∧ strings = ((after merkleRoot)^[3 + 1] tree).hashed
      ∧ (root' = root ∨ Collide strings
        ↔ (3 = 0 ∨ ([1] : Bytes).length ≤ (2 : Int)
            ∨ (2 : Int) = 64 ∧ ((after merkleRoot)^[3] tree).chunks = tree.chunks)
          ∨ Collide strings) :=
  root_again_iff (by decide) (by decide) 3

/-- A call on two chunks. -/
theorem merkleRoot_pair (data : Bytes) (chunkSize : Int) (x y : Bytes) (hashed : List Bytes) :
    merkleRoot ⟨data, chunkSize, [x, y], hashed⟩
      = .ok (node x y) ⟨data, chunkSize, [node x y, y], hashed ++ [x ++ y]⟩ := by
  have hcombine : combine 0 0 ⟨data, chunkSize, [x, y], hashed⟩
      = .ok () ⟨data, chunkSize, [node x y, y], hashed ++ [x ++ y]⟩ := combine_ok rfl rfl
  have hitems : rangeBy 2 2 = .ok [0] := by decide
  have hsweep : [0].foldlM (fun _ i => combine 0 i) () ⟨data, chunkSize, [x, y], hashed⟩
      = .ok () ⟨data, chunkSize, [node x y, y], hashed ++ [x ++ y]⟩ := by
    rw [List.foldlM_cons, bind_ok hcombine]
    rfl
  have hround : rounds 3 2 0 ⟨data, chunkSize, [x, y], hashed⟩
      = .ok () ⟨data, chunkSize, [node x y, y], hashed ++ [x ++ y]⟩ := by
    rw [rounds, if_pos (by decide), hitems, bind_ok (eval_ok _), bind_ok hsweep]
    rfl
  rw [merkleRoot, bind_ok (get_ok _)]
  exact bind_ok hround

/-- **The second root of two chunks is another one**, and the four strings
hashed have four digests. -/
theorem second_root_differs :
    ∃ tree root root', init [1, 2] 1 = .ok tree
      ∧ returned merkleRoot tree = some root
      ∧ returned merkleRoot ((after merkleRoot)^[1] tree) = some root'
      ∧ root' ≠ root
      ∧ ¬Collide ((after merkleRoot)^[1 + 1] tree).hashed := by
  let a := sha256 [1]
  let b := sha256 [2]
  have hfirst := merkleRoot_pair [1, 2] 1 a b [[1], [2]]
  have hsecond := merkleRoot_pair [1, 2] 1 (node a b) b [[1], [2], a ++ b]
  have hnodup : ([[1], [2], a ++ b, node a b ++ b].map sha256).Nodup := by decide +kernel
  refine ⟨⟨[1, 2], 1, [a, b], [[1], [2]]⟩, node a b, node (node a b) b,
    init_ok (List.cons_ne_nil 1 [2]) Nat.one_pos, returned_ok hfirst, ?_, ?_, ?_⟩
  · rw [Function.iterate_one, after_ok hfirst]
    exact returned_ok hsecond
  · simp only [List.map_cons, List.nodup_cons, List.mem_cons, not_or] at hnodup
    exact (hnodup.2.2.1.1 ·.symm)
  · rw [Function.iterate_succ_apply', Function.iterate_one, after_ok hfirst]
    show ¬Collide (after merkleRoot ⟨[1, 2], 1, [node a b, b], [[1], [2], a ++ b]⟩).hashed
    rw [after_ok hsecond]
    exact not_collide_of_nodup _ (List.Subset.refl _) hnodup

end MerkleTree

end Cpos
