import Mathlib.Data.Nat.Size
import Mathlib.Order.Bounds.Basic
import Cpos.Chunking
import Cpos.Pairing
import Cpos.Python
import Cpos.Sha256

/-!
# The Merkle tree

`cpos/util/merkle.py`. The data are cut into chunks, the digests of the
chunks are padded to a power of two, and `merkle_root` hashes neighbours
together, level by level.

It does so in `self.chunks` itself: in round `r` the nodes sit `2 ^ r`
apart, and the hash of two of them takes the slot of the first. So a call
is a reduction by pairs in place (`rounds_inPlace`), returns its root
(`merkleRoot_ok`), and leaves the first leaf of every pair overwritten.

`hashed` is no attribute of the source: it lists what was given to
`sha256` so far, which is where a collision would have to be.
-/

namespace Cpos

open Python Pairing Chunking
open ByteString (Bytes)
open Sha256 (sha256)

/-- At zero the source computes `0 & -1`, which is zero as well. -/
def isPowerOfTwo (n : Nat) : Bool :=
  n &&& (n - 1) == 0 && n != 0

/-- The padding that rounds `n` up to the next power of two. -/
def calculatePadding (n : Nat) : Nat :=
  if isPowerOfTwo n then 0
  else (1 <<< n.size) - n

structure MerkleTree where
  data : Bytes
  chunkSize : Int
  chunks : List Bytes
  hashed : List Bytes
deriving DecidableEq

namespace MerkleTree

abbrev Call (α : Type) := EStateM PyErr MerkleTree α

/-- `sha256(m).digest()`. -/
def digest (m : Bytes) : Call Bytes := fun tree =>
  .ok (sha256 m) { tree with hashed := tree.hashed ++ [m] }

/-- One turn of the loop over the offsets. -/
def hashChunk (chunks : List Bytes) (offset : Nat) : Call (List Bytes) := do
  let self ← get
  let start := offset
  -- a size below zero gives no offsets, so none is cut off here
  let stop := offset + self.chunkSize.toNat
  let chunk ← digest ((self.data.take stop).drop start)
  return chunks ++ [chunk]

def createHashedChunks : Call (List Bytes) := do
  let self ← get
  let offsets ← eval (rangeBy self.data.length self.chunkSize)
  offsets.foldlM hashChunk []

def insertPadding : Call Unit := do
  let self ← get
  if !isPowerOfTwo self.chunks.length then
    let padding := calculatePadding self.chunks.length
    set { self with chunks := self.chunks ++ List.replicate padding [0x00] }

/-- `__init__` from where `data` and `chunk_size` are set. -/
def setUp : Call Unit := do
  let chunks ← createHashedChunks
  modify fun self => { self with chunks }
  insertPadding

/-- `MerkleTree(data, chunk_size)`; the `TypeError` reads "MerkleTree
input data cannot be empty". -/
def init (data : Bytes) (chunkSize : Int := 8192) : Except PyErr MerkleTree :=
  if data.isEmpty then .error .typeError
  else
    match setUp { data, chunkSize, chunks := [], hashed := [] } with
    | .ok _ tree => .ok tree
    | .error e _ => .error e

/-- `t[index]`. -/
def item (index : Nat) : Call Bytes := fun tree =>
  match tree.chunks[index]? with
  | some c => .ok c tree
  | none => .error .indexError tree

/-- `t[index] = c`. -/
def setItem (index : Nat) (c : Bytes) : Call Unit := fun tree =>
  .ok () { tree with chunks := tree.chunks.set index c }

def getIndex (i round : Nat) : Nat :=
  i * (1 <<< round)

/-- One turn of the inner loop. -/
def combine (round i : Nat) : Call Unit := do
  let first := getIndex i round
  let second := getIndex (i + 1) round
  let hash ← digest ((← item first) ++ (← item second))
  setItem first hash

/-- The outer loop: `fuel`, `size` and `round`. -/
def rounds : Nat → Nat → Nat → Call Unit
  | 0, _, _ => throw .outOfFuel
  | fuel + 1, size, round =>
      if size > 1 then do
        let items ← eval (rangeBy size 2)
        items.foldlM (fun _ i => combine round i) ()
        rounds fuel (size >>> 1) (round + 1)
      else return ()

def merkleRoot : Call Bytes := do
  let size := (← get).chunks.length
  rounds (size + 1) size 0
  item 0

end MerkleTree

/-! ## The padding -/

theorem isPowerOfTwo_iff (n : Nat) : isPowerOfTwo n = true ↔ ∃ d, n = 2 ^ d := by
  rw [← Nat.isPowerOfTwo, ← Nat.ne_zero_and_sub_one_eq_zero_iff_isPowerOfTwo, and_comm]
  simp [isPowerOfTwo]

/-- **The padding reaches the next power of two**, and not the one after
it. -/
theorem isLeast_padded (n : Nat) :
    IsLeast {w | (∃ d, w = 2 ^ d) ∧ n ≤ w} (n + calculatePadding n) := by
  rw [calculatePadding]
  split
  · next hpow => exact ⟨⟨(isPowerOfTwo_iff n).mp hpow, le_rfl⟩, fun w hw => hw.2⟩
  · next hpow =>
    have hlt : n < 2 ^ n.size := Nat.lt_size_self n
    rw [Nat.one_shiftLeft, Nat.add_sub_cancel' hlt.le]
    refine ⟨⟨⟨n.size, rfl⟩, hlt.le⟩, ?_⟩
    rintro w ⟨⟨d, rfl⟩, hle⟩
    have hne : n ≠ 2 ^ d := fun heq => hpow ((isPowerOfTwo_iff n).mpr ⟨d, heq⟩)
    exact Nat.pow_le_pow_right (by decide) (Nat.size_le.mpr (by omega))

/-- Seven chunks are padded to eight. -/
example : calculatePadding 7 = 1 := by decide +kernel

/-! ## The constructor -/

/-- The digests of the chunks, padded. -/
def leaves (n : Nat) (data : Bytes) : List Bytes :=
  (chunksOf n data).map sha256
    ++ List.replicate (calculatePadding (chunksOf n data).length) [0x00]

theorem leaves_length (n : Nat) (data : Bytes) : ∃ d, (leaves n data).length = 2 ^ d := by
  rw [leaves, List.length_append, List.length_map, List.length_replicate]
  exact (isLeast_padded _).1.1

namespace MerkleTree

/-- The chunk at an offset. -/
def chunkAt (tree : MerkleTree) (offset : Nat) : Bytes :=
  (tree.data.drop offset).take tree.chunkSize.toNat

theorem hashChunk_ok (tree : MerkleTree) (chunks : List Bytes) (offset : Nat) :
    hashChunk chunks offset tree = .ok (chunks ++ [sha256 (tree.chunkAt offset)])
      { tree with hashed := tree.hashed ++ [tree.chunkAt offset] } := by
  rw [chunkAt, ← Nat.add_sub_cancel_left (n := offset) (m := tree.chunkSize.toNat),
    ← List.drop_take]
  rfl

theorem hashChunks_ok (tree : MerkleTree) (chunks : List Bytes) (offsets : List Nat) :
    offsets.foldlM hashChunk chunks tree =
      .ok (chunks ++ (offsets.map tree.chunkAt).map sha256)
        { tree with hashed := tree.hashed ++ offsets.map tree.chunkAt } := by
  induction offsets generalizing tree chunks with
  | nil => simp; rfl
  | cons offset offsets ih =>
      rw [List.foldlM_cons, bind_ok (hashChunk_ok tree chunks offset), ih]
      simp [chunkAt]

theorem createHashedChunks_ok (tree : MerkleTree) {n : Nat} (hn : 0 < n)
    (hsize : tree.chunkSize = n) :
    createHashedChunks tree = .ok ((chunksOf n tree.data).map sha256)
      { tree with hashed := tree.hashed ++ chunksOf n tree.data } := by
  have hpieces : ((List.range ((tree.data.length + n - 1) / n)).map (· * n)).map tree.chunkAt
      = chunksOf n tree.data := by
    rw [List.map_map, chunksOf]
    refine List.map_congr_left fun i _ => ?_
    rw [Function.comp_apply, chunkAt, hsize, Int.toNat_natCast]
  rw [createHashedChunks, bind_ok (get_ok tree), hsize, rangeBy_of_pos hn, bind_ok (eval_ok _),
    hashChunks_ok, hpieces, hsize, List.nil_append]

theorem insertPadding_ok (tree : MerkleTree) :
    insertPadding tree = .ok () { tree with
      chunks := tree.chunks ++ List.replicate (calculatePadding tree.chunks.length) [0x00] } := by
  rw [insertPadding, bind_ok (get_ok tree)]
  split
  · rfl
  · next hpow =>
    rw [calculatePadding, if_pos (by simpa using hpow), List.replicate_zero, List.append_nil]
    rfl

/-- The tree before the first call. -/
def built (n : Nat) (data : Bytes) : MerkleTree where
  data := data
  chunkSize := n
  chunks := leaves n data
  hashed := chunksOf n data

theorem init_ok {data : Bytes} (hdata : data ≠ []) {n : Nat} (hn : 0 < n) :
    init data n = .ok (built n data) := by
  have hchunks := createHashedChunks_ok
    { data, chunkSize := n, chunks := [], hashed := [] } hn rfl
  rw [init, if_neg (by rwa [List.isEmpty_iff]), setUp, bind_ok hchunks]
  show (match insertPadding _ with | .ok _ tree => _ | .error e _ => _) = _
  rw [insertPadding_ok, List.length_map]
  rfl

/-! ## One call -/

/-- An inner node. -/
def node (a b : Bytes) : Bytes := sha256 (a ++ b)

def join (p : Bytes × Bytes) : Bytes := p.1 ++ p.2

theorem getIndex_eq (i round : Nat) : getIndex i round = i * 2 ^ round := by
  rw [getIndex, Nat.one_shiftLeft]

theorem item_ok {tree : MerkleTree} {index : Nat} {c : Bytes} (h : tree.chunks[index]? = some c) :
    item index tree = .ok c tree := by
  rw [item, h]

theorem combine_ok {tree : MerkleTree} {round i : Nat} {a b : Bytes}
    (ha : tree.chunks[i * 2 ^ round]? = some a) (hb : tree.chunks[(i + 1) * 2 ^ round]? = some b) :
    combine round i tree = .ok () { tree with
      chunks := tree.chunks.set (i * 2 ^ round) (node a b)
      hashed := tree.hashed ++ [a ++ b] } := by
  rw [← getIndex_eq] at ha hb ⊢
  rw [combine, bind_ok (item_ok ha), bind_ok (item_ok hb)]
  rfl

/-- The first elements of `m` pairs. -/
theorem rangeBy_two (m : Nat) : rangeBy (2 * m) 2 = .ok ((List.range m).map (· * 2)) := by
  rw [show (2 : Int) = (2 : Nat) from rfl, rangeBy_of_pos (by decide),
    show (2 * m + 2 - 1) / 2 = m by omega]

section Rounds

variable {tree : MerkleTree} {l : List Bytes} {d r : Nat}

/-- The inner loop, up to its `k`-th turn. -/
theorem sweep_inPlace (hl : l.length = 2 ^ d) (hr : r < d)
    (h : InPlace node d l r 0 tree.chunks) {k : Nat} (hk : k ≤ 2 ^ (d - r - 1)) :
    ∃ chunks, ((List.range k).map (· * 2)).foldlM (fun _ i => combine r i) () tree = .ok ()
        { tree with chunks, hashed := tree.hashed ++ ((pairs (levels node r l)).take k).map join }
      ∧ InPlace node d l r k chunks := by
  induction k with
  | zero => exact ⟨tree.chunks, by simp; rfl, h⟩
  | succ k ih =>
      obtain ⟨chunks, hsweep, hinv⟩ := ih (by omega)
      obtain ⟨a, b, hpair, ha, hb⟩ := hinv.operands hl hr hk
      refine ⟨_, ?_, hinv.store hpair ha⟩
      rw [List.range_succ, List.map_append, List.foldlM_append, bind_ok hsweep, List.map_singleton,
        List.foldlM_cons, mul_comm k 2, bind_ok (combine_ok ha hb), List.take_add_one, hpair]
      simp [join]
      rfl

/-- **The rounds reduce the list in place**, and hash the pairs of every
level. -/
theorem rounds_inPlace (hl : l.length = 2 ^ d) (fuel : Nat) (hr : r ≤ d) (hfuel : d < r + fuel)
    {before : List Bytes} (hlog : tree.hashed = before ++ (inputs node r l).map join)
    (h : InPlace node d l r 0 tree.chunks) :
    ∃ after, rounds fuel (2 ^ (d - r)) r tree = .ok () after
      ∧ InPlace node d l d 0 after.chunks
      ∧ after.hashed = before ++ (inputs node d l).map join := by
  induction fuel generalizing r tree with
  | zero => omega
  | succ fuel ih =>
      rw [rounds]
      rcases Nat.lt_or_ge r d with hlt | hge
      · have hwidth : 2 ^ (d - r) = 2 * 2 ^ (d - r - 1) := by
          rw [← pow_succ', show d - r - 1 + 1 = d - r by omega]
        have hmore : 2 ^ (d - r) > 1 := Nat.one_lt_two_pow (by omega)
        have hhalf : 2 ^ (d - r) >>> 1 = 2 ^ (d - (r + 1)) := by
          rw [Nat.shiftRight_one, hwidth, Nat.mul_div_cancel_left _ (by decide), Nat.sub_sub]
        have hitems : rangeBy (2 ^ (d - r)) 2 = .ok ((List.range (2 ^ (d - r - 1))).map (· * 2)) :=
          hwidth ▸ rangeBy_two _
        obtain ⟨chunks, hsweep, hinv⟩ := sweep_inPlace hl hlt h le_rfl
        rw [if_pos hmore, hitems, bind_ok (eval_ok _), bind_ok hsweep, hhalf]
        refine ih hlt (by omega) ?_ hinv.next
        have hall : (pairs (levels node r l)).length ≤ 2 ^ (d - r - 1) := by
          rw [pairs_length, levels_length_even hl hlt, Nat.mul_div_cancel_left _ (by decide)]
        rw [hlog, inputs_succ, List.take_of_length_le hall, List.map_append, List.append_assoc]
      · obtain rfl : r = d := by omega
        rw [if_neg (by simp)]
        exact ⟨tree, rfl, h, hlog⟩

/-- **The root of the leaves is returned**, and left in the first slot. -/
theorem merkleRoot_ok (h : tree.chunks.length = 2 ^ d) :
    ∃ root after, merkleRoot tree = .ok root after
      ∧ Pairing.root node tree.chunks = some root
      ∧ after.chunks[0]? = some root
      ∧ Overwritten node tree.chunks after.chunks
      ∧ after.hashed = tree.hashed ++ (inputs node d tree.chunks).map join := by
  obtain ⟨root, -, hroot⟩ := levels_eq_singleton node h
  obtain ⟨after, hrounds, hinv, hlog⟩ := rounds_inPlace h (tree.chunks.length + 1)
    (Nat.zero_le d) (by rw [h]; have := d.lt_two_pow_self; omega)
    (show tree.hashed = tree.hashed ++ _ by simp [inputs]) (inPlace_start node d tree.chunks)
  have hslot : after.chunks[0]? = some root := by rw [hinv.root h, hroot]
  refine ⟨root, after, ?_, hroot, hslot, hinv.overwritten, hlog⟩
  rw [Nat.sub_zero, ← h] at hrounds
  rw [merkleRoot, bind_ok (get_ok tree), bind_ok hrounds, item_ok hslot]

end Rounds

/-- The constructor and the first call. -/
theorem first_call {data : Bytes} (hdata : data ≠ []) {n : Nat} (hn : 0 < n) :
    ∃ tree root after d, init data n = .ok tree ∧ merkleRoot tree = .ok root after
      ∧ (leaves n data).length = 2 ^ d
      ∧ Pairing.root node (leaves n data) = some root
      ∧ after.hashed = chunksOf n data ++ (inputs node d (leaves n data)).map join := by
  obtain ⟨d, hd⟩ := leaves_length n data
  obtain ⟨root, after, hcall, hroot, -, -, hlog⟩ :=
    merkleRoot_ok (show (built n data).chunks.length = 2 ^ d from hd)
  exact ⟨built n data, root, after, d, init_ok hdata hn, hcall, hd, hroot, hlog⟩

/-- **The first root is the recursive one**: neighbours hashed together
until one node is left, over the digests of the chunks and zero bytes up
to the next power of two. -/
theorem merkleRoot_recursive {data : Bytes} (hdata : data ≠ []) {chunkSize : Int}
    (hsize : 1 ≤ chunkSize) :
    ∃ tree cs width root, init data chunkSize = .ok tree
      ∧ IsChunking chunkSize.toNat data cs
      ∧ IsLeast {w | (∃ d, w = 2 ^ d) ∧ cs.length ≤ w} width
      ∧ returned merkleRoot tree = some root
      ∧ Pairing.root (fun a b => sha256 (a ++ b))
          (cs.map sha256 ++ List.replicate (width - cs.length) [0x00]) = some root := by
  obtain ⟨n, rfl⟩ := Int.eq_ofNat_of_zero_le (show 0 ≤ chunkSize by omega)
  have hn : 0 < n := by omega
  obtain ⟨tree, root, after, d, hinit, hcall, -, hroot, -⟩ := first_call hdata hn
  refine ⟨tree, chunksOf n data, _, root, hinit, isChunking_chunksOf hn data, isLeast_padded _,
    returned_ok hcall, ?_⟩
  rwa [Nat.add_sub_cancel_left]

theorem merkleRoot_three_chunks :
    ∃ tree cs width root, init [1, 2, 3, 4, 5] 2 = .ok tree
      ∧ IsChunking 2 [1, 2, 3, 4, 5] cs
      ∧ IsLeast {w | (∃ d, w = 2 ^ d) ∧ cs.length ≤ w} width
      ∧ returned merkleRoot tree = some root
      ∧ Pairing.root (fun a b => sha256 (a ++ b))
          (cs.map sha256 ++ List.replicate (width - cs.length) [0x00]) = some root :=
  merkleRoot_recursive (by decide) (by decide)

end MerkleTree

end Cpos
