import Cpos.BlockChain
import Cpos.LinkedChain

/-!
# The table represents a chain

The abstract state of a node's store is a `Chain (rules env)`: the
genesis block followed by blocks each of which names its predecessor's
hash, has the next index and a later round, passes validation and fits
the table's columns. The table represents such a chain row by row
(`Represents`), up to the three columns that are not the block's own:
arrival time, confirmation and count.

Each query is evaluated here, once, on a table that represents a chain.
`WHERE block_index = i` is the row at position `i`, a suffix of indices
is a suffix of the table, and reading back a hash never fails. The
writes are given as functions on the state (`counted`, `cutTo`,
`pushed`), each with the chain its result represents.
-/

namespace Cpos

open Python ByteString LinkedChain

variable {K : Type} [PyNum K] {env : Env K}

/-! ## Lists whose elements know their position -/

section Indexed

variable {α : Type} {f : α → Int} {l : List α}

/-- `f` of an element is its position. -/
def Indexed (f : α → Int) (l : List α) : Prop :=
  ∀ (i : Nat) (a : α), l[i]? = some a → f a = i

theorem mem_take_lt (h : Indexed f l) {n : Nat} {a : α}
    (ha : a ∈ l.take n) : f a < n := by
  obtain ⟨i, hi⟩ := List.mem_iff_getElem?.mp ha
  rw [List.getElem?_take] at hi
  split at hi
  · next hin => rw [h i a hi]; omega
  · cases hi

theorem mem_drop_ge (h : Indexed f l) {n : Nat} {a : α}
    (ha : a ∈ l.drop n) : n ≤ f a := by
  obtain ⟨i, hi⟩ := List.mem_iff_getElem?.mp ha
  rw [List.getElem?_drop] at hi
  rw [h _ a hi]; omega

theorem filter_lt_eq_take (h : Indexed f l) {k : Int} (hk : 0 ≤ k) :
    (l.filter fun a => !(f a ≥ k)) = l.take k.toNat := by
  conv_lhs => rw [← List.take_append_drop k.toNat l, List.filter_append]
  rw [List.filter_eq_self.mpr, List.filter_eq_nil_iff.mpr, List.append_nil]
  · intro a ha
    have := mem_drop_ge h ha
    simp only [Bool.not_eq_true', decide_eq_false_iff_not, not_not, ge_iff_le]; omega
  · intro a ha
    have := mem_take_lt h ha
    simp only [Bool.not_eq_true', decide_eq_false_iff_not, ge_iff_le]; omega

theorem filter_ge_eq_drop (h : Indexed f l) {k : Int} (hk : 0 ≤ k) :
    (l.filter fun a => f a ≥ k) = l.drop k.toNat := by
  conv_lhs => rw [← List.take_append_drop k.toNat l, List.filter_append]
  rw [List.filter_eq_nil_iff.mpr, List.filter_eq_self.mpr, List.nil_append]
  · intro a ha
    have := mem_drop_ge h ha
    simp only [decide_eq_true_eq, ge_iff_le]; omega
  · intro a ha
    have := mem_take_lt h ha
    simp only [decide_eq_true_eq, ge_iff_le]; omega

theorem head?_filter_eq (h : Indexed f l) {k : Int} (hk : 0 ≤ k) :
    (l.filter fun a => f a = k).head? = l[k.toNat]? := by
  cases ha : l[k.toNat]? with
  | none =>
      rw [List.head?_eq_none_iff, List.filter_eq_nil_iff]
      intro a hmem
      obtain ⟨i, hi⟩ := List.mem_iff_getElem?.mp hmem
      have hlt := (List.getElem?_eq_some_iff.mp hi).1
      have hge := List.getElem?_eq_none_iff.mp ha
      have := h i a hi
      simp only [decide_eq_true_eq]; omega
  | some a =>
      rw [List.head?_filter, List.find?_eq_some_iff_getElem]
      obtain ⟨hlt, rfl⟩ := List.getElem?_eq_some_iff.mp ha
      refine ⟨by simp only [decide_eq_true_eq, h _ _ ha]; omega, k.toNat, hlt, rfl, ?_⟩
      intro j hj
      have := h j _ (List.getElem?_eq_getElem (by omega))
      simp only [Bool.not_eq_true', decide_eq_false_iff_not]; omega

theorem pairwise_of_indexed (h : Indexed f l) :
    l.Pairwise fun a b => f a < f b := by
  rw [List.pairwise_iff_getElem]
  intro i j hi hj hij
  rw [h i _ (List.getElem?_eq_getElem hi), h j _ (List.getElem?_eq_getElem hj)]
  omega

end Indexed

/-- Rows in the order of their indices, the other way round. -/
theorem orderByDesc_eq_reverse {l : List Row}
    (h : l.Pairwise fun r r' => r.blockIndex < r'.blockIndex) : orderByDesc l = l.reverse := by
  have hperm : (orderByDesc l).Perm l.reverse :=
    (List.perm_insertionSort _ l).trans (List.reverse_perm l).symm
  have hsorted : (orderByDesc l).Pairwise fun r r' => r'.blockIndex ≤ r.blockIndex :=
    List.pairwise_insertionSort _ l
  have hreverse : l.reverse.Pairwise fun r r' => r'.blockIndex ≤ r.blockIndex := by
    rw [List.pairwise_reverse]
    exact h.imp fun hlt => le_of_lt hlt
  have hnodup : (l.map Row.blockIndex).Nodup := by
    rw [List.Nodup, List.pairwise_map]
    exact h.imp fun hlt => ne_of_lt hlt
  refine hperm.eq_of_pairwise (fun r r' hr hr' hle hle' => ?_) hsorted hreverse
  exact List.inj_on_of_nodup_map hnodup (List.mem_reverse.mp (hperm.subset hr))
    (List.mem_reverse.mp hr') (le_antisymm hle' hle)

/-! ## The rules of the chain -/

/-- The columns that come from the block; arrival time, confirmation and
count are set to zero. -/
def Row.static (r : Row) : Row := { r with arriveTime := 0, confirmed := 0, numSuc := 0 }

/-- The row `insert` stores for a block, without its arrival time. -/
def rowOf (b : Block) : Row := b.toRow 0 0

/-- Validation grants the block winning tickets. -/
def Block.Valid (env : Env K) (b : Block) : Prop :=
  ∃ w, validateBlock env b = .ok (some w) ∧ w ≠ 0

/-- Every field is in the range of its column. -/
def Block.Storable (b : Block) : Prop := (rowOf b).fits = true

instance (b : Block) : Decidable b.Storable := inferInstanceAs (Decidable (_ = _))

theorem natAbs_lt_strLimit_of_fits {n : Int} (h : fitsInteger n = true) :
    n.natAbs < strLimit := by
  rw [fitsInteger, Bool.and_eq_true, decide_eq_true_iff, decide_eq_true_iff] at h
  exact natAbs_lt_strLimit h.1 h.2

theorem Block.Storable.printable {b : Block} (h : b.Storable) : b.Printable := by
  simp only [Storable, Row.fits, rowOf, Block.toRow, Bool.and_eq_true] at h
  obtain ⟨⟨⟨⟨⟨⟨⟨⟨⟨⟨⟨hindex, -⟩, hround⟩, -⟩, -⟩, -⟩, -⟩, -⟩, -⟩, -⟩, -⟩, -⟩ := h
  exact ⟨natAbs_lt_strLimit_of_fits hround, natAbs_lt_strLimit_of_fits hindex⟩

/-- What `has_correct_parent` raises where there is no row below the
block's index. -/
def Block.missingParent (b : Block) : PyErr :=
  if (b.index - 1).natAbs < strLimit then .typeError else intTooLong

/-- `b` may stand directly after `p` in a local chain. -/
structure Follows (env : Env K) (p b : Block) : Prop where
  parent : b.parentHash = p.hash
  index : b.index = p.index + 1
  nonneg : 0 ≤ p.index
  round : p.round < b.round
  valid : b.Valid env
  storable : b.Storable

/-- The rules of a local chain: blocks are told apart by their hash, a
smaller proof hash wins. -/
def rules (env : Env K) : Rules Block Bytes Bytes where
  root := genesisBlock
  ident := Block.hash
  pos b := b.index.toNat
  key := Block.proofHash
  follows := Follows env
  pos_root := rfl
  pos_follows h := by rw [h.index]; have := h.nonneg; omega

/-- A row stores a block. -/
def Stores (r : Row) (b : Block) : Prop := r.static = rowOf b

namespace Stores

variable {r : Row} {b : Block}

theorem blockIndex (h : Stores r b) : r.blockIndex = b.index := congrArg Row.blockIndex h

theorem id (h : Stores r b) : r.id = hex b.hash := congrArg Row.id h

theorem hash (h : Stores r b) : r.hash = hex b.hash := congrArg Row.hash h

theorem round (h : Stores r b) : r.round = b.round := congrArg Row.round h

theorem parentHash (h : Stores r b) : r.parentHash = hex b.parentHash :=
  congrArg Row.parentHash h

theorem proofHash (h : Stores r b) : r.proofHash = hex b.proofHash := congrArg Row.proofHash h

theorem ownerPubkey (h : Stores r b) : r.ownerPubkey = hex b.ownerPubkey :=
  congrArg Row.ownerPubkey h

theorem signedNodeHash (h : Stores r b) : r.signedNodeHash = hex b.signedNodeHash :=
  congrArg Row.signedNodeHash h

theorem ticketNumber (h : Stores r b) : r.ticketNumber = b.ticketNumber :=
  congrArg Row.ticketNumber h

theorem transactions (h : Stores r b) : r.transactions = b.transactions :=
  congrArg Row.transactions h

/-- Whether a row fits is decided by its block and its arrival time. -/
theorem fits_iff (h : Stores r b) :
    r.fits = true ↔ b.Storable ∧ fitsInteger r.arriveTime = true := by
  rw [Block.Storable, ← show r.static = rowOf b from h]
  simp only [Row.fits, Row.static, Bool.and_eq_true]
  have hzero : fitsInteger 0 = true := by decide
  tauto

end Stores

@[simp] theorem arriveTime_count (i w : Int) (r : Row) :
    (r.count i w).arriveTime = r.arriveTime := by
  unfold Row.count; split <;> rfl

@[simp] theorem static_count (i w : Int) (r : Row) : (r.count i w).static = r.static := by
  unfold Row.count; split <;> rfl

/-- The table of `s` holds the blocks of `c`, in order; the first row is
the genesis row, untouched. The arrival times are in the range of their
column. -/
structure Represents (env : Env K) (s : BlockChain) (c : Chain (rules env)) : Prop where
  rows : s.localChains.map Row.static = c.blocks.map rowOf
  genesis : s.localChains.head? = some genesisRow
  arrived : ∀ r ∈ s.localChains, fitsInteger r.arriveTime = true

/-- The chain of the genesis block alone. -/
def genesisChain (env : Env K) : Chain (rules env) where
  blocks := [genesisBlock]
  head := rfl
  linked := List.isChain_singleton _
  nodup := by simp

theorem represents_genesis {s : BlockChain} (h : s.localChains = [genesisRow]) :
    Represents env s (genesisChain env) := by
  constructor
  · rw [h]; rfl
  · rw [h]; rfl
  · rw [h]; simp [genesisRow, Block.toRow, fitsInteger]

theorem run_selectWhere (q : Row → Bool) (s : BlockChain) :
    selectWhere q s = .ok (s.localChains.filter q) s := rfl

@[simp] theorem bytesFromHex_hex (bs : Bytes) : bytesFromHex (hex bs) = pure bs := by
  rw [bytesFromHex, fromhex_hex]

/-! ## Positions in chain and table -/

section Chain

variable {c : Chain (rules env)} {i : Nat} {p b : Block}

theorem follows_at (hp : c.blocks[i]? = some p) (hb : c.blocks[i + 1]? = some b) :
    Follows env p b :=
  c.follows_getElem? hp hb

theorem index_at : ∀ {i : Nat} {b : Block}, c.blocks[i]? = some b → b.index = i
  | 0, b, hb => by
      obtain rfl := Option.some.inj (c.getElem?_zero.symm.trans hb); rfl
  | i + 1, b, hb => by
      have hi : i < c.blocks.length := by
        have := (List.getElem?_eq_some_iff.mp hb).1; omega
      have hp := List.getElem?_eq_getElem hi
      rw [(follows_at hp hb).index, index_at hp]; omega

/-- The blocks of a chain can be printed. -/
theorem printable_of_mem (hb : b ∈ c.blocks) : b.Printable := by
  obtain ⟨i, hi⟩ := List.mem_iff_getElem?.mp hb
  cases i with
  | zero =>
      obtain rfl := Option.some.inj (c.getElem?_zero.symm.trans hi)
      show genesisBlock.Printable
      exact Block.Storable.printable (by decide)
  | succ i =>
      have hlt := (List.getElem?_eq_some_iff.mp hi).1
      have hp := List.getElem?_eq_getElem (l := c.blocks) (i := i) (by omega)
      exact (follows_at hp hi).storable.printable

theorem printable_at {i : Nat} {b : Block} (hb : c.blocks[i]? = some b) :
    (i : Int).natAbs < strLimit := by
  rw [← index_at hb]
  exact (printable_of_mem (List.mem_of_getElem? hb)).2

end Chain

namespace Represents

variable {s : BlockChain} {c : Chain (rules env)} (h : Represents env s c)
include h

theorem length : s.localChains.length = c.blocks.length := by
  simpa using congrArg List.length h.rows

theorem stores {i : Nat} {r : Row} {b : Block} (hr : s.localChains[i]? = some r)
    (hb : c.blocks[i]? = some b) : Stores r b := by
  have := congrArg (fun l => l[i]?) h.rows
  simp only [List.getElem?_map, hr, hb, Option.map_some, Option.some.injEq] at this
  exact this

theorem block_at {i : Nat} {r : Row} (hr : s.localChains[i]? = some r) :
    ∃ b, c.blocks[i]? = some b ∧ Stores r b := by
  have hi : i < c.blocks.length := by
    rw [← h.length]; exact (List.getElem?_eq_some_iff.mp hr).1
  exact ⟨_, List.getElem?_eq_getElem hi, h.stores hr (List.getElem?_eq_getElem hi)⟩

theorem row_at {i : Nat} {b : Block} (hb : c.blocks[i]? = some b) :
    ∃ r, s.localChains[i]? = some r ∧ Stores r b := by
  have hi : i < s.localChains.length := by
    rw [h.length]; exact (List.getElem?_eq_some_iff.mp hb).1
  exact ⟨_, List.getElem?_eq_getElem hi, h.stores (List.getElem?_eq_getElem hi) hb⟩

theorem indexed : Indexed Row.blockIndex s.localChains := by
  intro i r hr
  obtain ⟨b, hb, hst⟩ := h.block_at hr
  rw [hst.blockIndex, index_at hb]

/-- A hash is in the table exactly if it is the hash of a block of the
chain. -/
theorem exists_row_iff (hash : Bytes) :
    (∃ r ∈ s.localChains, r.hash = hex hash) ↔ hash ∈ c.blocks.map Block.hash := by
  constructor
  · rintro ⟨r, hr, heq⟩
    obtain ⟨i, hi⟩ := List.mem_iff_getElem?.mp hr
    obtain ⟨b, hb, hst⟩ := h.block_at hi
    rw [hst.hash, hex_inj] at heq
    exact List.mem_map.mpr ⟨b, List.mem_of_getElem? hb, heq⟩
  · intro hmem
    obtain ⟨b, hb, rfl⟩ := List.mem_map.mp hmem
    obtain ⟨i, hi⟩ := List.mem_iff_getElem?.mp hb
    obtain ⟨r, hr, hst⟩ := h.row_at hi
    exact ⟨r, List.mem_of_getElem? hr, hst.hash⟩

theorem no_row_iff (hash : Bytes) :
    (∀ r ∈ s.localChains, r.hash ≠ hex hash) ↔ hash ∉ c.blocks.map Block.hash := by
  rw [← h.exists_row_iff]
  push Not
  rfl

theorem hashes : s.localChains.map Row.hash = c.blocks.map fun b => hex b.hash := by
  have := congrArg (List.map Row.hash) h.rows
  rw [List.map_map, List.map_map] at this
  exact this

/-- Hashes of two tables, and of the chains they represent. -/
theorem hashes_eq_iff {s' : BlockChain} {env' : Env K} {c' : Chain (rules env')}
    (h' : Represents env' s' c') :
    s'.localChains.map Row.hash = s.localChains.map Row.hash ↔
      c'.blocks.map Block.hash = c.blocks.map Block.hash := by
  have hmap (l : List Block) : l.map (fun b => hex b.hash) = (l.map Block.hash).map hex := by
    rw [List.map_map]
    rfl
  rw [h.hashes, h'.hashes, hmap, hmap]
  exact (List.map_injective_iff.mpr fun a b hab => hex_inj.mp hab).eq_iff

theorem id_eq_hash {r : Row} (hr : r ∈ s.localChains) : r.id = r.hash := by
  obtain ⟨i, hi⟩ := List.mem_iff_getElem?.mp hr
  obtain ⟨b, -, hst⟩ := h.block_at hi
  rw [hst.id, hst.hash]

/-! ## Queries -/

theorem run_blockInBlockchain (b : Block) :
    blockInBlockchain b s = .ok (decide (b.hash ∈ c.blocks.map Block.hash)) s := by
  show EStateM.Result.ok _ s = _
  congr 1
  rw [Bool.eq_iff_iff, decide_eq_true_iff, ← h.exists_row_iff, List.head?_filter,
    List.find?_isSome]
  refine exists_congr fun r => and_congr_right fun hr => ?_
  rw [decide_eq_true_iff, h.id_eq_hash hr]

theorem run_numberOfBlocks : numberOfBlocks s = .ok (c.blocks.length : Int) s := by
  show EStateM.Result.ok (s.localChains.length : Int) s = _
  rw [h.length]

/-- A query for one index finds the row at that position. -/
theorem run_fetchone {i : Nat} {r : Row} (hr : s.localChains[i]? = some r) :
    fetchone (s.localChains.filter fun r => r.blockIndex = i) s = .ok r s := by
  rw [fetchone, head?_filter_eq h.indexed (Int.natCast_nonneg i), Int.toNat_natCast, hr]
  rfl

theorem run_fetchone_neg {i : Int} (hi : i < 0) :
    fetchone (s.localChains.filter fun r => r.blockIndex = i) s = .error .typeError s := by
  rw [fetchone, List.filter_eq_nil_iff.mpr]
  · rfl
  · intro r hr
    obtain ⟨j, hj⟩ := List.mem_iff_getElem?.mp hr
    have := h.indexed j r hj
    simp only [decide_eq_true_eq]; omega

theorem run_hasCorrectParent {b p : Block} {i : Nat} (hp : c.blocks[i]? = some p)
    (hi : b.index - 1 = i) : hasCorrectParent b s = .ok (decide (p.hash = b.parentHash)) s := by
  obtain ⟨r, hr, hst⟩ := h.row_at hp
  rw [hasCorrectParent, hi, strInt_ok (printable_at hp), bind_ok (eval_ok _),
    bind_ok (run_selectWhere ..), bind_ok (h.run_fetchone hr), hst.hash, bytesFromHex_hex]
  rfl

theorem run_hasCorrectParent_neg {b : Block} (hi : b.index - 1 < 0) :
    hasCorrectParent b s = .error b.missingParent s := by
  rw [hasCorrectParent, Block.missingParent]
  split
  · next hprints =>
    rw [strInt_ok hprints, bind_ok (eval_ok _), bind_ok (run_selectWhere ..),
      bind_error (h.run_fetchone_neg hi)]
  · next hlong =>
    rw [strInt_error hlong, bind_error (eval_error _)]

theorem run_getProofHashOfBlock {q : Block} {i : Nat} (hq : c.blocks[i]? = some q) :
    getProofHashOfBlock i s = .ok q.proofHash s := by
  obtain ⟨r, hr, hst⟩ := h.row_at hq
  rw [getProofHashOfBlock, bind_ok (run_selectWhere ..), bind_ok (h.run_fetchone hr), hst.proofHash,
    bytesFromHex_hex]
  rfl

theorem run_getRoundOfBlock {p : Block} {i : Nat} (hp : c.blocks[i]? = some p) :
    getRoundOfBlock i s = .ok p.round s := by
  obtain ⟨r, hr, hst⟩ := h.row_at hp
  rw [getRoundOfBlock, bind_ok (run_selectWhere ..), bind_ok (h.run_fetchone hr), hst.round]
  rfl

theorem orderByAsc_drop (n : Nat) :
    orderByAsc (s.localChains.drop n) = s.localChains.drop n :=
  List.Pairwise.insertionSort_eq
    (((pairwise_of_indexed h.indexed).drop (i := n)).imp fun hlt => le_of_lt hlt)

theorem run_blocksSinceIndex {k : Int} (hk : 0 ≤ k) :
    blocksSinceIndex k s = .ok (s.localChains.drop k.toNat) s := by
  show EStateM.Result.ok (orderByAsc (s.localChains.filter _)) s = _
  rw [filter_ge_eq_drop h.indexed hk, h.orderByAsc_drop]

/-- The block with a hash, where the chain has one. -/
theorem run_blockOfHash {i : Nat} {p : Block} (hp : c.blocks[i]? = some p) :
    blockOfHash p.hash s = .ok (some (p.hash, p.index)) s := by
  obtain ⟨r, hr, hst⟩ := h.row_at hp
  have hmem : r ∈ orderByAsc (s.localChains.filter fun r => r.hash = hex p.hash) := by
    rw [orderByAsc, List.mem_insertionSort, List.mem_filter]
    exact ⟨List.mem_of_getElem? hr, by simp [hst.hash]⟩
  obtain ⟨r', hr'⟩ : ∃ r', (orderByAsc (s.localChains.filter
      fun r => r.hash = hex p.hash)).head? = some r' := by
    cases hl : orderByAsc (s.localChains.filter fun r => r.hash = hex p.hash) with
    | nil => rw [hl] at hmem; cases hmem
    | cons r' _ => exact ⟨r', rfl⟩
  -- the first row found is the row of `p`: hashes are distinct
  have hr'mem := List.mem_of_head? hr'
  rw [orderByAsc, List.mem_insertionSort, List.mem_filter] at hr'mem
  obtain ⟨j, hj⟩ := List.mem_iff_getElem?.mp hr'mem.1
  obtain ⟨p', hp', hst'⟩ := h.block_at hj
  have hhash : p'.hash = p.hash := by
    rw [← hex_inj, ← hst'.hash]; simpa using hr'mem.2
  obtain rfl : j = i := c.index_unique hp' hp hhash
  obtain rfl : p' = p := Option.some.inj (hp'.symm.trans hp)
  rw [blockOfHash, bind_ok (run_selectWhere ..)]
  simp only [hr']
  rw [hst'.id, bytesFromHex_hex, hst'.blockIndex]
  rfl

theorem run_blockOfHash_none {hash : Bytes} (hno : hash ∉ c.blocks.map Block.hash) :
    blockOfHash hash s = .ok none s := by
  have hnil : s.localChains.filter (fun r => r.hash = hex hash) = [] := by
    rw [List.filter_eq_nil_iff]
    intro r hr heq
    exact (h.no_row_iff hash).mpr hno r hr (by simpa using heq)
  rw [blockOfHash, bind_ok (run_selectWhere ..), hnil]
  rfl

/-- The last row, by either way of asking for it. -/
theorem run_fetchone_last {r : Row} (hr : s.localChains.getLast? = some r) :
    fetchone (orderByDesc (s.localChains.filter fun _ => true)) s = .ok r s := by
  have hall : s.localChains.filter (fun _ => true) = s.localChains :=
    List.filter_eq_self.mpr fun _ _ => rfl
  rw [hall, orderByDesc_eq_reverse (pairwise_of_indexed h.indexed), fetchone, List.head?_reverse,
    hr]
  rfl

theorem row_last {tip : Block} (htip : c.blocks.getLast? = some tip) :
    ∃ r, s.localChains.getLast? = some r ∧ Stores r tip := by
  rw [List.getLast?_eq_getElem?] at htip
  obtain ⟨r, hr, hst⟩ := h.row_at htip
  exact ⟨r, by rw [List.getLast?_eq_getElem?, h.length]; exact hr, hst⟩

theorem run_lastBlockId {tip : Block} (htip : c.blocks.getLast? = some tip) :
    lastBlockId s = .ok tip.hash s := by
  obtain ⟨r, hr, hst⟩ := h.row_last htip
  rw [lastBlockId, bind_ok (run_selectWhere ..), bind_ok (h.run_fetchone_last hr), hst.id,
    bytesFromHex_hex]
  rfl

theorem run_getLastBlockHash {tip : Block} (htip : c.blocks.getLast? = some tip) :
    getLastBlockHash s = .ok tip.hash s := by
  obtain ⟨r, hr, hst⟩ := h.row_last htip
  rw [getLastBlockHash, bind_ok (run_selectWhere ..), bind_ok (h.run_fetchone_last hr), hst.hash,
    bytesFromHex_hex]
  rfl

theorem ids_nodup : (s.localChains.map Row.id).Nodup := by
  have hids : s.localChains.map Row.id = (c.blocks.map Block.hash).map hex := by
    have := congrArg (List.map Row.id) h.rows
    rw [List.map_map, List.map_map] at this
    rw [List.map_map]
    exact this
  rw [hids]
  exact c.nodup.map fun a b hab => hex_inj.mp hab

/-- A stored row other than the first is one that `INSERT` accepts. -/
theorem fits_of_mem_drop {n : Nat} (hn : 0 < n) {r : Row} (hr : r ∈ s.localChains.drop n) :
    r.fits = true := by
  obtain ⟨i, hi⟩ := List.mem_iff_getElem?.mp hr
  rw [List.getElem?_drop] at hi
  obtain ⟨b, hb, hst⟩ := h.block_at hi
  have hlt := (List.getElem?_eq_some_iff.mp hb).1
  have hp := List.getElem?_eq_getElem (l := c.blocks) (i := n + i - 1) (by omega)
  have hf := follows_at hp (by rw [show n + i - 1 + 1 = n + i by omega]; exact hb)
  have hmem : r ∈ s.localChains := List.mem_of_getElem? hi
  exact hst.fits_iff.mpr ⟨hf.storable, h.arrived r hmem⟩

end Represents

/-! ## Writes -/

namespace BlockChain

/-- After `update_successfull_sortition`. -/
def counted (s : BlockChain) (index w : Int) : BlockChain :=
  { s with localChains := s.localChains.map (Row.count index w) }

/-- After `delete_blocks_since(n)`. -/
def cutTo (s : BlockChain) (n : Nat) : BlockChain :=
  { s with localChains := s.localChains.take n }

/-- After an `INSERT`. -/
def pushed (s : BlockChain) (r : Row) : BlockChain :=
  { s with localChains := s.localChains ++ [r] }

/-- After `reintroduce_blocks`. -/
def appended (s : BlockChain) (rows : List Row) : BlockChain :=
  { s with localChains := s.localChains ++ rows }

/-- After a reading of the clock. -/
def ticked (s : BlockChain) : BlockChain := { s with clock := s.clock + 1 }

/-- The row a block gets when it is stored in state `s`. -/
def arrival (env : Env K) (s : BlockChain) (b : Block) : Row :=
  b.toRow (PyNum.column (env.time s.clock)) 0

end BlockChain

open BlockChain

theorem run_updateSuccessfullSortition (s : BlockChain) (index w : Int) :
    updateSuccessfullSortition index w s = .ok () (s.counted index w) := rfl

theorem stores_arrival (env : Env K) (s : BlockChain) (b : Block) : Stores (arrival env s b) b :=
  rfl

/-- The clock leaves it to the block whether its row fits. -/
theorem fits_arrival (env : Env K) (s : BlockChain) (b : Block) :
    (arrival env s b).fits = true ↔ b.Storable := by
  rw [(stores_arrival env s b).fits_iff]
  exact and_iff_left (env.time.fits s.clock)

theorem run_time (s : BlockChain) : time env s = .ok (env.time s.clock) s.ticked := rfl

theorem run_insertRow {s : BlockChain} {r : Row} (hfits : r.fits = true)
    (hnew : ∀ r' ∈ s.localChains, r'.id ≠ r.id) : insertRow r s = .ok () (s.pushed r) := by
  have hany : (s.localChains.any fun r' => r'.id = r.id && r'.blockIndex = r.blockIndex)
      = false := by
    rw [List.any_eq_false]
    intro r' hr'
    simp [hnew r' hr']
  show (if (!r.fits) = true then _ else _ : Call Unit) s = _
  simp only [hfits, Bool.not_true, Bool.false_eq_true, if_false]
  show (if _ then _ else _ : Call Unit) s = _
  rw [if_neg (by simp [hany])]
  rfl

theorem run_insertRow_unfit {s : BlockChain} {r : Row} (hfits : r.fits = false) :
    insertRow r s = .error .dataError s := by
  show (if (!r.fits) = true then _ else _ : Call Unit) s = _
  rw [if_pos (by rw [hfits]; rfl)]
  rfl

/-- Rows with new ids that fit are reintroduced as they are. -/
theorem run_reintroduceBlocks : ∀ {rows : List Row} {s : BlockChain},
    (∀ r ∈ rows, r.fits = true) → ((s.localChains ++ rows).map Row.id).Nodup →
      reintroduceBlocks rows s = .ok () (s.appended rows)
  | [], s, _, _ => by
      rw [reintroduceBlocks, appended, List.append_nil]; rfl
  | r :: rows, s, hfits, hnodup => by
      have hnew : ∀ r' ∈ s.localChains, r'.id ≠ r.id := by
        rw [List.map_append, List.nodup_append] at hnodup
        exact fun r' hr' => hnodup.2.2 _ (List.mem_map_of_mem hr') _
          (List.mem_map_of_mem (List.mem_cons_self ..))
      rw [reintroduceBlocks, bind_ok (run_insertRow (hfits r (List.mem_cons_self ..)) hnew),
        run_reintroduceBlocks (fun r' hr' => hfits r' (List.mem_cons_of_mem _ hr'))]
      · simp [appended, pushed]
      · simpa [pushed] using hnodup

namespace Represents

variable {s : BlockChain} {c : Chain (rules env)} (h : Represents env s c)
include h

theorem counted (index w : Int) : Represents env (s.counted index w) c := by
  constructor
  · simp only [BlockChain.counted, List.map_map, ← h.rows]
    exact List.map_congr_left fun r _ => static_count index w r
  · simp only [BlockChain.counted, List.head?_map, h.genesis, Option.map_some]
    rw [Row.count, if_neg (by simp [genesisRow, Block.toRow])]
  · simp only [BlockChain.counted, List.mem_map, forall_exists_index, and_imp,
      forall_apply_eq_imp_iff₂]
    intro r hr
    rw [arriveTime_count]
    exact h.arrived r hr

theorem cutTo {n : Nat} (hn : 0 < n) : Represents env (s.cutTo n) (c.cut n hn) := by
  constructor
  · simp only [BlockChain.cutTo, Chain.blocks_cut, List.map_take, h.rows]
  · rw [BlockChain.cutTo, List.head?_take, if_neg (by omega)]
    exact h.genesis
  · exact fun r hr => h.arrived r (List.mem_of_mem_take hr)

theorem ticked : Represents env s.ticked c := ⟨h.rows, h.genesis, h.arrived⟩

theorem pushed {c' : Chain (rules env)} {b : Block} {r : Row}
    (hc' : c'.blocks = c.blocks ++ [b]) (hr : Stores r b)
    (harrived : fitsInteger r.arriveTime = true) : Represents env (s.pushed r) c' := by
  have hr' : r.static = rowOf b := hr
  constructor
  · simp only [BlockChain.pushed, List.map_append, List.map_cons, List.map_nil, h.rows, hc', hr']
  · rw [BlockChain.pushed, List.head?_append, h.genesis]
    rfl
  · intro r' hr'
    rcases List.mem_append.mp hr' with hr' | hr'
    · exact h.arrived r' hr'
    · rwa [List.mem_singleton.mp hr']

theorem run_deleteBlocksSince {k : Int} (hk : 0 ≤ k) :
    deleteBlocksSince k s = .ok () (s.cutTo k.toNat) := by
  show EStateM.Result.ok () { s with localChains := s.localChains.filter _ } = _
  rw [filter_lt_eq_take h.indexed hk]
  rfl

end Represents

end Cpos
