import Cpos.Mempool
import Cpos.Producing
import Cpos.Serving

/-!
# Blocks of mock transactions

When the query returns no row that fits, the `UPDATE` is an error. The
constructor of `MockTransactionList` prints it and returns an object
without the attributes `transactions` and `transactions_hash`, and
`Block(...)` raises where it reads the first of them. So
`generate_block` **makes a block exactly if there is a pending
transaction and the first one returned fits** (`mock_block_iff`).
-/

namespace Cpos

open Python ByteString LinkedChain BlockChain

variable {K : Type} [PyNum K] {env : NodeEnv K} {rowEnv : RowEnv} {m m' : Mempool}
  {resultSet : List Transaction} {s : BlockChain} {i : Int}

/-! ## Partly constructed lists -/

/-- `MockTransactionList()` when the query returns `resultSet`, and the
mempool afterwards. There is no `TransactionList` if the object lacks its
attributes. -/
def Mempool.construct (rowEnv : RowEnv) (m : Mempool) (resultSet : List Transaction) :
    Option TransactionList × Mempool :=
  match m.mockTransactions rowEnv resultSet with
  | some (list, m') => (some list, m')
  | none => (none, m)

/-- `Block(...)` with such an object. -/
def Block.initMock (parentHash : Bytes) (transactionlist : Option TransactionList)
    (ownerPubkey signedNodeHash : Bytes) (round index ticketNumber : Int) : Except PyErr Block :=
  match transactionlist with
  | none => .error .attributeError
  | some list =>
      Block.init parentHash list ownerPubkey signedNodeHash round index ticketNumber

/-- The block of a turn of `generate_block`, before it is signed. -/
def mockBlock (env : NodeEnv K) (tx : Option TransactionList) (i : Int) : Call Block := do
  eval (Block.initMock (← getLastBlockHash) tx env.publicKey [] (← get).currentRound
    (← numberOfBlocks) i)

/-- With a list, the turn goes on as `generate_block` does. -/
theorem ticketBlock_mockBlock (hmock : env.useMockTransactions = true)
    {list : TransactionList} (h : m.mockTransactions rowEnv resultSet = some (list, m')) :
    ticketBlock env (fun _ => list) i = (do
      let block ← mockBlock env (m.construct rowEnv resultSet).1 i
      let block ← eval (block.sign env.sign)
      return { block with ticketNumber := i }) := by
  have hlist : (m.construct rowEnv resultSet).1 = some list := by rw [Mempool.construct, h]
  rw [hlist, ticketBlock]
  simp only [hmock, if_true, mockBlock, Block.initMock, bind_assoc]

/-! ## Which lists are complete -/

theorem takeFitting_eq_nil_iff (rows : List Transaction) :
    takeFitting rowEnv 0 rows = [] ↔ ¬∃ row ∈ rows.head?, rowEnv.getsizeof row ≤ blockSize := by
  cases rows with
  | nil => exact iff_of_true rfl (by simp)
  | cons row rows =>
      rw [takeFitting, zero_add]
      simp only [List.head?_cons, Option.mem_some_iff, exists_eq_left', not_le]
      split
      · next hbig => exact iff_of_true rfl hbig
      · next hfits => exact iff_of_false (List.cons_ne_nil _ _) hfits

theorem construct_eq_none_iff : (m.construct rowEnv resultSet).1 = none ↔
    ¬∃ row ∈ resultSet.head?, rowEnv.getsizeof row ≤ blockSize := by
  rw [← takeFitting_eq_nil_iff, Mempool.construct, Mempool.mockTransactions]
  by_cases hnil : takeFitting rowEnv 0 resultSet = []
  · rw [if_pos hnil]
    exact iff_of_true rfl hnil
  · rw [if_neg hnil]
    exact iff_of_false (by simp) hnil

/-- The query returns no row if nothing is pending. -/
theorem Mempool.Retrieves.eq_nil_iff (h : m.Retrieves resultSet) :
    resultSet = [] ↔ ∀ t ∈ m.rows, t.selectable = false := by
  obtain ⟨ordered, hperm, -, rfl⟩ := h
  have hnil : ordered = [] ↔ m.rows.filter Transaction.selectable = [] := by
    rw [← List.length_eq_zero_iff, ← List.length_eq_zero_iff, hperm.length_eq]
  rw [List.take_eq_nil_iff, or_iff_right (by decide), hnil, List.filter_eq_nil_iff]
  simp

/-! ## The turn -/

theorem run_mockBlock {c : Chain (rules env.toEnv)} (hs : Represents env.toEnv s c)
    (tx : Option TransactionList) (i : Int) :
    ∃ parentHash, mockBlock env tx i s
      = eval (Block.initMock parentHash tx env.publicKey [] s.currentRound s.localChains.length
          i) s := by
  obtain ⟨tip, htip⟩ := c.exists_tip
  refine ⟨tip.hash, ?_⟩
  rw [mockBlock, bind_ok (hs.run_getLastBlockHash htip)]
  rfl

theorem initMock_ok_iff {parentHash : Bytes} {tx : Option TransactionList}
    {ownerPubkey signedNodeHash : Bytes} {round index ticketNumber : Int} :
    (∃ b, Block.initMock parentHash tx ownerPubkey signedNodeHash round index ticketNumber
        = .ok b) ↔
      ((0 ≤ round ∧ round < 2 ^ 32) ∧ 0 ≤ ticketNumber ∧ ticketNumber < 2 ^ 32) ∧ tx ≠ none := by
  cases tx with
  | none => exact iff_of_false (fun ⟨b, h⟩ => by cases h) fun h => h.2 rfl
  | some list => exact Block.update_ok_iff.trans (and_iff_left (by simp)).symm

/-- **Blocks of mock transactions.** On every chain and for every content
of the mempool, a turn of `generate_block` makes a block exactly if the
round can be encoded and the first row returned fits. If none is returned
or the first does not fit, it raises. -/
theorem mock_block_iff {c : Chain (rules env.toEnv)} (hs : Represents env.toEnv s c)
    (hretrieves : m.Retrieves resultSet) (hi : i ∈ rangeUp 0 (lookupNodeStake env.id)) :
    ((∃ b, returned (mockBlock env (m.construct rowEnv resultSet).1 i) s = some b) ↔
      (0 ≤ s.currentRound ∧ s.currentRound < 2 ^ 32) ∧
        ∃ row ∈ resultSet.head?, rowEnv.getsizeof row ≤ blockSize) ∧
    (resultSet = [] ↔ ∀ t ∈ m.rows, t.selectable = false) := by
  refine ⟨?_, hretrieves.eq_nil_iff⟩
  have hticket : i ∈ ([0] : List Int) := hi
  obtain rfl := List.mem_singleton.mp hticket
  obtain ⟨parentHash, hrun⟩ := run_mockBlock hs (m.construct rowEnv resultSet).1 0
  have hreturned : (∃ b, returned (mockBlock env (m.construct rowEnv resultSet).1 0) s = some b) ↔
      ∃ b, Block.initMock parentHash (m.construct rowEnv resultSet).1 env.publicKey []
        s.currentRound s.localChains.length 0 = .ok b := by
    unfold returned
    rw [hrun]
    cases Block.initMock parentHash (m.construct rowEnv resultSet).1 env.publicKey []
      s.currentRound s.localChains.length 0 <;> simp
  have hzero : (0 : Int) ≤ 0 ∧ (0 : Int) < 2 ^ 32 := by decide
  rw [hreturned, initMock_ok_iff, Ne, construct_eq_none_iff, not_not, and_iff_left hzero]

/-- What is raised otherwise. -/
theorem mockBlock_raises {c : Chain (rules env.toEnv)} (hs : Represents env.toEnv s c)
    (hnone : ¬∃ row ∈ resultSet.head?, rowEnv.getsizeof row ≤ blockSize) (i : Int) :
    raised (mockBlock env (m.construct rowEnv resultSet).1 i) s = some .attributeError := by
  rw [construct_eq_none_iff.mpr hnone]
  obtain ⟨parentHash, hrun⟩ := run_mockBlock hs none i
  rw [raised, hrun]
  rfl

/-! ## Samples -/

theorem mock_block_iff_sample :
    ((∃ b, returned (mockBlock sampleNodeEnv
        (sampleMempool.construct sampleRowEnv [sampleTransaction]).1 0) .init = some b) ↔
      (0 ≤ BlockChain.init.currentRound ∧ BlockChain.init.currentRound < 2 ^ 32) ∧
        ∃ row ∈ [sampleTransaction].head?, sampleRowEnv.getsizeof row ≤ blockSize) ∧
    ([sampleTransaction] = [] ↔ ∀ t ∈ sampleMempool.rows, t.selectable = false) :=
  mock_block_iff (represents_genesis rfl) sampleMempool_retrieves (by decide)

/-- The mempool is empty. -/
theorem mock_block_missing :
    (⟨[], List.nodup_nil⟩ : Mempool).Retrieves [] ∧
    raised (mockBlock sampleNodeEnv ((⟨[], List.nodup_nil⟩ : Mempool).construct sampleRowEnv []).1
      0) .init = some .attributeError :=
  ⟨⟨[], List.Perm.refl _, List.Pairwise.nil, rfl⟩,
    mockBlock_raises (represents_genesis rfl) (by simp) 0⟩

end Cpos
