import Cpos.Run

/-!
# Reading a block back

`compose_block` passes seven columns of a row to the constructor, which
computes the derived hashes anew, over a plain `TransactionList` that is
given the transactions and keeps its empty hash. The column `merkle_root`
is not read. What comes back is therefore the stored block with an empty
transaction hash, updated (`run_blockByIndex`): the block itself if it
was built over a plain list, and another block, with another hash, if it
carried transactions (`reload_iff`).
-/

namespace Cpos

open Python ByteString LinkedChain BlockChain

variable {K : Type} [PyNum K] {env : Env K} {s : BlockChain} {c : Chain (rules env)} {b : Block}

/-- What `compose_block` makes of the row of a block. -/
def Block.reloaded (b : Block) : Except PyErr Block :=
  ({ b with transactionHash := [] } : Block).update

theorem run_composeBlock {r : Row} (hr : Stores r b) (s : BlockChain) :
    composeBlock r s = (eval b.reloaded : Call Block) s := by
  rw [composeBlock, hr.parentHash, hr.ownerPubkey, hr.signedNodeHash, bytesFromHex_hex,
    bytesFromHex_hex, bytesFromHex_hex, hr.round, hr.blockIndex, hr.ticketNumber, hr.transactions]
  rfl

/-- The block at a position, counted from either end. -/
theorem Represents.run_blockByIndex (h : Represents env s c) {k : Int} {i : Nat}
    (hi : (if k < 0 then c.blocks.length + k else k) = i) (hb : c.blocks[i]? = some b) :
    blockByIndex k s = (eval b.reloaded : Call Block) s := by
  obtain ⟨r, hr, hst⟩ := h.row_at hb
  rw [blockByIndex, bind_ok h.run_numberOfBlocks]
  simp only [hi]
  rw [bind_ok (run_selectWhere ..), bind_ok (h.run_fetchone hr), run_composeBlock hst]

/-! ## Plain and mock transaction lists -/

/-- A block built over a plain list comes back as it was. -/
theorem Block.BuiltFrom.reloaded (h : b.BuiltFrom TransactionList.new) :
    b.reloaded = .ok b := by
  have hhash : b.transactionHash = [] := h.transactions.2
  have hb : ({ b with transactionHash := [] } : Block) = b := by
    rw [← hhash]
  rw [Block.reloaded, hb]
  exact h.bound

/-- What comes back carries no transaction hash. -/
theorem transactionHash_reloaded {b' : Block} (h : b.reloaded = .ok b') :
    b'.transactionHash = [] := by
  obtain ⟨_, _, -, -, rfl⟩ := Block.update_eq_ok h
  rfl

/-- **Storing and reloading.** For every reachable state and every block
built over a plain or a mock transaction list, signed and inserted: the
block read back is the block inserted exactly if the list was plain. -/
theorem reload_iff (h : Reachable env s) {t : TransactionList}
    (ht : t = TransactionList.new ∨ ∃ rows, t = mockTransactionList rows)
    (hb : b.BuiltFrom t) (hins : returned (insert env b) s = some true) :
    returned (blockByIndex b.index) (after (insert env b) s) = some b ↔
      t = TransactionList.new := by
  obtain ⟨c, hc⟩ := h.represents
  have hout := insert_outcome hc b
  rw [ok_of_returned hins] at hout
  generalize after (insert env b) s = s' at hout ⊢
  cases hout with
  | accepted hacc h' =>
      obtain ⟨p, w, hcounted, -⟩ := counted_of_accepts hacc
      have hpos := hcounted.pos
      have hmem : b ∈ (c.graft b hacc.1).blocks := by
        rw [Chain.blocks_graft]
        exact List.mem_append_right _ (List.mem_singleton_self b)
      have hrun := h'.run_blockByIndex (i := b.index.toNat)
        (show (if b.index < 0 then _ else b.index) = _ by rw [if_neg (by omega)]; omega)
        ((c.graft b hacc.1).getElem?_pos_of_mem hmem)
      rw [returned, hrun]
      rcases ht with rfl | ⟨rows, rfl⟩
      · rw [hb.reloaded]
        exact iff_of_true rfl rfl
      · have hne : b.transactionHash ≠ [] := by
          rw [hb.transactions.2]
          exact mockGetHash_ne_nil (strList rows)
        refine iff_of_false (fun heq => ?_) (fun heq => ?_)
        · cases hre : b.reloaded with
          | ok b' =>
              rw [hre] at heq
              obtain rfl := Option.some.inj heq
              exact hne (transactionHash_reloaded hre)
          | error e =>
              rw [hre] at heq
              cases heq
        · exact mockGetHash_ne_nil (strList rows) (congrArg TransactionList.transactionsHash heq)

theorem a1_builtFrom : a1.BuiltFrom TransactionList.new :=
  Block.builtFrom_iff.mpr ⟨sampleBlocks_bound a1 (by simp), rfl, rfl⟩

theorem reload_iff_a1 :
    returned (blockByIndex a1.index) (after (insert sampleEnv a1) .init) = some a1 ↔
      TransactionList.new = TransactionList.new :=
  reload_iff ⟨.init, [], rfl, rfl⟩ (.inl rfl) a1_builtFrom (by decide +kernel)

/-- A row of the mempool, as it prints. -/
def mempoolRow : String :=
  "\x7b'transaction_id': '1', 'value': 5, 'input_address': 'a', 'output_address': 'b', 'committed': 0, 'chosen': 0, 'transaction_hash': 'h', 'data': '', 'timestamp': '0'\x7d"

/-- `a1` with one transaction. -/
def aMock : Block :=
  { a1 with
    transactions := strList [mempoolRow]
    transactionHash := bytesOf 32 0x192a63066781a5842b62e46f38acb24711329b7118c31953e2cf3b7e03438cab
    hash := bytesOf 32 0xf8edbcf83efb985c3894b4bab3761a7861bff98d6e0b31b53e853c6326481b00 }

/-- Read back, it has another hash. -/
theorem mock_block_not_reloaded :
    aMock.BuiltFrom (mockTransactionList [mempoolRow]) ∧
      returned (insert sampleEnv aMock) .init = some true ∧
      (returned (blockByIndex 1) (after (insert sampleEnv aMock) .init)).map Block.hash
        ≠ some aMock.hash := by
  have hfields : aMock.Bound ∧
      aMock.transactionHash = (mockTransactionList [mempoolRow]).transactionsHash := by
    decide +kernel
  have hstored : returned (insert sampleEnv aMock) .init = some true ∧
      (returned (blockByIndex 1) (after (insert sampleEnv aMock) .init)).map Block.hash
        ≠ some aMock.hash := by decide +kernel
  exact ⟨Block.builtFrom_iff.mpr ⟨hfields.1, rfl, hfields.2⟩, hstored⟩

end Cpos
