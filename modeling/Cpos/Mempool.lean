import Mathlib.Data.List.Nodup
import Cpos.Block

/-!
# The mempool

`MockTransactionList` in `cpos/core/transactions.py`, on the table of
`mempool.sql`. What a row prints as, and how much memory its values take,
are up to Python; the order of rows of the same value is up to the
database.

A transaction that a list takes is marked as chosen, and no statement
takes the mark back.
-/

namespace Cpos

open Python ByteString

/-- A row of the table `transactions`. The value `none` is `NULL`; in the
columns `committed` and `chosen` a `NULL` is as any value but 0. -/
structure Transaction where
  transactionId : String
  value : Option Int
  inputAddress : String
  outputAddress : String
  committed : Int
  chosen : Int
  transactionHash : String
  data : String
  timestamp : String
deriving DecidableEq

def Transaction.selectable (t : Transaction) : Bool := t.committed = 0 && t.chosen = 0

/-- `ORDER BY value DESC` can put `t` before `u`; `NULL` sorts last. -/
def Transaction.MayPrecede (t u : Transaction) : Prop :=
  ∀ w, u.value = some w → ∃ v, t.value = some v ∧ w ≤ v

/-- `transaction_id` is the primary key. -/
structure Mempool where
  rows : List Transaction
  key : (rows.map Transaction.transactionId).Nodup

/-- What `str` makes of a row, and the sum of `sys.getsizeof` over its
values. -/
structure RowEnv where
  str : Transaction → String
  getsizeof : Transaction → Int

def blockSize : Int := 199000

/-- The loop over the result set, after rows that take `totalSize`. -/
def takeFitting (env : RowEnv) : Int → List Transaction → List Transaction
  | _, [] => []
  | totalSize, row :: rows =>
      let totalSize := totalSize + env.getsizeof row
      if totalSize > blockSize then [] else row :: takeFitting env totalSize rows

namespace Mempool

/-- `RETRIEVE_QUERY` can return these rows. -/
def Retrieves (m : Mempool) (resultSet : List Transaction) : Prop :=
  ∃ ordered : List Transaction, ordered.Perm (m.rows.filter Transaction.selectable) ∧
    ordered.Pairwise Transaction.MayPrecede ∧ resultSet = ordered.take 144

/-- `PATCH_QUERY`. -/
def patch (ids : List String) (m : Mempool) : Mempool where
  rows := m.rows.map fun t => if t.transactionId ∈ ids then { t with chosen := 1 } else t
  key := by
    have hkeys : (m.rows.map fun t => if t.transactionId ∈ ids then { t with chosen := 1 } else t).map
        Transaction.transactionId = m.rows.map Transaction.transactionId := by
      rw [List.map_map]
      refine List.map_congr_left fun t _ => ?_
      simp only [Function.comp]
      split <;> rfl
    rw [hkeys]
    exact m.key

/-- A new row, from outside. -/
def submit (t : Transaction) (m : Mempool)
    (hnew : t.transactionId ∉ m.rows.map Transaction.transactionId) : Mempool where
  rows := m.rows ++ [t]
  key := by
    rw [List.map_append, List.map_singleton]
    exact List.Nodup.append m.key (List.nodup_singleton _) (by simpa using hnew)

/-- `MockTransactionList()` when the query returns `resultSet`: the list
and the mempool afterwards. For no rows the `UPDATE` is not valid SQL; the
error is caught, and the object has none of the attributes that a block
takes. -/
def mockTransactions (env : RowEnv) (m : Mempool) (resultSet : List Transaction) :
    Option (TransactionList × Mempool) :=
  let transactionsList := takeFitting env 0 resultSet
  if transactionsList = [] then none
  else some (mockTransactionList (transactionsList.map env.str),
    m.patch (transactionsList.map Transaction.transactionId))

end Mempool

/-- The string lists the transaction, as it was before it was chosen. -/
def Lists (env : RowEnv) (transactions : String) (t : Transaction) : Prop :=
  ∃ rows : List Transaction, transactions = strList (rows.map env.str) ∧
    { t with chosen := 0 } ∈ rows

/-! ## What a list takes -/

variable {env : RowEnv} {m m' : Mempool} {resultSet : List Transaction} {t : Transaction}

theorem takeFitting_isInitial (rows : List Transaction) :
    ∀ totalSize, takeFitting env totalSize rows <+: rows := by
  induction rows with
  | nil => exact fun _ => List.prefix_rfl
  | cons row rows ih =>
      intro totalSize
      rw [takeFitting]
      split
      · exact List.nil_prefix
      · exact (List.prefix_cons_inj row).mpr (ih _)

theorem Mempool.Retrieves.mem (h : m.Retrieves resultSet) (ht : t ∈ resultSet) :
    t ∈ m.rows ∧ t.chosen = 0 := by
  obtain ⟨ordered, hperm, -, rfl⟩ := h
  have hmem := hperm.mem_iff.mp (List.mem_of_mem_take ht)
  obtain ⟨hrow, hselectable⟩ := List.mem_filter.mp hmem
  simp only [Transaction.selectable, Bool.and_eq_true, decide_eq_true_eq] at hselectable
  exact ⟨hrow, hselectable.2⟩

theorem Mempool.eq_of_transactionId {u : Transaction} (ht : t ∈ m.rows) (hu : u ∈ m.rows)
    (h : t.transactionId = u.transactionId) : t = u :=
  List.inj_on_of_nodup_map m.key ht hu h

/-- A row after the list is taken was there before, or is in the list. -/
theorem Mempool.lists_of_mem (hretrieves : m.Retrieves resultSet) {list : TransactionList}
    (h : m.mockTransactions env resultSet = some (list, m')) (ht : t ∈ m'.rows) :
    t ∈ m.rows ∨ Lists env list.transactions t := by
  rw [Mempool.mockTransactions] at h
  split at h
  · cases h
  cases h
  obtain ⟨u, hu, rfl⟩ := List.mem_map.mp ht
  by_cases hid : u.transactionId ∈ (takeFitting env 0 resultSet).map Transaction.transactionId
  swap
  · rw [if_neg hid]
    exact .inl hu
  obtain ⟨v, hv, heq⟩ := List.mem_map.mp hid
  obtain ⟨hvm, hchosen⟩ := hretrieves.mem ((takeFitting_isInitial _ _).subset hv)
  obtain rfl := Mempool.eq_of_transactionId hvm hu heq
  rw [if_pos hid]
  refine .inr ⟨takeFitting env 0 resultSet, rfl, ?_⟩
  have hfree : { v with chosen := 0 } = v := by rw [← hchosen]
  exact hfree ▸ hv

/-! ## A list without rows -/

theorem length_le_intercalate (sep x : String) (xs : List String) :
    x.length ≤ (sep.intercalate (x :: xs)).length := by
  cases xs with
  | nil => rw [String.intercalate_singleton]
  | cons y ys =>
      rw [String.intercalate_cons_cons, String.length_append, String.length_append]
      omega

/-- The string of a block without transactions lists none. -/
theorem not_lists_nil (hstr : ∀ t, env.str t ≠ "") : ¬Lists env (strList []) t := by
  rintro ⟨rows, heq, hmem⟩
  cases rows with
  | nil => cases hmem
  | cons row rows =>
      have hlength : (strList []).length = (strList ((row :: rows).map env.str)).length :=
        congrArg String.length heq
      have hrow := length_le_intercalate ", " (env.str row) (rows.map env.str)
      have hpos : 0 < (env.str row).length := by
        rw [Nat.pos_iff_ne_zero, Ne, String.length_eq_zero_iff]
        exact hstr row
      have hnil : (strList []).length = 2 := by decide
      rw [hnil, List.map_cons, strList, String.length_append, String.length_append] at hlength
      have hbrackets : ("[" : String).length = 1 ∧ ("]" : String).length = 1 := by decide
      omega

/-! ## A sample row -/

/-- What `str` makes of a row without quotes in its texts, and what
CPython's objects for its values take: 49 bytes and one for each character
of a text, 28 for a number, and 16 for `None`. -/
def sampleRowEnv : RowEnv where
  str t :=
    "\x7b'transaction_id': '" ++ t.transactionId ++ "', 'value': " ++ t.value.elim "None" toString
      ++ ", 'input_address': '" ++ t.inputAddress ++ "', 'output_address': '" ++ t.outputAddress
      ++ "', 'committed': " ++ toString t.committed ++ ", 'chosen': " ++ toString t.chosen
      ++ ", 'transaction_hash': '" ++ t.transactionHash ++ "', 'data': '" ++ t.data
      ++ "', 'timestamp': '" ++ t.timestamp ++ "'\x7d"
  getsizeof t :=
    let texts := [t.transactionId, t.inputAddress, t.outputAddress, t.transactionHash, t.data,
      t.timestamp]
    (texts.map fun text => (49 + text.length : Int)).sum + t.value.elim 16 (fun _ => 28) + 2 * 28

theorem sampleRowEnv_str_ne (t : Transaction) : sampleRowEnv.str t ≠ "" := by
  intro h
  have hend := (String.append_eq_empty_iff.mp h).2
  exact absurd hend (by decide)

def sampleTransaction : Transaction where
  transactionId := "1"
  value := some 5
  inputAddress := "a"
  outputAddress := "b"
  committed := 0
  chosen := 0
  transactionHash := "h"
  data := ""
  timestamp := "0"

def sampleMempool : Mempool := ⟨[sampleTransaction], by decide⟩

theorem sampleMempool_retrieves : sampleMempool.Retrieves [sampleTransaction] :=
  ⟨[sampleTransaction], by decide, List.pairwise_singleton _ _, rfl⟩

def sampleList : TransactionList := mockTransactionList [sampleRowEnv.str sampleTransaction]

theorem sampleMempool_list :
    sampleMempool.mockTransactions sampleRowEnv [sampleTransaction]
      = some (sampleList, sampleMempool.patch ["1"]) := by
  have hfits : takeFitting sampleRowEnv 0 [sampleTransaction] = [sampleTransaction] := by
    decide +kernel
  rw [Mempool.mockTransactions, hfits, if_neg (List.cons_ne_nil _ _)]
  simp only [List.map_cons, List.map_nil, sampleList, sampleTransaction]

end Cpos
