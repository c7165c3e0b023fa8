import Mathlib.Algebra.Order.BigOperators.Group.List
import Cpos.Mempool

/-!
# Which transactions a list takes

A `MempoolRun` makes transaction lists one after another, and new
transactions come in between. The loop over the result set takes rows as
long as they fit, which is the longest prefix that fits
(`takeFitting_longest`), and the `UPDATE` marks these rows and no others
(`patch_taken`).

A row that is marked keeps its mark, so **each list is exact, and no
transaction is in two** (`selections_exact`).
-/

namespace Cpos

open Python ByteString

variable {env : RowEnv} {m m' : Mempool} {resultSet : List Transaction}

/-! ## The longest prefix that fits -/

/-- The memory that the rows take. -/
def totalSize (env : RowEnv) (rows : List Transaction) : Int := (rows.map env.getsizeof).sum

theorem totalSize_cons (row : Transaction) (rows : List Transaction) :
    totalSize env (row :: rows) = env.getsizeof row + totalSize env rows := by
  rw [totalSize, List.map_cons, List.sum_cons, totalSize]

theorem totalSize_nonneg (hsize : ∀ t, 0 ≤ env.getsizeof t) (rows : List Transaction) :
    0 ≤ totalSize env rows := by
  refine List.sum_nonneg fun size hmem => ?_
  obtain ⟨t, -, rfl⟩ := List.mem_map.mp hmem
  exact hsize t

theorem takeFitting_size (rows : List Transaction) :
    ∀ taken ≤ blockSize, taken + totalSize env (takeFitting env taken rows) ≤ blockSize := by
  induction rows with
  | nil =>
      intro taken htaken
      rw [takeFitting, totalSize, List.map_nil, List.sum_nil, add_zero]
      exact htaken
  | cons row rows ih =>
      intro taken htaken
      rw [takeFitting]
      by_cases hbig : taken + env.getsizeof row > blockSize
      · rw [if_pos hbig, totalSize, List.map_nil, List.sum_nil, add_zero]
        exact htaken
      · rw [if_neg hbig, totalSize_cons, ← add_assoc]
        exact ih _ (not_lt.mp hbig)

/-- Any prefix that fits is one of what is taken. -/
theorem takeFitting_longest (hsize : ∀ t, 0 ≤ env.getsizeof t) (rows : List Transaction) :
    ∀ {taken : Int} {fitting : List Transaction}, fitting <+: rows →
      taken + totalSize env fitting ≤ blockSize → fitting <+: takeFitting env taken rows := by
  induction rows with
  | nil =>
      intro taken fitting hfitting _
      rw [List.prefix_nil.mp hfitting]
      exact List.nil_prefix
  | cons row rows ih =>
      intro taken fitting hfitting hfits
      rcases fitting with _ | ⟨first, fitting⟩
      · exact List.nil_prefix
      obtain ⟨rfl, hrest⟩ := List.cons_prefix_cons.mp hfitting
      rw [totalSize_cons] at hfits
      have hnonneg := totalSize_nonneg hsize fitting
      rw [takeFitting, if_neg (by omega)]
      exact (List.prefix_cons_inj first).mpr (ih hrest (by omega))

/-! ## One list -/

/-- A list that was made: the mempool before it, the rows it took, and the
mempool after it. -/
structure Selection where
  before : Mempool
  rows : List Transaction
  list : TransactionList
  after : Mempool

/-- The rows are the longest prefix that fits of the at most 144 highest
ones to be chosen from; the list prints them, and they are marked. -/
structure Selection.Exact (env : RowEnv) (s : Selection) : Prop where
  longest : ∃ highest, s.before.Retrieves highest ∧ s.rows <+: highest ∧
    totalSize env s.rows ≤ blockSize ∧
    ∀ fitting, fitting <+: highest → totalSize env fitting ≤ blockSize → fitting <+: s.rows
  list : s.list = mockTransactionList (s.rows.map env.str)
  marked : s.after.rows
    = s.before.rows.map fun t => if t ∈ s.rows then { t with chosen := 1 } else t

/-- The ids of the rows taken are those of no other row. -/
theorem Mempool.patch_taken {rows : List Transaction} (hrows : ∀ t ∈ rows, t ∈ m.rows) :
    (m.patch (rows.map Transaction.transactionId)).rows
      = m.rows.map fun t => if t ∈ rows then { t with chosen := 1 } else t := by
  refine List.map_congr_left fun t ht => ?_
  have hiff : t.transactionId ∈ rows.map Transaction.transactionId ↔ t ∈ rows := by
    constructor
    · intro hmem
      obtain ⟨u, hu, heq⟩ := List.mem_map.mp hmem
      exact Mempool.eq_of_transactionId (hrows u hu) ht heq ▸ hu
    · exact List.mem_map_of_mem
  exact if_congr hiff rfl rfl

theorem Mempool.mockTransactions_eq {list : TransactionList}
    (h : m.mockTransactions env resultSet = some (list, m')) :
    list = mockTransactionList ((takeFitting env 0 resultSet).map env.str) ∧
      m' = m.patch ((takeFitting env 0 resultSet).map Transaction.transactionId) := by
  rw [Mempool.mockTransactions] at h
  split at h
  · cases h
  cases h
  exact ⟨rfl, rfl⟩

theorem Mempool.Retrieves.taken (h : m.Retrieves resultSet) {t : Transaction}
    (ht : t ∈ takeFitting env 0 resultSet) : t ∈ m.rows ∧ t.chosen = 0 :=
  h.mem ((takeFitting_isInitial resultSet 0).subset ht)

theorem selection_exact (hsize : ∀ t, 0 ≤ env.getsizeof t) (hretrieves : m.Retrieves resultSet)
    {list : TransactionList} (h : m.mockTransactions env resultSet = some (list, m')) :
    Selection.Exact env ⟨m, takeFitting env 0 resultSet, list, m'⟩ := by
  obtain ⟨rfl, rfl⟩ := Mempool.mockTransactions_eq h
  have hfits : 0 + totalSize env (takeFitting env 0 resultSet) ≤ blockSize :=
    takeFitting_size resultSet 0 (by decide)
  rw [zero_add] at hfits
  refine ⟨⟨resultSet, hretrieves, takeFitting_isInitial _ _, hfits, fun fitting hprefix hle => ?_⟩,
    rfl, Mempool.patch_taken fun t ht => (hretrieves.taken ht).1⟩
  exact takeFitting_longest hsize resultSet hprefix (by omega)

/-! ## Runs -/

/-- Lists are made and transactions come in, in any order, from `m₀` on.
The selections are in the order in which they were made. -/
inductive MempoolRun (env : RowEnv) (m₀ : Mempool) : List Selection → Mempool → Prop
  | start : MempoolRun env m₀ [] m₀
  | construct {selections : List Selection} {m m' : Mempool} {resultSet : List Transaction}
      {list : TransactionList} (h : MempoolRun env m₀ selections m)
      (hretrieves : m.Retrieves resultSet)
      (hlist : m.mockTransactions env resultSet = some (list, m')) :
      MempoolRun env m₀ (selections ++ [⟨m, takeFitting env 0 resultSet, list, m'⟩]) m'
  | submit {selections : List Selection} {m : Mempool} {t : Transaction}
      (h : MempoolRun env m₀ selections m)
      (hnew : t.transactionId ∉ m.rows.map Transaction.transactionId) :
      MempoolRun env m₀ selections (m.submit t hnew)

def Selection.ids (s : Selection) : List String := s.rows.map Transaction.transactionId

/-- The mempool has a marked row with this id. -/
def Mempool.Marked (m : Mempool) (id : String) : Prop :=
  ∃ t ∈ m.rows, t.transactionId = id ∧ t.chosen = 1

theorem Mempool.Marked.patch {id : String} (h : m.Marked id) (ids : List String) :
    (m.patch ids).Marked id := by
  obtain ⟨t, ht, hid, hchosen⟩ := h
  refine ⟨_, List.mem_map_of_mem ht, ?_⟩
  split
  · exact ⟨hid, rfl⟩
  · exact ⟨hid, hchosen⟩

theorem Mempool.marked_patch {ids : List String} {id : String} {t : Transaction}
    (ht : t ∈ m.rows) (hid : t.transactionId = id) (hmem : id ∈ ids) :
    (m.patch ids).Marked id := by
  subst hid
  exact ⟨_, List.mem_map_of_mem ht, by rw [if_pos hmem], by rw [if_pos hmem]⟩

/-- What is marked is not taken again. -/
theorem Mempool.Marked.not_taken {id : String} (h : m.Marked id)
    (hretrieves : m.Retrieves resultSet) :
    id ∉ (takeFitting env 0 resultSet).map Transaction.transactionId := by
  intro hmem
  obtain ⟨t, ht, hid, hchosen⟩ := h
  obtain ⟨u, hu, heq⟩ := List.mem_map.mp hmem
  obtain ⟨hrow, hfree⟩ := hretrieves.taken hu
  obtain rfl := Mempool.eq_of_transactionId ht hrow (hid.trans heq.symm)
  rw [hchosen] at hfree
  cases hfree

theorem Mempool.Retrieves.nodup (h : m.Retrieves resultSet) :
    ((takeFitting env 0 resultSet).map Transaction.transactionId).Nodup := by
  obtain ⟨ordered, hperm, -, rfl⟩ := h
  have hordered : (ordered.map Transaction.transactionId).Nodup :=
    ((hperm.map _).nodup_iff).mpr (m.key.sublist (List.filter_sublist.map _))
  exact hordered.sublist ((((takeFitting_isInitial _ _).sublist).trans
    (List.take_sublist _ _)).map _)

/-- All ids taken so far are marked, and were taken once. -/
theorem MempoolRun.marked {m₀ : Mempool} {selections : List Selection}
    (h : MempoolRun env m₀ selections m) :
    (∀ id ∈ selections.flatMap Selection.ids, m.Marked id) ∧
      (selections.flatMap Selection.ids).Nodup := by
  induction h with
  | start => exact ⟨by simp, by simp⟩
  | submit _ _ ih =>
      refine ⟨fun id hid => ?_, ih.2⟩
      obtain ⟨t, ht, hchosen⟩ := ih.1 id hid
      exact ⟨t, List.mem_append_left _ ht, hchosen⟩
  | construct _ hretrieves hlist ih =>
      obtain ⟨-, rfl⟩ := Mempool.mockTransactions_eq hlist
      rw [List.flatMap_append, List.flatMap_singleton]
      refine ⟨fun id hid => ?_, List.nodup_append.mpr ⟨ih.2, hretrieves.nodup, ?_⟩⟩
      · rcases List.mem_append.mp hid with hid | hid
        · exact (ih.1 id hid).patch _
        · obtain ⟨t, ht, heq⟩ := List.mem_map.mp hid
          exact Mempool.marked_patch (hretrieves.taken ht).1 heq hid
      · rintro id hid _ htaken rfl
        exact (ih.1 id hid).not_taken hretrieves htaken

/-- **Lists are exact and do not repeat.** -/
theorem selections_exact {m₀ : Mempool} {selections : List Selection}
    (hsize : ∀ t, 0 ≤ env.getsizeof t) (h : MempoolRun env m₀ selections m) :
    (∀ s ∈ selections, s.Exact env) ∧ (selections.flatMap Selection.ids).Nodup := by
  refine ⟨?_, h.marked.2⟩
  induction h with
  | start => simp
  | submit _ _ ih => exact ih
  | construct _ hretrieves hlist ih =>
      intro s hs
      rcases List.mem_append.mp hs with hs | hs
      · exact ih s hs
      · rw [List.mem_singleton.mp hs]
        exact selection_exact hsize hretrieves hlist

/-! ## A sample run -/

theorem sampleRowEnv_getsizeof_nonneg (t : Transaction) : 0 ≤ sampleRowEnv.getsizeof t := by
  refine Int.add_nonneg (Int.add_nonneg (List.sum_nonneg fun size hmem => ?_) ?_) (by decide)
  · obtain ⟨text, -, rfl⟩ := List.mem_map.mp hmem
    exact Int.add_nonneg (by decide) (Int.natCast_nonneg _)
  · cases t.value <;> simp

/-- A transaction of value `NULL`. -/
def worthless : Transaction := { sampleTransaction with transactionId := "2", value := none }

/-- The sample transaction is taken, and the other comes in. -/
def refilledMempool : Mempool := (sampleMempool.patch ["1"]).submit worthless (by decide)

/-- That one is taken next. -/
theorem selections_exact_sample : ∃ selections m,
    MempoolRun sampleRowEnv sampleMempool selections m ∧
    selections.map Selection.ids = [["1"], ["2"]] ∧
    (∀ s ∈ selections, s.Exact sampleRowEnv) ∧ (selections.flatMap Selection.ids).Nodup := by
  have htaken : takeFitting sampleRowEnv 0 [sampleTransaction] = [sampleTransaction] ∧
      takeFitting sampleRowEnv 0 [worthless] = [worthless] := by decide +kernel
  have hfirst : MempoolRun sampleRowEnv sampleMempool _ refilledMempool :=
    (MempoolRun.construct .start sampleMempool_retrieves sampleMempool_list).submit _
  have hretrieves : refilledMempool.Retrieves [worthless] :=
    ⟨[worthless], by decide, List.pairwise_singleton _ _, rfl⟩
  have hlist : refilledMempool.mockTransactions sampleRowEnv [worthless]
      = some (mockTransactionList [sampleRowEnv.str worthless], refilledMempool.patch ["2"]) := by
    rw [Mempool.mockTransactions, htaken.2, if_neg (List.cons_ne_nil _ _)]
    simp only [List.map_cons, List.map_nil, worthless]
  have hrun := hfirst.construct hretrieves hlist
  refine ⟨_, _, hrun, ?_, selections_exact sampleRowEnv_getsizeof_nonneg hrun⟩
  simp only [List.nil_append, List.cons_append, List.map_cons, List.map_nil, Selection.ids,
    htaken.1, htaken.2]
  rfl

end Cpos
