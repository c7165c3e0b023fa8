import Mathlib.Data.List.Basic

/-!
# Cutting a list into chunks

`chunksOf n l` are the pieces of `l` that start at the multiples of `n`.
`isChunking_chunksOf` says what that is good for: put together they are `l`
again, none is empty, and all but the last have exactly `n` elements.
-/

namespace Chunking

variable {α : Type*} {n : Nat} {l : List α}

def chunksOf (n : Nat) (l : List α) : List (List α) :=
  (List.range ((l.length + n - 1) / n)).map fun i => (l.drop (i * n)).take n

/-- `cs` is `l`, cut after every `n` elements. -/
structure IsChunking (n : Nat) (l : List α) (cs : List (List α)) : Prop where
  flatten : cs.flatten = l
  ne_nil : ∀ c ∈ cs, c ≠ []
  length_le : ∀ c ∈ cs, c.length ≤ n
  full : ∀ c ∈ cs.dropLast, c.length = n

@[simp] theorem chunksOf_length (n : Nat) (l : List α) :
    (chunksOf n l).length = (l.length + n - 1) / n := by
  simp [chunksOf]

theorem chunksOf_nil (hn : 0 < n) : chunksOf n ([] : List α) = [] := by
  rw [chunksOf, List.length_nil, Nat.div_eq_of_lt (by omega), List.range_zero, List.map_nil]

theorem chunksOf_cons (hn : 0 < n) (hl : l ≠ []) :
    chunksOf n l = l.take n :: chunksOf n (l.drop n) := by
  have hpos : 0 < l.length := List.length_pos_of_ne_nil hl
  have hcount : (l.length + n - 1) / n = (l.length - n + n - 1) / n + 1 := by
    rcases Nat.le_total l.length n with hle | hge
    · rw [Nat.sub_eq_zero_of_le hle, Nat.div_eq_of_lt (show 0 + n - 1 < n by omega),
        show l.length + n - 1 = l.length - 1 + n by omega, Nat.add_div_right _ hn,
        Nat.div_eq_of_lt (by omega)]
    · rw [show l.length + n - 1 = l.length - n + n - 1 + n by omega, Nat.add_div_right _ hn]
  simp only [chunksOf, List.length_drop, hcount, List.range_succ_eq_map, List.map_cons,
    List.map_map, Nat.zero_mul, List.drop_zero, List.drop_drop]
  congr 1
  refine List.map_congr_left fun i _ => ?_
  rw [Function.comp_apply, Nat.succ_mul, Nat.add_comm]

theorem chunksOf_of_length_le (hn : 0 < n) (hl : l ≠ []) (h : l.length ≤ n) :
    chunksOf n l = [l] := by
  rw [chunksOf_cons hn hl, List.take_of_length_le h, List.drop_of_length_le h, chunksOf_nil hn]

theorem isChunking_nil : IsChunking n ([] : List α) [] where
  flatten := rfl
  ne_nil := by simp
  length_le := by simp
  full := by simp

/-- One more chunk in front; it is full unless nothing follows. -/
theorem IsChunking.cons {cs : List (List α)} (hn : 0 < n) (hl : l ≠ [])
    (h : IsChunking n (l.drop n) cs) : IsChunking n l (l.take n :: cs) where
  flatten := by rw [List.flatten_cons, h.flatten, List.take_append_drop]
  ne_nil := by
    refine List.forall_mem_cons.mpr ⟨fun hnil => ?_, h.ne_nil⟩
    rcases List.take_eq_nil_iff.mp hnil with hzero | hnil
    · exact absurd hzero (by omega)
    · exact hl hnil
  length_le := List.forall_mem_cons.mpr ⟨List.length_take_le n l, h.length_le⟩
  full := by
    cases cs with
    | nil => simp
    | cons c cs =>
        rw [List.dropLast_cons_cons]
        refine List.forall_mem_cons.mpr ⟨?_, h.full⟩
        have hrest : 0 < (l.drop n).length := by
          rw [← h.flatten, List.flatten_cons, List.length_append]
          have := List.length_pos_of_ne_nil (h.ne_nil c List.mem_cons_self)
          omega
        rw [List.length_drop] at hrest
        rw [List.length_take]
        omega

theorem isChunking_chunksOf (hn : 0 < n) (l : List α) : IsChunking n l (chunksOf n l) := by
  induction hlen : l.length using Nat.strongRecOn generalizing l with
  | _ m ih =>
      rcases eq_or_ne l [] with rfl | hl
      · rw [chunksOf_nil hn]
        exact isChunking_nil
      · rw [chunksOf_cons hn hl]
        have hpos : 0 < l.length := List.length_pos_of_ne_nil hl
        exact (ih _ (by rw [List.length_drop]; omega) (l.drop n) rfl).cons hn hl

/-- There is one chunk exactly if the list fits into it. -/
theorem chunksOf_length_le_one (hn : 0 < n) : (chunksOf n l).length ≤ 1 ↔ l.length ≤ n := by
  rw [chunksOf_length, ← Nat.lt_succ_iff, Nat.div_lt_iff_lt_mul hn]
  omega

end Chunking
