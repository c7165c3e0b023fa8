import Cpos.Tickets

/-!
# When a received block makes a call raise

`insert` guards its lookups against index 0 and against a gap, not against
a negative index: there the row before the block's index is missing and
the lookup raises. And a value outside the range of its column is found
out when the block is printed, if it has too many digits for that, or by
the server only, after the rows from the block's index on have been
deleted and the deletion has been committed.

In exact arithmetic, with a positive `total_stake`, validation itself
always returns (`validateBlock_returns`), so these are the only two ways
for `insert`; `merge` also raises at once if a block of its list cannot be
printed. **`insert` and `merge` return** exactly if the block, or the
block of the list whose turn it is, is none of these
(`insert_merge_return_iff`). What is special about `merge` is what it
leaves: the local blocks after the ancestor are already gone
(`merge_raises_after_cut`).

All of this is about tables whose counts have room for the blocks handed
over (`RoomFor`), and there the counts stay in the range of their column.
They do so in every run until 2³¹ blocks have been handed over
(`counts_fit`).
-/

namespace Cpos

open Python ByteString LinkedChain BlockChain

/-! ## Validation returns -/

theorem validateBlock_returns {env : Env ℚ} (hstake : 1 ≤ env.parameters.totalStake) (b : Block) :
    ∃ r, validateBlock env b = .ok r := by
  by_cases hkey : env.fromPublicBytes b.ownerPubkey = true
  swap
  · rw [validateBlock, validateBlockOfStake, if_pos (by simpa using hkey)]
    exact ⟨none, rfl⟩
  by_cases hsignature : env.verify b.ownerPubkey b.signedNodeHash b.nodeHash = true
  swap
  · rw [validateBlock, validateBlockOfStake, if_neg (by simpa using hkey),
      if_pos (by simpa using hsignature)]
    exact ⟨none, rfl⟩
  have hp := truediv_rat (n := env.parameters.tau) (m := lookupTotalStake env)
    (by rw [lookupTotalStake]; omega)
  obtain ⟨w, hw, -⟩ := runSortition_spec b.signedNodeHash 1
    ((env.parameters.tau : ℚ) / lookupTotalStake env)
  have hgranted : Granted env (lookupNodeStake b.ownerPubkey) w b :=
    ⟨hkey, hsignature, _, hp, hw⟩
  exact ⟨_, validateBlockOfStake_eq hgranted⟩

/-! ## One block -/

section Breaks

variable {env : Env ℚ} {s : BlockChain} {c : Chain (rules env)} {b first : Block}
  {rest bs : List Block}

/-- `b` has a negative index and is not known, or it would be stored and
has a value outside its column's range. -/
inductive Breaks (env : Env ℚ) (c : Chain (rules env)) (b : Block) : Prop
  | negative (hfresh : b.hash ∉ c.blocks.map Block.hash) (h : b.index < 0)
  | unfit {p : Block} {w : Int} (hc : Counted env c b p w) (hb : Beats c b)
      (hround : p.round < b.round) (hfits : ¬b.Storable)

theorem raises_iff_breaks (hstake : 1 ≤ env.parameters.totalStake) :
    Raises env c b ↔ Breaks env c b := by
  constructor
  · rintro (⟨hfresh, hneg⟩ | ⟨hc, he⟩ | ⟨hc, hb, hround, hfits⟩)
    · exact .negative hfresh hneg
    · obtain ⟨r, hr⟩ := validateBlock_returns hstake b
      rw [hr] at he
      cases he
    · exact .unfit hc hb hround hfits
  · rintro (⟨hfresh, hneg⟩ | ⟨hc, hb, hround, hfits⟩)
    · exact .noRow hfresh hneg
    · exact .unfit hc hb hround hfits

/-- `insert` returns exactly if it does not raise for one of the reasons
of its inversion theorem. -/
theorem insert_returns_iff (h : Represents env s c) (b : Block) :
    (∃ r, returned (insert env b) s = some r) ↔ ¬Raises env c b := by
  have hout := insert_outcome h b
  generalize hrun : insert env b s = r at hout
  cases hout with
  | accepted hacc _ => exact iff_of_true ⟨_, returned_ok hrun⟩ fun hr => hr.not_accepts hacc
  | refused _ hr _ => exact iff_of_true ⟨_, returned_ok hrun⟩ hr
  | raised hr _ => exact iff_of_false (not_returned hrun) (not_not_intro hr)

/-! ## A list of blocks -/

/-- The blocks of the list are taken one after another up to one that
breaks the chain they have made. -/
def BreaksInTurn (env : Env ℚ) (c : Chain (rules env)) (bs : List Block) : Prop :=
  ∃ before b after, bs = before ++ b :: after ∧ absorbed c before = before
    ∧ Breaks env (offers c before) b

theorem breaksInTurn_nil : ¬BreaksInTurn env c [] := by
  rintro ⟨before, b, after, h, -⟩
  cases before <;> cases h

theorem breaksInTurn_cons :
    BreaksInTurn env c (b :: bs) ↔
      Breaks env c b ∨ c.Accepts b ∧ BreaksInTurn env (c.offer b) bs := by
  constructor
  · rintro ⟨before, y, after, heq, htaken, hy⟩
    cases before with
    | nil =>
        obtain ⟨rfl, rfl⟩ := List.cons.inj heq
        exact .inl hy
    | cons x before =>
        obtain ⟨rfl, rfl⟩ := List.cons.inj heq
        rw [absorbed] at htaken
        split at htaken
        · next hacc => exact .inr ⟨hacc, before, y, after, rfl, (List.cons.inj htaken).2, hy⟩
        · cases htaken
  · rintro (hb | ⟨hacc, before, y, after, rfl, htaken, hy⟩)
    · exact ⟨[], b, bs, rfl, rfl, hb⟩
    · refine ⟨b :: before, y, after, rfl, ?_, hy⟩
      rw [absorbed, if_pos hacc, htaken]

theorem tailRaises_iff_breaksInTurn (hstake : 1 ≤ env.parameters.totalStake) (bs : List Block) :
    ∀ c : Chain (rules env), TailRaises env c bs ↔ BreaksInTurn env c bs := by
  induction bs with
  | nil => exact fun c => iff_of_false id breaksInTurn_nil
  | cons b bs ih =>
      intro c
      rw [TailRaises, breaksInTurn_cons, raises_iff_breaks hstake, ih]

/-- The position of the ancestor is determined by the first block. -/
theorem tailRaises_at_fork {i : Nat} {p : Block} (hf : ForkAt c first i p) :
    (∃ j q, ForkAt c first j q ∧ TailRaises env (upTo c j) (first :: rest)) ↔
      TailRaises env (upTo c i) (first :: rest) := by
  constructor
  · rintro ⟨j, q, hf', hr⟩
    rwa [hf.unique hf']
  · exact fun hr => ⟨i, p, hf, hr⟩

theorem merge_returns_iff (h : Represents env s c) (first : Block) (rest : List Block) :
    (∃ r, returned (merge env (first :: rest)) s = some r) ↔ AllPrintable (first :: rest) ∧
      ¬∃ i p, ForkAt c first i p ∧ TailRaises env (upTo c i) (first :: rest) := by
  by_cases hprints : AllPrintable (first :: rest)
  swap
  · exact iff_of_false (not_returned (merge_unprintable hprints s)) fun h => hprints h.1
  rw [and_iff_right hprints]
  have hspec := merge_spec h hprints
  generalize hrun : merge env (first :: rest) s = r at hspec
  cases hspec with
  | noAncestor hno =>
      refine iff_of_true ⟨_, returned_ok hrun⟩ ?_
      rintro ⟨i, p, hf, -⟩
      exact hno hf.parent_mem
  | rejected i p hf hrefused =>
      refine iff_of_true ⟨_, returned_ok hrun⟩ ?_
      rw [tailRaises_at_fork hf]
      rintro (hr | ⟨hacc, -⟩)
      · exact hrefused.not_raises hr
      · exact hrefused.not_accepts hacc
  | sameRound i p w hf hc hround =>
      have hparent := (hf.candidate hc.toCandidate).1
      refine iff_of_true ⟨_, returned_ok hrun⟩ ?_
      rw [tailRaises_at_fork hf]
      rintro (hr | ⟨hacc, -⟩)
      · exact hc.not_raises (fun _ => by omega) hr
      · exact hc.not_accepts (fun _ => by omega) hacc
  | headRaised i p hf e s₂ hhead hr =>
      rw [tailRaises_at_fork hf]
      exact iff_of_false (not_returned hrun) (not_not_intro (.inl hr))
  | adopted i p hf s₂ s₃ hhead hacc hrest =>
      refine iff_of_true ⟨_, returned_ok hrun⟩ ?_
      have hspec := rest_spec h hhead hacc rest
      rw [hrest] at hspec
      cases hspec with
      | returned hno _ =>
          rw [tailRaises_at_fork hf]
          rintro (hr | ⟨-, hr⟩)
          · exact hr.not_accepts hacc
          · exact hno hr
  | tailRaised i p hf e s₂ s₃ hhead hacc hrest =>
      have hspec := rest_spec h hhead hacc rest
      rw [hrest] at hspec
      cases hspec with
      | raised hr _ =>
          rw [tailRaises_at_fork hf]
          exact iff_of_false (not_returned hrun) (not_not_intro (.inr ⟨hacc, hr⟩))

end Breaks

/-! ## Room in the counts -/

section RoomFor

variable {env : Env ℚ} {s : BlockChain} {c : Chain (rules env)} {b : Block} {m n : Nat}

/-- Every count can take `n` more tickets in the range of its column. -/
def BlockChain.RoomFor (s : BlockChain) (n : Nat) : Prop :=
  ∀ r ∈ s.localChains, -2 ^ 31 ≤ r.numSuc ∧ r.numSuc + n < 2 ^ 31

instance (s : BlockChain) (n : Nat) : Decidable (s.RoomFor n) :=
  inferInstanceAs (Decidable (∀ r ∈ s.localChains, _))

theorem BlockChain.RoomFor.mono (h : s.RoomFor m) (hle : n ≤ m) : s.RoomFor n := by
  intro r hr
  have := h r hr
  omega

/-- The count of the genesis row is zero. -/
theorem BlockChain.RoomFor.lt (h : s.RoomFor n) (hrep : Represents env s c) : n < 2 ^ 31 := by
  have hroot := h genesisRow (List.mem_of_head? hrep.genesis)
  have hzero : genesisRow.numSuc = 0 := rfl
  omega

/-- A stake of one wins one ticket at most. -/
theorem validateBlock_le_one {w : Int} (h : validateBlock env b = .ok (some w)) : w ≤ 1 := by
  obtain ⟨p, hw⟩ := validateBlock_tickets h
  obtain ⟨w', hw', hle, -⟩ := runSortition_spec b.signedNodeHash 1 p
  cases hw'.symm.trans hw
  exact Int.ofNat_le.mpr hle

theorem BlockChain.RoomFor.counted (h : s.RoomFor (n + 1)) {p : Block} {w : Int}
    (hc : Counted env c b p w) : (s.counted b.index w).RoomFor n := by
  intro r' hr'
  obtain ⟨r, hr, rfl⟩ := List.mem_map.mp hr'
  have hroom := h r hr
  have hnonneg := hc.nonneg
  have hone := validateBlock_le_one hc.valid
  unfold Row.count
  split
  · show -2 ^ 31 ≤ r.numSuc + w ∧ r.numSuc + w + n < 2 ^ 31
    omega
  · omega

theorem BlockChain.RoomFor.cutTo (h : s.RoomFor n) (k : Nat) : (s.cutTo k).RoomFor n :=
  fun r hr => h r (List.mem_of_mem_take hr)

/-- A block takes one ticket's room at most, whether the call returns or
raises. -/
theorem insert_roomFor (h : Represents env s c) (hroom : s.RoomFor (n + 1)) (b : Block) :
    (after (insert env b) s).RoomFor n := by
  have hlt := hroom.lt h
  refine after_insert_cases (P := fun t => t.RoomFor n) h b (hroom.mono n.le_succ) ?counted ?stored
    ?unfit
  case counted => exact fun p w hc => hroom.counted hc
  case unfit => exact fun p w hc => (hroom.counted hc).cutTo _
  case stored =>
    intro p w hc _ r hr
    rcases List.mem_append.mp hr with hr | hr
    · exact (hroom.counted hc).cutTo _ r hr
    · rw [List.mem_singleton.mp hr]
      show -2 ^ 31 ≤ (0 : Int) ∧ (0 : Int) + n < 2 ^ 31
      omega

theorem tail_roomFor (bs : List Block) : ∀ {s : BlockChain} {c : Chain (rules env)},
    Represents env s c → s.RoomFor (n + bs.length) →
      (after (insertUntilRejected env bs) s).RoomFor n := by
  induction bs with
  | nil => exact fun _ hroom => hroom
  | cons b bs ih =>
      intro s c h hroom
      have hhead := insert_roomFor h hroom b
      obtain ⟨c₁, h₁, -⟩ := insert_represents h b
      rw [insertUntilRejected]
      cases hrun : insert env b s with
      | error e s₁ =>
          rw [after_error hrun] at hhead
          rw [after_bind_error hrun]
          exact hhead.mono (Nat.le_add_right ..)
      | ok stored s₁ =>
          rw [after_ok hrun] at hhead h₁
          rw [after_bind_ok hrun]
          cases stored with
          | false => exact hhead.mono (Nat.le_add_right ..)
          | true => exact ih h₁ hhead

theorem merge_roomFor (h : Represents env s c) (bs : List Block)
    (hroom : s.RoomFor (n + bs.length)) : (after (merge env bs) s).RoomFor n := by
  cases bs with
  | nil => exact hroom
  | cons first rest =>
      have hsame : s.RoomFor n := hroom.mono (Nat.le_add_right ..)
      have hhead (i : Nat) :
          (after (insert env first) (s.cutTo (i + 1))).RoomFor (n + rest.length) :=
        insert_roomFor (h.upTo i) (hroom.cutTo _) first
      refine after_merge_cases (P := fun t => t.RoomFor n) h first rest ?unprintable ?noAncestor
        ?rejected ?sameRound ?headRaised ?adopted
      case unprintable => exact fun _ => hsame
      case noAncestor => exact fun _ => hsame
      case rejected => exact fun _ _ _ _ => hsame
      case sameRound =>
        intro i p w _ hc _
        exact BlockChain.RoomFor.counted (hroom.mono (by simp)) hc
      case headRaised => exact fun i _ _ _ => (hhead i).mono (Nat.le_add_right ..)
      case adopted =>
        intro i p s₂ _ hrun _
        obtain ⟨c₂, h₂, -⟩ := insert_represents (h.upTo i) first
        have hs₂ := hhead i
        rw [after_ok hrun] at h₂ hs₂
        exact tail_roomFor rest h₂ hs₂

theorem Confirms.roomFor {s' : BlockChain} (hs : Confirms s s') (hroom : s.RoomFor n) :
    s'.RoomFor n := by
  intro r' hr'
  obtain ⟨i, hi⟩ := List.mem_iff_getElem?.mp hr'
  obtain ⟨r, hr, heq⟩ := hs.getElem?_rev hi
  have hcount : r'.numSuc = r.numSuc := by
    rcases heq with rfl | rfl
    · rfl
    · rfl
  rw [hcount]
  exact hroom r (List.mem_of_getElem? hr)

theorem step_roomFor (h : Represents env s c) (op : Op)
    (hroom : s.RoomFor (n + op.blocks.length)) : (step env s op).RoomFor n := by
  cases op with
  | insert b =>
      rw [step_insert]
      exact insert_roomFor h hroom b
  | merge bs =>
      rw [step_merge]
      exact merge_roomFor h bs hroom
  | updateRound fuel =>
      rw [step_updateRound]
      exact (updateRound_confirms fuel s : Confirms s _).roomFor hroom

/-- There is room for as many blocks more as there was, less those handed
over. -/
theorem run_roomFor (ops : List Op) : ∀ {s : BlockChain} {c : Chain (rules env)},
    Represents env s c → s.RoomFor (n + (ops.flatMap Op.blocks).length) →
      (run env s ops).RoomFor n := by
  induction ops with
  | nil => exact fun _ hroom => hroom
  | cons op ops ih =>
      intro s c h hroom
      obtain ⟨c₁, h₁, -⟩ := step_represents h op
      refine ih h₁ (step_roomFor h op (hroom.mono ?_))
      rw [List.flatMap_cons, List.length_append]
      omega

/-- The counts are in the range of their column until a run has handed
over 2³¹ blocks. -/
theorem counts_fit {s₀ : BlockChain} (hrows : s₀.localChains = [genesisRow]) {ops : List Op}
    (hlt : (ops.flatMap Op.blocks).length < 2 ^ 31) : (run env s₀ ops).RoomFor 0 := by
  refine run_roomFor ops (represents_genesis hrows) fun r hr => ?_
  rw [hrows, List.mem_singleton] at hr
  have hzero : r.numSuc = 0 := by rw [hr]; rfl
  omega

/-- **When `insert` and `merge` return**, in every reachable state: while
the counts have room for the blocks, and then the counts stay in range. -/
theorem insert_merge_return_iff (hstake : 1 ≤ env.parameters.totalStake) (hs : Reachable env s) :
    ∃ c, Represents env s c ∧
      (∀ b, s.RoomFor 1 → (after (insert env b) s).RoomFor 0 ∧
        ((∃ r, returned (insert env b) s = some r) ↔ ¬Breaks env c b)) ∧
      ∀ first rest, s.RoomFor (first :: rest).length →
        (after (merge env (first :: rest)) s).RoomFor 0 ∧
        ((∃ r, returned (merge env (first :: rest)) s = some r) ↔ AllPrintable (first :: rest) ∧
          ¬∃ i p, ForkAt c first i p ∧ BreaksInTurn env (upTo c i) (first :: rest)) := by
  obtain ⟨c, hc⟩ := hs.represents
  refine ⟨c, hc, fun b hroom => ⟨insert_roomFor hc hroom b, ?_⟩, fun first rest hroom => ⟨?_, ?_⟩⟩
  · rw [insert_returns_iff hc, raises_iff_breaks hstake]
  · exact merge_roomFor hc (first :: rest) (hroom.mono (by simp))
  · simp only [merge_returns_iff hc, tailRaises_iff_breaksInTurn hstake]

end RoomFor

/-- The chain of `a1` and `a2`. -/
def twoBlocks : BlockChain := run sampleEnv .init [.insert a1, .insert a2]

theorem twoBlocks_reachable : Reachable sampleEnv twoBlocks := ⟨.init, _, rfl, rfl⟩

/-- The block `a3`, and the list `[a3]`. -/
theorem insert_merge_return_iff_sample :
    ∃ c, Represents sampleEnv twoBlocks c ∧
      ((after (insert sampleEnv a3) twoBlocks).RoomFor 0 ∧
        ((∃ r, returned (insert sampleEnv a3) twoBlocks = some r) ↔ ¬Breaks sampleEnv c a3)) ∧
      (after (merge sampleEnv [a3]) twoBlocks).RoomFor 0 ∧
        ((∃ r, returned (merge sampleEnv [a3]) twoBlocks = some r) ↔ AllPrintable [a3] ∧
          ¬∃ i p, ForkAt c a3 i p ∧ BreaksInTurn sampleEnv (upTo c i) [a3]) := by
  have hroom : twoBlocks.RoomFor 1 := by decide +kernel
  obtain ⟨c, hc, hinsert, hmerge⟩ := insert_merge_return_iff (by decide) twoBlocks_reachable
  exact ⟨c, hc, hinsert a3 hroom, hmerge a3 [] hroom⟩

/-- `a1` with the index -1: its hashes are still its own. -/
def aBelow : Block := { a1 with index := -1 }

/-- Handed to `merge`, it costs the node its chain; so does, handed to
`insert`, a block in a round that does not fit its column. -/
theorem merge_raises_after_cut :
    aBelow.Bound ∧ raised (insert sampleEnv aBelow) .init = some .typeError ∧
      Reachable sampleEnv twoBlocks ∧ twoBlocks.localChains.length = 3 ∧
      raised (merge sampleEnv [aBelow]) twoBlocks = some .typeError ∧
      (after (merge sampleEnv [aBelow]) twoBlocks).localChains = [genesisRow] ∧
      raised (insert sampleEnv aFar) twoBlocks = some .dataError ∧
      (after (insert sampleEnv aFar) twoBlocks).localChains.length = 1 := by
  have hgenesis : aBelow.Bound ∧ raised (insert sampleEnv aBelow) .init = some .typeError := by
    decide +kernel
  have htwo : twoBlocks.localChains.length = 3 ∧
      raised (merge sampleEnv [aBelow]) twoBlocks = some .typeError ∧
      (after (merge sampleEnv [aBelow]) twoBlocks).localChains = [genesisRow] ∧
      raised (insert sampleEnv aFar) twoBlocks = some .dataError ∧
      (after (insert sampleEnv aFar) twoBlocks).localChains.length = 1 := by decide +kernel
  exact ⟨hgenesis.1, hgenesis.2, twoBlocks_reachable, htwo⟩

end Cpos
