import Mathlib.Data.List.NodupEquivFin
import Cpos.Agreement
import Cpos.Delays

/-!
# What the statistics take

`dump_data` writes the chain, block by block as `last_n_blocks` reads it
back, the last confirmed row and the delays that were noted.
`process_data` looks for their ids among the hashes of the blocks: it
keeps a delay if its block is there, once for each block
(`select_valid_confirmation_delays`), and counts the blocks up to the last
confirmed one (`plot_bc`).

The blocks are those that `compose_block` makes, and a block whose
transaction hash is not empty comes back with another hash. So of the
delays noted for a confirmed row, the genesis row excepted, **one is kept
if its block has the empty transaction hash, and none if it has not**
(`statistics`), and in the second case no block counts as confirmed
(`confirmed_counted`). The genesis block lists no transactions and has the
hash `00`, so while it is the last confirmed one, it does not count either.
Where nodes make blocks of mock transactions, the statistics find nothing
confirmed.
-/

namespace Cpos

open Python ByteString Sha256 LinkedChain BlockChain Actors

variable {ι K : Type} [PyNum K]

/-! ## The dump and its evaluation -/

/-- One turn of the loop: the hashes that are left, and the delays kept. -/
def selectDelay (kept : List Bytes × List (Bytes × Int × Int)) (delay : Bytes × Int × Int) :
    List Bytes × List (Bytes × Int × Int) :=
  if delay.1 ∈ kept.1 then (kept.1.erase delay.1, kept.2 ++ [delay]) else kept

def selectValidConfirmationDelays (bc : List Block)
    (confirmationDelays : List (Bytes × Int × Int)) : List (Bytes × Int × Int) :=
  (confirmationDelays.foldl selectDelay (bc.map Block.hash, [])).2

/-- `len(bc)` and `confirmed_blocks` of `plot_bc`. -/
def plotBc (bc : List Block) (lastConfirmedBlockId : Bytes) : Nat × Nat :=
  bc.foldl (fun counts block =>
    (counts.1 + 1, if block.hash = lastConfirmedBlockId then counts.1 + 1 else counts.2)) (0, 0)

/-- Of the delays with one id, as many are kept as there are blocks with
this hash, the first ones. -/
theorem foldl_selectDelay (id : Bytes) (delays : List (Bytes × Int × Int)) :
    ∀ hashes kept, (delays.foldl selectDelay (hashes, kept)).2.filter (fun d => d.1 = id)
      = kept.filter (fun d => d.1 = id)
        ++ (delays.filter fun d => d.1 = id).take (hashes.count id) := by
  induction delays with
  | nil =>
      intro hashes kept
      rw [List.filter_nil, List.take_nil, List.append_nil]
      rfl
  | cons d delays ih =>
      intro hashes kept
      rw [List.foldl_cons, selectDelay]
      by_cases hmem : d.1 ∈ hashes
      swap
      · rw [if_neg hmem, ih]
        by_cases hid : d.1 = id
        · -- there is no block with this hash, now or later
          subst hid
          rw [List.count_eq_zero.mpr hmem, List.take_zero, List.take_zero]
        · rw [List.filter_cons_of_neg (by simpa using hid)]
      rw [if_pos hmem, ih]
      by_cases hid : d.1 = id
      · subst hid
        have hcount : hashes.count d.1 = (hashes.erase d.1).count d.1 + 1 := by
          have hpos : 0 < hashes.count d.1 := List.count_pos_iff.mpr hmem
          rw [List.count_erase_self]
          omega
        rw [hcount, List.filter_cons_of_pos (by simp), List.take_succ_cons, List.filter_append,
          List.filter_cons_of_pos (by simp), List.filter_nil, List.append_assoc]
        rfl
      · rw [List.filter_cons_of_neg (by simpa using hid), List.filter_append,
          List.filter_cons_of_neg (by simpa using hid), List.filter_nil, List.append_nil,
          List.count_erase_of_ne (Ne.symm hid)]

theorem selected_eq (bc : List Block) (delays : List (Bytes × Int × Int)) (id : Bytes) :
    (selectValidConfirmationDelays bc delays).filter (fun d => d.1 = id)
      = (delays.filter fun d => d.1 = id).take ((bc.map Block.hash).count id) :=
  foldl_selectDelay id delays _ _

/-- What stands at one place only. -/
theorem count_eq_of_place {α : Type} [BEq α] [LawfulBEq α] {l : List α} {x : α} {k : Nat}
    [Decidable (l[k]? = some x)] (h : ∀ j : Nat, l[j]? = some x → j = k) :
    l.count x = if l[k]? = some x then 1 else 0 := by
  have hle : l.count x < 2 := by
    by_contra hge
    have htwice : List.Duplicate x l :=
      List.duplicate_iff_sublist.mpr (List.replicate_sublist_iff.mpr (not_lt.mp hge))
    obtain ⟨m, n, hlt, hm, hn⟩ := List.duplicate_iff_exists_distinct_get.mp htwice
    have hplace {p : Fin l.length} (hp : x = l.get p) : p.val = k :=
      h p (List.getElem?_eq_some_iff.mpr ⟨p.isLt, hp.symm⟩)
    have hval : m.val < n.val := hlt
    rw [hplace hm, hplace hn] at hval
    exact absurd hval (lt_irrefl _)
  split
  · next hk =>
    have hpos : 0 < l.count x := List.count_pos_iff.mpr (List.mem_of_getElem? hk)
    omega
  · next hk =>
    refine List.count_eq_zero.mpr fun hmem => hk ?_
    obtain ⟨j, hj⟩ := List.mem_iff_getElem?.mp hmem
    rwa [← h j hj]

theorem plotBc_eq_of_place {id : Bytes} {k : Nat} (bc : List Block)
    (h : ∀ j : Nat, (bc.map Block.hash)[j]? = some id → j = k) :
    plotBc bc id = (bc.length, if (bc.map Block.hash)[k]? = some id then k + 1 else 0) := by
  induction bc using List.reverseRecOn with
  | nil => rfl
  | append_singleton bc b ih =>
      rw [List.map_append, List.map_singleton] at h ⊢
      have hprefix : ∀ j : Nat, (bc.map Block.hash)[j]? = some id → j = k := by
        intro j hj
        refine h j ?_
        rw [List.getElem?_append_left (List.getElem?_eq_some_iff.mp hj).1, hj]
      have hcounts := ih hprefix
      rw [plotBc] at hcounts ⊢
      rw [List.foldl_concat, hcounts, List.length_append, List.length_singleton]
      by_cases hb : b.hash = id
      · -- the place of the last block
        have hlast : (bc.map Block.hash ++ [b.hash])[bc.length]? = some id := by
          rw [List.getElem?_append_right (by simp), List.length_map, Nat.sub_self, hb]
          rfl
        obtain rfl : bc.length = k := h _ hlast
        rw [if_pos hb, if_pos hlast]
      · have hsame : (bc.map Block.hash ++ [b.hash])[k]? = some id
            ↔ (bc.map Block.hash)[k]? = some id := by
          rw [List.getElem?_append]
          split
          · rfl
          · next hk =>
            rw [List.getElem?_eq_none (l := bc.map Block.hash) (by omega)]
            refine iff_of_false (fun hsome => hb ?_) (by simp)
            exact List.mem_singleton.mp (List.mem_of_getElem? hsome) |>.symm
        rw [if_neg hb]
        simp only [hsame]

/-! ## What is read back -/

section Store

variable {env : Env K} {s s' : BlockChain} {c : Chain (rules env)} {bs : List Block}

theorem mapM_composeBlock {rows : List Row} : ∀ {blocks bs : List Block},
    List.Forall₂ Stores rows blocks → rows.mapM composeBlock s = .ok bs s' →
      List.Forall₂ (fun b b' => b.reloaded = .ok b') blocks bs := by
  induction rows with
  | nil =>
      intro blocks bs hrows hrun
      cases hrows
      obtain rfl : [] = bs := (EStateM.Result.ok.inj hrun).1
      exact .nil
  | cons r rows ih =>
      intro blocks bs hrows hrun
      cases hrows with
      | @cons _ b _ blocks hst hrest =>
          rw [List.mapM_cons] at hrun
          obtain ⟨b', s₁, hfirst, hrun⟩ := bind_eq_ok hrun
          rw [run_composeBlock hst] at hfirst
          obtain ⟨hre, rfl⟩ := eval_eq_ok hfirst
          obtain ⟨bs', s₂, hmap, hrun⟩ := bind_eq_ok hrun
          obtain ⟨rfl, rfl⟩ := EStateM.Result.ok.inj hrun
          exact .cons hre (ih hrest hmap)

/-- The blocks of the chain, each as it comes back from its row. -/
theorem dumpedBlocks_reloaded (h : Represents env s c) (hdump : returned dumpedBlocks s = some bs) :
    List.Forall₂ (fun b b' => b.reloaded = .ok b') c.blocks bs := by
  have hrun := ok_of_returned hdump
  rw [dumpedBlocks, bind_ok h.run_numberOfBlocks, lastNBlocks, bind_ok (run_selectWhere ..),
    List.filter_true, ← List.drop_zero (l := s.localChains), h.orderByAsc_drop] at hrun
  rw [List.drop_zero, List.take_of_length_le (by rw [h.length]; omega)] at hrun
  refine mapM_composeBlock ?_ hrun
  have hrows : List.Forall₂ (· = ·) (s.localChains.map Row.static) (c.blocks.map rowOf) := by
    rw [List.forall₂_eq_eq_eq]
    exact h.rows
  rwa [List.forall₂_map_left_iff, List.forall₂_map_right_iff] at hrows

theorem Stores.merkleRoot_eq_nil {r : Row} {b : Block} (h : Stores r b) :
    r.merkleRoot = [] ↔ b.transactionHash = [] := by
  have hroot : r.merkleRoot = hex b.transactionHash := congrArg Row.merkleRoot h
  have hempty : hex [] = [] := rfl
  rw [hroot, ← hempty, hex_inj]

end Store

namespace Deployment

variable {D : Deployment ι K} {S : System ι} {i : ι} {b b' y : Block} {bs : List Block}

/-- The blocks that are read back, in a table or from one. -/
def Read (D : Deployment ι K) (S : System ι) (b : Block) : Prop :=
  D.Original S b ∨ genesisBlock.reloaded = .ok b

theorem Original.reloaded (h : D.Original S b) (hre : b.reloaded = .ok b') : D.Original S b' := by
  obtain ⟨i, hmade, m, hm, rfl | hcopy⟩ := h
  · exact ⟨i, hmade.reloaded hre, b, hm, .inr hre⟩
  · rw [reloaded_reloaded hcopy] at hre
    cases hre
    exact ⟨i, hmade, m, hm, .inr hcopy⟩

section Chains

variable {env : Env K} {c : Chain (rules env)} (hc : Chain.Holds (D.Original S) c)
include hc

/-- What is read back of a chain is sealed. -/
theorem reloaded_sealed {j : Nat} (hb : c.blocks[j]? = some b) (hre : b.reloaded = .ok b') :
    b'.Sealed ∧ D.Read S b' ∧ (b'.parentHash.length = 1 ∨ b'.parentHash.length = 32) := by
  have hparent : b'.parentHash = b.parentHash := by
    obtain ⟨_, _, -, -, rfl⟩ := Block.update_eq_ok hre
    rfl
  refine ⟨⟨Block.Bound.of_update hre, .inl (transactionHash_reloaded hre)⟩, ?_, ?_⟩
  · cases j with
    | zero =>
        obtain rfl := Option.some.inj (hb.symm.trans c.getElem?_zero)
        exact .inr hre
    | succ j => exact .inl ((hc.at_succ hb).reloaded hre)
  · rw [hparent]
    cases j with
    | zero =>
        obtain rfl := Option.some.inj (hb.symm.trans c.getElem?_zero)
        exact .inl rfl
    | succ j =>
        obtain ⟨_, hmade, -⟩ := hc.at_succ hb
        exact hmade.parentHash_length

variable (hcol : NoCollision (D.Read S))
include hcol

/-- A block that is read back has the hash of a stored one only if it is
this one. -/
theorem reloaded_hash {j k : Nat} (hb : c.blocks[j]? = some b) (hre : b.reloaded = .ok b')
    (hy : c.blocks[k]? = some y) (hhash : b'.hash = y.hash) : j = k ∧ y.transactionHash = [] := by
  obtain ⟨hsealed, hread, hlength⟩ := reloaded_sealed hc hb hre
  cases k with
  | zero =>
      -- the hash of the genesis block is no digest
      obtain rfl := Option.some.inj (hy.symm.trans c.getElem?_zero)
      have hdigest := hsealed.hash_length
      rw [hhash] at hdigest
      cases hdigest
  | succ k =>
      have horiginal : D.Original S y := hc.at_succ hy
      obtain ⟨i, hmade, -⟩ := id horiginal
      have hfree : CollisionFree [b', y] := hcol.collisionFree fun x hx => by
        rcases List.mem_pair.mp hx with rfl | rfl
        · exact hread
        · exact .inl horiginal
      obtain ⟨hproofs, hparents, htransactions⟩ := hash_parts_eq hfree
        (fun x hx => by
          rcases List.mem_pair.mp hx with rfl | rfl
          · exact hsealed
          · exact hmade.isSealed) (by simp) (by simp) hlength hmade.parentHash_length hhash
      refine ⟨?_, htransactions.symm.trans (transactionHash_reloaded hre)⟩
      have hcopied : b'.ownerPubkey = b.ownerPubkey ∧ b'.parentHash = b.parentHash := by
        obtain ⟨_, _, -, -, rfl⟩ := Block.update_eq_ok hre
        exact ⟨rfl, rfl⟩
      cases j with
      | zero =>
          -- the owner of the genesis block is no key
          obtain rfl := Option.some.inj (hb.symm.trans c.getElem?_zero)
          have hsame :=
            (proofHash_eq_iff hsealed.bound hmade.isSealed.bound hfree hparents).mp hproofs
          rw [Separated] at hsame
          push Not at hsame
          have hkey := hmade.valid.key_length
          rw [← hsame.1, hcopied.1] at hkey
          cases hkey
      | succ j =>
          have hk := (List.getElem?_eq_some_iff.mp hy).1
          have hj := (List.getElem?_eq_some_iff.mp hb).1
          have hp := List.getElem?_eq_getElem (l := c.blocks) (i := j) (by omega)
          have hq := List.getElem?_eq_getElem (l := c.blocks) (i := k) (by omega)
          have hident : c.blocks[j].hash = c.blocks[k].hash := by
            rw [← (follows_at hp hb).parent, ← (follows_at hq hy).parent, ← hparents, hcopied.2]
          rw [c.index_unique hp hq hident]

/-- The place of a stored hash among those read back. -/
theorem reloaded_place (hbs : List.Forall₂ (fun b b' => b.reloaded = .ok b') c.blocks bs)
    {k : Nat} (hy : c.blocks[k]? = some y) :
    (∀ j : Nat, (bs.map Block.hash)[j]? = some y.hash → j = k) ∧
      ((bs.map Block.hash)[k]? = some y.hash ↔ y.transactionHash = []) := by
  obtain ⟨hlength, hget⟩ := List.forall₂_iff_get.mp hbs
  have hat {j : Nat} (hj : (bs.map Block.hash)[j]? = some y.hash) :
      j = k ∧ y.transactionHash = [] := by
    rw [List.getElem?_map, Option.map_eq_some_iff] at hj
    obtain ⟨b', hb', hhash⟩ := hj
    obtain ⟨hlt, rfl⟩ := List.getElem?_eq_some_iff.mp hb'
    have hb := List.getElem?_eq_getElem (l := c.blocks) (i := j) (by omega)
    exact reloaded_hash hc hcol hb (hget j _ hlt) hy hhash
  refine ⟨fun j hj => (hat hj).1, fun hk => (hat hk).2, fun hplain => ?_⟩
  cases k with
  | zero =>
      obtain rfl := Option.some.inj (hy.symm.trans c.getElem?_zero)
      cases hplain
  | succ k =>
      obtain ⟨_, hmade, -⟩ := hc.at_succ hy
      obtain ⟨hlt, rfl⟩ := List.getElem?_eq_some_iff.mp hy
      have hre := hget (k + 1) hlt (by omega)
      have hsame := reloaded_of_plain hmade.isSealed.bound hplain
      rw [List.getElem?_map, List.getElem?_eq_getElem (by omega), Option.map_some]
      exact congrArg (fun b => some b.hash) (Except.ok.inj (hre.symm.trans hsame))

end Chains

section MidTurn

variable {n : Node} (h : D.Reachable S) (hn : D.MidTurn S i n) (hcol : NoCollision (D.Read S))
  (hdump : returned dumpedBlocks n.bc = some bs)
include h hn hcol hdump

/-- The place of a row's id among the hashes of the dump. -/
theorem dumped_place {k : Nat} {r : Row} {id : Bytes} (hr : n.bc.localChains[k]? = some r)
    (hid : r.id = hex id) :
    (∀ j : Nat, (bs.map Block.hash)[j]? = some id → j = k) ∧
      ((bs.map Block.hash)[k]? = some id ↔ r.merkleRoot = []) := by
  obtain ⟨c, hc, hblocks⟩ := hn.chain h
  obtain ⟨y, hy, hst⟩ := hc.block_at hr
  obtain rfl : y.hash = id := hex_inj.mp (hst.id.symm.trans hid)
  obtain ⟨hplace, hplain⟩ := reloaded_place hblocks hcol (dumpedBlocks_reloaded hc hdump) hy
  exact ⟨hplace, hplain.trans hst.merkleRoot_eq_nil.symm⟩

/-- Of the delays with the id of a row, the first is kept if the row's
block has no transactions, and none if it has. -/
theorem selected {k : Nat} {r : Row} {id : Bytes} (hr : n.bc.localChains[k]? = some r)
    (hid : r.id = hex id) (delays : List (Bytes × Int × Int)) :
    (selectValidConfirmationDelays bs delays).filter (fun d => d.1 = id)
      = if r.merkleRoot = [] then (delays.filter fun d => d.1 = id).take 1 else [] := by
  obtain ⟨hplace, hplain⟩ := dumped_place h hn hcol hdump hr hid
  rw [selected_eq, count_eq_of_place hplace]
  simp only [hplain]
  split
  · rfl
  · exact List.take_zero

/-- **Delays of the dump.** In every turn of a node of a reachable system,
if the clocks do not go back, the table can be read back and no two
strings that are hashed for the blocks collide: of the delays noted under
the id of a confirmed row but the genesis row, the statistics keep one,
which is a note of the row's block, if this block has the empty transaction
hash, and none if it has not. -/
theorem statistics (hclock : ∀ i, ClockRises (D.member i).toEnv) {r : Row}
    (hr : r ∈ n.bc.localChains) (hone : r.confirmed = 1) (hindex : r.blockIndex ≠ 0) :
    ∃ b, Stores r b ∧
      if b.transactionHash = [] then
        ∃ note, (selectValidConfirmationDelays bs n.bc.confirmationDelays).filter
            (fun d => d.1 = b.hash) = [note] ∧ NoteOf b n.bc.currentRound note
      else (selectValidConfirmationDelays bs n.bc.confirmationDelays).filter
        (fun d => d.1 = b.hash) = [] := by
  have hnoting := hn.noting hclock h
  obtain ⟨b, horiginal, hst, note, hnote, hof⟩ := hnoting.complete r hr hone hindex
  refine ⟨b, hst, ?_⟩
  obtain ⟨k, hk⟩ := List.mem_iff_getElem?.mp hr
  rw [selected h hn hcol hdump hk hst.id]
  simp only [hst.merkleRoot_eq_nil]
  split
  swap
  · rfl
  -- the first delay with the id is a note of an original block with this hash
  cases hfilter : n.bc.confirmationDelays.filter fun d => d.1 = b.hash with
  | nil =>
      have hnone := List.filter_eq_nil_iff.mp hfilter note hnote
      exact absurd (decide_eq_true hof.id) hnone
  | cons first rest =>
      refine ⟨first, rfl, ?_⟩
      have hmem : first ∈ n.bc.confirmationDelays.filter fun d => d.1 = b.hash := by
        rw [hfilter]
        exact List.mem_cons_self
      obtain ⟨hfirst, hid⟩ := List.mem_filter.mp hmem
      obtain ⟨b', hb', hof'⟩ := hnoting.sound first hfirst
      have hhash : b'.hash = b.hash := hof'.id.symm.trans (by simpa using hid)
      have hcol' : NoCollision (D.Original S) := by
        refine Set.InjOn.mono ?_ hcol
        rintro x ⟨y, hy, hx⟩
        exact ⟨y, .inl hy, hx⟩
      rwa [hb'.eq_of_hash hclock h hcol' horiginal hhash] at hof'

/-- **Confirmed blocks of the dump.** Whatever the clocks do, the number of
confirmed blocks is the length of the chain up to the last confirmed row
if this row holds the empty transaction hash, and zero if it does not. -/
theorem confirmed_counted {index round : Int} {id : Bytes}
    (hinfo : returned lastConfirmedBlockInfo n.bc = some (index, id, round)) :
    ∃ r ∈ n.bc.localChains, r.blockIndex = index ∧ r.id = hex id ∧ r.confirmed = 1 ∧
      plotBc bs id = (bs.length, if r.merkleRoot = [] then (index + 1).toNat else 0) := by
  obtain ⟨c, hc, -⟩ := hn.chain h
  have hrun := ok_of_returned hinfo
  cases hlast : (n.bc.localChains.filter fun r => r.confirmed = 1).getLast? with
  | none =>
      rw [lastConfirmedBlockInfo, bind_ok (run_selectWhere ..), List.getLast?_eq_none_iff.mp hlast]
        at hrun
      cases hrun
  | some r =>
      obtain ⟨id', hid, hrow⟩ := run_lastConfirmedBlockInfo hc rfl hlast
      obtain ⟨rfl, rfl, rfl⟩ : index = r.blockIndex ∧ id = id' ∧ round = r.round := by
        simpa using (EStateM.Result.ok.inj (hrun.symm.trans hrow)).1
      obtain ⟨hmem, hone⟩ := List.mem_filter.mp (List.mem_of_getLast? hlast)
      refine ⟨r, hmem, rfl, hid, by simpa using hone, ?_⟩
      obtain ⟨k, hk⟩ := List.mem_iff_getElem?.mp hmem
      obtain ⟨hplace, hplain⟩ := dumped_place h hn hcol hdump hk hid
      have hindex : (r.blockIndex + 1).toNat = k + 1 := by
        rw [hc.indexed k r hk]
        omega
      rw [plotBc_eq_of_place bs hplace, hindex]
      simp only [hplain]

end MidTurn

end Deployment

theorem late_noCollision : NoCollision (late.Read lateSystem) := by
  have hmade : ∀ m ∈ (lateSystem.party .first).made, m.Bound := fun m hm =>
    ((lateSystem_reachable.authored.parties .first).2 m hm).isSealed.bound
  have hbound : ∀ m ∈ genesisBlock.reloaded.toOption.toList ++ (lateSystem.party .first).made,
      m.Bound := by
    intro m hm
    rcases List.mem_append.mp hm with hm | hm
    · cases hre : genesisBlock.reloaded with
      | ok b =>
          rw [hre] at hm
          obtain rfl := List.mem_singleton.mp hm
          exact Block.Bound.of_update hre
      | error e =>
          rw [hre] at hm
          cases hm
    · exact hmade m hm
  refine Set.InjOn.mono ?_ (collisionFree_of_nodup hbound lateSystem_run.2.hashes)
  rintro x ⟨b, hb, hx⟩
  refine List.mem_flatMap.mpr ⟨b, List.mem_append.mpr ?_, hx⟩
  rcases hb with horiginal | hre
  · exact .inr (mem_made_of_original lateSystem_reachable lateSystem_run.2.plain
      lateSystem_run.2.made_second horiginal)
  · rw [hre]
    exact .inl (List.mem_singleton_self b)

/-- The second node in its turn, and the row that it has confirmed. -/
theorem late_row : ∃ n r, lateTurn lateSystem = some n ∧ n.bc.localChains[1]? = some r ∧
    r.confirmed = 1 ∧ r.blockIndex = 1 ∧ r.merkleRoot = [] := by
  obtain ⟨n, hn, hrows⟩ := Option.map_eq_some_iff.mp lateSystem_run.2.rows
  have hrow : (n.bc.localChains.map fun r => (r.confirmed, r.blockIndex, r.merkleRoot))[1]?
      = some (1, 1, []) := by
    rw [hrows]
    rfl
  rw [List.getElem?_map, Option.map_eq_some_iff] at hrow
  obtain ⟨r, hr, hcolumns⟩ := hrow
  obtain ⟨hone, hindex, hroot⟩ : r.confirmed = 1 ∧ r.blockIndex = 1 ∧ r.merkleRoot = [] := by
    simpa using hcolumns
  exact ⟨n, r, hn, hr, hone, hindex, hroot⟩

/-- The delay that is kept. -/
theorem late_statistics : ∃ n bs b note, lateTurn lateSystem = some n ∧
    returned dumpedBlocks n.bc = some bs ∧
      (selectValidConfirmationDelays bs n.bc.confirmationDelays).filter
        (fun d => d.1 = b.hash) = [note] ∧ NoteOf b n.bc.currentRound note := by
  obtain ⟨n, r, hn, hr, hone, hindex, hroot⟩ := late_row
  obtain ⟨bs, hbs⟩ := Option.isSome_iff_exists.mp lateSystem_run.2.dumped
  rw [hn, Option.bind_some] at hbs
  obtain ⟨b, hst, hkept⟩ := Deployment.statistics lateSystem_reachable (midTurn_lateTurn hn)
    late_noCollision hbs late_clockRises (List.mem_of_getElem? hr) hone (by rw [hindex]; decide)
  rw [if_pos (hst.merkleRoot_eq_nil.mp hroot)] at hkept
  obtain ⟨note, hnote, hof⟩ := hkept
  exact ⟨n, bs, b, note, hn, hbs, hnote, hof⟩

/-- Two blocks count as confirmed: the genesis block and the one above. -/
theorem late_confirmed_counted : ∃ n bs id round, lateTurn lateSystem = some n ∧
    returned dumpedBlocks n.bc = some bs ∧
      returned lastConfirmedBlockInfo n.bc = some (1, id, round) ∧
        plotBc bs id = (bs.length, 2) := by
  obtain ⟨n, r, hn, hr, -, -, hroot⟩ := late_row
  obtain ⟨bs, hbs⟩ := Option.isSome_iff_exists.mp lateSystem_run.2.dumped
  obtain ⟨⟨index, id, round⟩, hinfo, hlast⟩ := Option.map_eq_some_iff.mp lateSystem_run.2.last
  obtain rfl : index = 1 := hlast
  rw [hn, Option.bind_some] at hbs hinfo
  have hmid := midTurn_lateTurn hn
  obtain ⟨r', hr', hindex', -, -, hplot⟩ :=
    Deployment.confirmed_counted lateSystem_reachable hmid late_noCollision hbs hinfo
  obtain ⟨c, hc, -⟩ := hmid.chain lateSystem_reachable
  obtain ⟨k, hk⟩ := List.mem_iff_getElem?.mp hr'
  obtain rfl : k = 1 := by
    have hplace := hc.indexed k r' hk
    omega
  obtain rfl : r' = r := Option.some.inj (hk.symm.trans hr)
  rw [if_pos hroot] at hplot
  exact ⟨n, bs, id, round, hn, hbs, hinfo, hplot⟩

end Cpos
