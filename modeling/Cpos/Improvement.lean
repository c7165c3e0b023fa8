import Cpos.ChainOrder
import Cpos.Rejections

/-!
# Insertions only improve the chain

The chain, as the sequence of its blocks' hashes and proof hashes, is
better than another if it extends it, or has the smaller proof hash where
the two first differ. Whatever `insert` replaces, it replaces by something
better, so over a run of insertions a chain that has been left does not
come back.

There is one way down: a block that is to be stored, can be printed and
has a value outside its column's range. The rows from its index on are deleted and the
deletion is committed before the server refuses the new row, and a proper
prefix is left. **A run of insertions only improves the chain** exactly if
it hands over no such block where something is to be deleted
(`insert_only_improves`). A block that cannot be printed makes the call
raise before the deletion.
-/

namespace Cpos

open Python ByteString LinkedChain BlockChain

variable {K : Type} [PyNum K] {env : Env K} {s : BlockChain} {c : Chain (rules env)} {b : Block}

/-! ## The sequence of hashes -/

def BlockChain.pairs (s : BlockChain) : List (Bytes × Bytes) :=
  s.localChains.map fun r => ((fromhex r.hash).getD [], (fromhex r.proofHash).getD [])

theorem Represents.pairs (h : Represents env s c) :
    s.pairs = c.blocks.map fun b => (b.hash, b.proofHash) := by
  have hrow (r : Row) : ((fromhex r.hash).getD [], (fromhex r.proofHash).getD [])
      = ((fromhex r.static.hash).getD [], (fromhex r.static.proofHash).getD []) := rfl
  have hblock (b : Block) :
      ((fromhex (rowOf b).hash).getD [], (fromhex (rowOf b).proofHash).getD [])
        = (b.hash, b.proofHash) := by
    show ((fromhex (hex b.hash)).getD [], (fromhex (hex b.proofHash)).getD []) = _
    rw [fromhex_hex, fromhex_hex]
    rfl
  have hmap := congrArg
    (List.map fun r : Row => ((fromhex r.hash).getD [], (fromhex r.proofHash).getD [])) h.rows
  rw [List.map_map, List.map_map] at hmap
  rw [BlockChain.pairs]
  refine Eq.trans (List.map_congr_left fun r _ => hrow r) (hmap.trans ?_)
  exact List.map_congr_left fun b _ => hblock b

/-- The same, or better: an extension, or with the smaller proof hash
where the two first differ. -/
def NoWorse (l l' : List (Bytes × Bytes)) : Prop := l' = l ∨ Improves Prod.snd l l'

/-! ## One insertion -/

/-- `b` is to be stored in the place of the row at its index, can be
printed, and has a value outside its column's range. -/
def Destroys (env : Env K) (rows : List Row) (b : Block) : Prop :=
  ∃ parent w, PassesChecks env rows b parent w ∧ parent.round < b.round ∧ b.Printable ∧
    ¬b.Storable ∧ ∃ r ∈ rows, r.blockIndex = b.index ∧ ∃ q, r.proofHash = hex q ∧ b.proofHash < q

theorem Counted.destroys (h : Represents env s c) {p : Block} {w : Int} (hc : Counted env c b p w)
    (hb : Beats c b) (hround : p.round < b.round) (hprints : b.Printable)
    (hfits : ¬b.Storable) :
    Destroys env s.localChains b ↔ b.index.toNat < c.blocks.length := by
  constructor
  · rintro ⟨-, -, -, -, -, -, r, hr, hindex, -⟩
    obtain ⟨i, hi⟩ := List.mem_iff_getElem?.mp hr
    have hlt := (List.getElem?_eq_some_iff.mp hi).1
    rw [h.length] at hlt
    have := h.indexed i r hi
    omega
  · intro hlt
    obtain ⟨parent, hp, hst⟩ := hc.passesChecks h
    have hq := List.getElem?_eq_getElem hlt
    obtain ⟨r, hr, hst'⟩ := h.row_at hq
    have hpos := hc.pos
    refine ⟨parent, w, hp, by rw [hst.round]; exact hround, hprints, hfits, r,
      List.mem_of_getElem? hr, ?_, _, hst'.proofHash, hb _ hq⟩
    rw [hst'.blockIndex, index_at hq]
    omega

/-- A block that destroys is counted, beats what is at its index, can be
printed, and does not fit. -/
theorem Destroys.counted (h : Represents env s c) (hd : Destroys env s.localChains b) :
    ∃ p w, Counted env c b p w ∧ Beats c b ∧ p.round < b.round ∧ b.Printable ∧ ¬b.Storable := by
  obtain ⟨parent, w, hp, hround, hprints, hfits, r, hr, hindex, q, hproof, hlt⟩ := hd
  obtain ⟨p, hc, hst⟩ := hp.counted h
  refine ⟨p, w, hc, fun q' hq' => ?_, by rw [← hst.round]; exact hround, hprints, hfits⟩
  obtain ⟨i, hi⟩ := List.mem_iff_getElem?.mp hr
  have hindexed := h.indexed i r hi
  have hi' : b.index.toNat = i := by omega
  rw [hi'] at hq'
  have hsame := hex_inj.mp ((h.stores hi hq').proofHash.symm.trans hproof)
  rwa [hsame]

/-- Where every block that is to be stored and can be printed fits,
nothing is destroyed. -/
theorem not_destroys (h : Represents env s c)
    (hfits : ∀ p w, Counted env c b p w → Beats c b → p.round < b.round → b.Printable →
      b.Storable) : ¬Destroys env s.localChains b := by
  intro hd
  obtain ⟨p, w, hc, hb, hround, hprints, hno⟩ := hd.counted h
  exact hno (hfits p w hc hb hround hprints)

theorem noWorse_of_represents {s' : BlockChain} (h : Represents env s c)
    (h' : Represents env s' c) : NoWorse s.pairs s'.pairs :=
  .inl (by rw [h.pairs, h'.pairs])

theorem noWorse_of_graft {s' : BlockChain} (h : Represents env s c) (hacc : c.Accepts b)
    (h' : Represents env s' (c.graft b hacc.1)) : NoWorse s.pairs s'.pairs := by
  refine .inr ?_
  rw [h.pairs, h'.pairs]
  exact (graft_improves hacc).map fun _ => rfl

/-- A cut leaves something no worse exactly if it cuts nothing off. -/
theorem noWorse_cut_iff {s' : BlockChain} {n : Nat} (hn : 0 < n) (h : Represents env s c)
    (h' : Represents env s' (c.cut n hn)) : NoWorse s.pairs s'.pairs ↔ ¬n < c.blocks.length := by
  rw [h.pairs, h'.pairs, Chain.blocks_cut, List.map_take]
  constructor
  · intro hle hlt
    have hworse : Improves Prod.snd ((c.blocks.map fun b => (b.hash, b.proofHash)).take n)
        (c.blocks.map fun b => (b.hash, b.proofHash)) :=
      improves_take (by rwa [List.length_map])
    rcases hle with heq | hbetter
    · rw [heq] at hworse
      exact improves_irrefl _ _ hworse
    · exact improves_irrefl _ _ (hbetter.trans hworse)
  · intro hge
    exact .inl (List.take_of_length_le (by rw [List.length_map]; omega))

/-- The step lemma. -/
theorem insert_noWorse_iff (h : Represents env s c) (b : Block) :
    NoWorse s.pairs (after (insert env b) s).pairs ↔ ¬Destroys env s.localChains b := by
  have hspec := insert_spec h b
  unfold after
  generalize insert env b s = r at hspec ⊢
  cases hspec with
  | rejected hno =>
      exact iff_of_true (.inl rfl)
        (not_destroys h fun p w hc => absurd hc (hno.not_counted p w))
  | noRow _ hneg =>
      refine iff_of_true (.inl rfl) (not_destroys h fun p w hc => ?_)
      have := hc.pos
      omega
  | raised _ _ _ he =>
      refine iff_of_true (.inl rfl) (not_destroys h fun p w hc => ?_)
      cases he.symm.trans hc.valid
  | beaten p q w _ hq hle =>
      exact iff_of_true (noWorse_of_represents h (h.counted ..))
        (not_destroys h fun _ _ _ hb => absurd (hb q hq) (not_lt_of_ge hle))
  | sameRound p w hc _ hround =>
      refine iff_of_true (noWorse_of_represents h (h.counted ..))
        (not_destroys h fun p' _ hc' _ hlt _ => ?_)
      obtain rfl := Option.some.inj (hc.parentAt.symm.trans hc'.parentAt)
      omega
  | unprinted p w _ _ _ hno =>
      exact iff_of_true (noWorse_of_represents h (h.counted ..))
        (not_destroys h fun _ _ _ _ _ hprints => absurd hprints hno)
  | stored p w hc hb hround hfits =>
      exact iff_of_true
        (noWorse_of_graft h (hc.accepts hb hround hfits) ((h.counted ..).stored _))
        (not_destroys h fun _ _ _ _ _ _ => hfits)
  | unfit p w hc hb hround hprints hfits =>
      have hpos : 0 < b.index.toNat := by
        have := hc.pos
        omega
      rw [noWorse_cut_iff hpos h ((h.counted ..).ticked.cutTo hpos),
        hc.destroys h hb hround hprints hfits]

/-! ## Runs of insertions -/

/-- The state after the first `n` insertions. -/
def inserted (env : Env K) (s : BlockChain) (bs : List Block) (n : Nat) : BlockChain :=
  run env s ((bs.take n).map Op.insert)

theorem inserted_succ (bs : List Block) {n : Nat} (hn : n < bs.length) :
    inserted env s bs (n + 1) = after (insert env bs[n]) (inserted env s bs n) := by
  rw [inserted, List.take_add_one, List.getElem?_eq_getElem hn, List.map_append, run_append]
  exact step_insert ..

/-- **Insertions only improve the chain.** From the genesis block alone,
each insertion of a run leaves the chain or improves it exactly if none
destroys; and then no chain that has been left comes back. -/
theorem insert_only_improves (hs : s.localChains = [genesisRow]) (bs : List Block) :
    ((∀ n (hn : n < bs.length),
        NoWorse (inserted env s bs n).pairs (inserted env s bs (n + 1)).pairs) ↔
      ∀ n (hn : n < bs.length), ¬Destroys env (inserted env s bs n).localChains bs[n]) ∧
    ((∀ n (hn : n < bs.length), ¬Destroys env (inserted env s bs n).localChains bs[n]) →
      ∀ i j k, i ≤ j → j ≤ k → k ≤ bs.length →
        (inserted env s bs k).pairs = (inserted env s bs i).pairs →
        (inserted env s bs j).pairs = (inserted env s bs i).pairs) := by
  have hstep (n : Nat) (hn : n < bs.length) :
      NoWorse (inserted env s bs n).pairs (inserted env s bs (n + 1)).pairs ↔
        ¬Destroys env (inserted env s bs n).localChains bs[n] := by
    have hgenesis : Represents env s (genesisChain env) := represents_genesis hs
    obtain ⟨c, hc, -⟩ := run_represents ((bs.take n).map Op.insert) hgenesis
    rw [inserted_succ bs hn]
    exact insert_noWorse_iff hc bs[n]
  refine ⟨forall₂_congr hstep, fun hfits i j k hij hjk hk heq => ?_⟩
  exact eq_of_returned (f := fun n => (inserted env s bs n).pairs)
    (fun n hn => (hstep n hn).mpr (hfits n hn)) hij hjk hk heq

/-- A block better than `a1`, and one worse. -/
theorem insert_only_improves_sample :
    ((∀ n (hn : n < [a1, b1, a2].length),
        NoWorse (inserted sampleEnv .init [a1, b1, a2] n).pairs
          (inserted sampleEnv .init [a1, b1, a2] (n + 1)).pairs) ↔
      ∀ n (hn : n < [a1, b1, a2].length),
        ¬Destroys sampleEnv (inserted sampleEnv .init [a1, b1, a2] n).localChains
          [a1, b1, a2][n]) ∧
    ((∀ n (hn : n < [a1, b1, a2].length),
        ¬Destroys sampleEnv (inserted sampleEnv .init [a1, b1, a2] n).localChains
          [a1, b1, a2][n]) →
      ∀ i j k, i ≤ j → j ≤ k → k ≤ [a1, b1, a2].length →
        (inserted sampleEnv .init [a1, b1, a2] k).pairs
          = (inserted sampleEnv .init [a1, b1, a2] i).pairs →
        (inserted sampleEnv .init [a1, b1, a2] j).pairs
          = (inserted sampleEnv .init [a1, b1, a2] i).pairs) :=
  insert_only_improves rfl [a1, b1, a2]

/-- `aFar` takes `a1` away and does not come in its place: the chain is
the genesis block again, and then `a1` again. -/
theorem chain_returned_to :
    (inserted sampleEnv .init [a1, aFar, a1] 2).pairs
        = (inserted sampleEnv .init [a1, aFar, a1] 0).pairs ∧
      (inserted sampleEnv .init [a1, aFar, a1] 3).pairs
        = (inserted sampleEnv .init [a1, aFar, a1] 1).pairs ∧
      (inserted sampleEnv .init [a1, aFar, a1] 1).pairs
        ≠ (inserted sampleEnv .init [a1, aFar, a1] 2).pairs ∧
      ¬NoWorse (inserted sampleEnv .init [a1, aFar, a1] 1).pairs
        (inserted sampleEnv .init [a1, aFar, a1] 2).pairs := by
  unfold NoWorse Improves
  decide +kernel

end Cpos
