import Cpos.LocalChain

/-!
# What insert does

One inversion theorem for `insert` (`insert_spec`): on a table that
represents a chain, a call ends in one of eight ways, and in each the
result and the state it leaves are given outright. Everything later
about `insert` is read off these cases; no proof after this one unfolds
it.

`Counted` collects the checks in front of the count. They are passed by
the blocks whose tickets are added to their ancestors' rows, whether or
not the block is stored afterwards.

`insert_outcome` is the consequence for the chain: the block is grafted,
or nothing happens to the chain, or the call raises and leaves a prefix.
For a block that fits the columns the chain after the call is the one
obtained by offering the block (`insert_offer`).
-/

namespace Cpos

open Python ByteString LinkedChain BlockChain

variable {K : Type} [PyNum K] {env : Env K} {s : BlockChain} {c : Chain (rules env)} {b : Block}

/-- The checks before validation, passed with the parent `p`. -/
structure Candidate (c : Chain (rules env)) (b p : Block) : Prop where
  fresh : b.hash ∉ c.blocks.map Block.hash
  pos : 0 < b.index
  parentAt : c.blocks[b.index.toNat - 1]? = some p
  parent : p.hash = b.parentHash

/-- The checks before `update_successfull_sortition`, passed with the
parent `p` and `w` winning tickets. -/
structure Counted (env : Env K) (c : Chain (rules env)) (b p : Block) (w : Int) : Prop
    extends Candidate c b p where
  valid : validateBlock env b = .ok (some w)
  nonzero : w ≠ 0

/-- The block at `b`'s index, if there is one, has a larger proof hash. -/
def Beats (c : Chain (rules env)) (b : Block) : Prop :=
  ∀ q, c.blocks[b.index.toNat]? = some q → b.proofHash < q.proofHash

/-- The state after `b` is stored: its index and everything after it is
gone, and its row is at the end. -/
def BlockChain.stored (env : Env K) (s : BlockChain) (b : Block) : BlockChain :=
  (s.ticked.cutTo b.index.toNat).pushed (arrival env s b)

/-- `b` fails a check before the count, quietly: it is known, has no
parent where its index says, or validation grants no tickets. -/
inductive Refused (env : Env K) (c : Chain (rules env)) (b : Block) : Prop
  | known (h : b.hash ∈ c.blocks.map Block.hash)
  | misplaced (hnonneg : 0 ≤ b.index) (h : ∀ p, ¬Candidate c b p)
  | noTickets (hnonneg : 0 ≤ b.index) {r : Option Int} (hr : validateBlock env b = .ok r)
      (h : ∀ w, r = some w → w = 0)

inductive InsertSpec (env : Env K) (s : BlockChain) (c : Chain (rules env)) (b : Block) :
    EStateM.Result PyErr BlockChain Bool → Prop
  | rejected (h : Refused env c b) : InsertSpec env s c b (.ok false s)
  | noRow (hfresh : b.hash ∉ c.blocks.map Block.hash) (h : b.index < 0) :
      InsertSpec env s c b (.error b.missingParent s)
  | raised (p : Block) (e : PyErr) (hc : Candidate c b p) (h : validateBlock env b = .error e) :
      InsertSpec env s c b (.error e s)
  | beaten (p q : Block) (w : Int) (h : Counted env c b p w)
      (hq : c.blocks[b.index.toNat]? = some q) (hle : q.proofHash ≤ b.proofHash) :
      InsertSpec env s c b (.ok false (s.counted b.index w))
  | sameRound (p : Block) (w : Int) (h : Counted env c b p w) (hb : Beats c b)
      (hround : b.round ≤ p.round) : InsertSpec env s c b (.ok false (s.counted b.index w))
  | unprinted (p : Block) (w : Int) (h : Counted env c b p w) (hb : Beats c b)
      (hround : p.round < b.round) (hprints : ¬b.Printable) :
      InsertSpec env s c b (.error intTooLong (s.counted b.index w))
  | stored (p : Block) (w : Int) (h : Counted env c b p w) (hb : Beats c b)
      (hround : p.round < b.round) (hfits : b.Storable) :
      InsertSpec env s c b (.ok true ((s.counted b.index w).stored env b))
  | unfit (p : Block) (w : Int) (h : Counted env c b p w) (hb : Beats c b)
      (hround : p.round < b.round) (hprints : b.Printable) (hfits : ¬b.Storable) :
      InsertSpec env s c b
        (.error .dataError ((s.counted b.index w).ticked.cutTo b.index.toNat))

/-- The tickets are what the sortition grants. -/
theorem validateBlock_tickets {block : Block} {w : Int}
    (h : validateBlock env block = .ok (some w)) :
    ∃ p : K, runSortition block.signedNodeHash (lookupNodeStake block.ownerPubkey) p = .ok w := by
  unfold validateBlock validateBlockOfStake at h
  split at h
  · cases h
  split at h
  · cases h
  obtain ⟨p, -, h⟩ := except_bind_ok h
  obtain ⟨w', hw', h⟩ := except_bind_ok h
  split at h
  · cases h
  · obtain rfl := Option.some.inj (Except.ok.inj h)
    exact ⟨p, hw'⟩

theorem validateBlock_nonneg {block : Block} {w : Int}
    (h : validateBlock env block = .ok (some w)) : 0 ≤ w := by
  obtain ⟨p, hw⟩ := validateBlock_tickets h
  exact runSortition_nonneg hw

theorem Counted.nonneg {p : Block} {w : Int} (h : Counted env c b p w) : 0 ≤ w :=
  validateBlock_nonneg h.valid

theorem Refused.not_counted (h : Refused env c b) (p : Block) (w : Int) :
    ¬Counted env c b p w := by
  intro hc
  cases h with
  | known hmem => exact hc.fresh hmem
  | misplaced _ hno => exact hno p hc.toCandidate
  | noTickets _ hr hzero =>
      exact hc.nonzero (hzero w (Except.ok.inj (hr.symm.trans hc.valid)))

/-! ## The block after the count -/

theorem Candidate.index_le {p : Block} (h : Candidate c b p) :
    b.index.toNat ≤ c.blocks.length := by
  have := (List.getElem?_eq_some_iff.mp h.parentAt).1
  omega

theorem Candidate.index_eq {p : Block} (h : Candidate c b p) :
    b.index = p.index + 1 := by
  have := index_at h.parentAt
  have := h.pos
  omega

/-- `insert_block` after the suffix is deleted. -/
theorem run_replace (h : Represents env s c) {p : Block} {w : Int} (hc : Counted env c b p w) :
    (do deleteBlocksSince b.index; insertBlock b (← time env) 0; return true : Call Bool) s
      = if b.Storable then .ok true (s.stored env b)
        else .error .dataError (s.ticked.cutTo b.index.toNat) := by
  have hpos := hc.pos
  rw [bind_ok (h.run_deleteBlocksSince (by omega)), bind_ok (run_time ..)]
  show (insertRow (arrival env s b) >>= fun _ => pure true) (s.ticked.cutTo b.index.toNat) = _
  split
  · next hfits =>
    have hnew : ∀ r ∈ (s.ticked.cutTo b.index.toNat).localChains,
        r.id ≠ (arrival env s b).id := by
      intro r hr heq
      have hrs : r ∈ s.localChains := List.mem_of_mem_take hr
      refine hc.fresh ((h.exists_row_iff _).mp ⟨r, hrs, ?_⟩)
      rw [← h.id_eq_hash hrs, heq]
      rfl
    have hrow : (arrival env s b).fits = true := (fits_arrival env s b).mpr hfits
    rw [bind_ok (run_insertRow hrow hnew)]
    rfl
  · next hfits =>
    have hrow : (arrival env s b).fits = false :=
      Bool.eq_false_iff.mpr fun hrow => hfits ((fits_arrival env s b).mp hrow)
    rw [bind_error (run_insertRow_unfit hrow)]

theorem run_insertAtIndex (h : Represents env s c) {p : Block} {w : Int}
    (hc : Counted env c b p w) :
    insertAtIndex env b s =
      if b.round ≤ p.round then .ok false s
      else if ¬b.Printable then .error intTooLong s
      else if b.Storable then .ok true (s.stored env b)
      else .error .dataError (s.ticked.cutTo b.index.toNat) := by
  have hpos := hc.pos
  have hidx : b.index - 1 = ((b.index.toNat - 1 : Nat) : Int) := by omega
  rw [insertAtIndex, hidx, bind_ok (h.run_getRoundOfBlock hc.parentAt)]
  split
  · rfl
  show (eval b.str >>= _) s = _
  by_cases hprints : b.Printable
  · obtain ⟨text, htext⟩ := hprints.str_ok
    rw [htext, bind_ok (eval_ok _), if_neg (not_not_intro hprints)]
    exact run_replace h hc
  · rw [Block.str_error hprints, bind_error (eval_error _), if_pos hprints]

theorem run_insertCounted (h : Represents env s c) {p : Block} {w : Int}
    (hc : Counted env c b p w) :
    insertCounted env b s =
      match c.blocks[b.index.toNat]? with
      | some q => if q.proofHash ≤ b.proofHash then .ok false s else insertAtIndex env b s
      | none => insertAtIndex env b s := by
  have hpos := hc.pos
  rw [insertCounted, bind_ok h.run_numberOfBlocks]
  cases hq : c.blocks[b.index.toNat]? with
  | none =>
      have hge := List.getElem?_eq_none_iff.mp hq
      show (if _ then _ else _ : Call Bool) s = _
      rw [if_neg (by omega)]
  | some q =>
      have hlt := (List.getElem?_eq_some_iff.mp hq).1
      have hidx : b.index = (b.index.toNat : Int) := by omega
      show (if _ then _ else _ : Call Bool) s = _
      rw [if_pos (by omega), hidx, bind_ok (h.run_getProofHashOfBlock hq)]
      show (if q.proofHash ≤ b.proofHash then _ else _ : Call Bool) s = if _ then _ else _
      split <;> rfl

/-! ## The inversion theorem -/

theorem insertAtIndex_spec (h : Represents env s c) {p : Block} {w : Int}
    (hc : Counted env c b p w) (hb : Beats c b) :
    InsertSpec env s c b (insertAtIndex env b (s.counted b.index w)) := by
  rw [run_insertAtIndex (h.counted b.index w) hc]
  by_cases hround : b.round ≤ p.round
  · rw [if_pos hround]
    exact .sameRound p w hc hb hround
  · rw [if_neg hround]
    by_cases hprints : b.Printable
    swap
    · rw [if_pos hprints]
      exact .unprinted p w hc hb (by omega) hprints
    rw [if_neg (not_not_intro hprints)]
    by_cases hfits : b.Storable
    · rw [if_pos hfits]
      exact .stored p w hc hb (by omega) hfits
    · rw [if_neg hfits]
      exact .unfit p w hc hb (by omega) hprints hfits

theorem insert_spec (h : Represents env s c) (b : Block) :
    InsertSpec env s c b (insert env b s) := by
  rw [insert, bind_ok (h.run_blockInBlockchain b)]
  by_cases hfresh : b.hash ∈ c.blocks.map Block.hash
  · rw [if_pos (by simpa using hfresh)]
    exact .rejected (.known hfresh)
  rw [if_neg (by simpa using hfresh)]
  by_cases hzero : b.index = 0
  · rw [if_pos hzero]
    exact .rejected (.misplaced (by omega) fun p hc => by have := hc.pos; omega)
  rw [if_neg hzero, bind_ok h.run_numberOfBlocks]
  by_cases hgap : b.index > c.blocks.length
  · rw [if_pos hgap]
    exact .rejected (.misplaced (by omega) fun p hc => by
      have := hc.index_le; omega)
  rw [if_neg hgap]
  by_cases hneg : b.index < 0
  · rw [bind_error (h.run_hasCorrectParent_neg (by omega))]
    exact .noRow hfresh hneg
  obtain ⟨p, hp⟩ : ∃ p, c.blocks[b.index.toNat - 1]? = some p :=
    ⟨_, List.getElem?_eq_getElem (by omega)⟩
  rw [bind_ok (h.run_hasCorrectParent hp (by omega))]
  by_cases hparent : p.hash = b.parentHash
  swap
  · rw [if_pos (by simpa using hparent)]
    refine .rejected (.misplaced (by omega) fun p' hc => hparent ?_)
    rw [Option.some.inj (hp.symm.trans hc.parentAt), hc.parent]
  rw [if_neg (by simpa using hparent)]
  have hcand : Candidate c b p := ⟨hfresh, by omega, hp, hparent⟩
  cases hv : validateBlock env b with
  | error e =>
      exact .raised p e hcand hv
  | ok r =>
      rw [bind_ok (eval_ok r)]
      cases r with
      | none =>
          exact .rejected (.noTickets (by omega) hv (by rintro w ⟨⟩))
      | some w =>
          show InsertSpec env s c b ((if w = 0 then pure false else _ : Call Bool) s)
          by_cases hw : w = 0
          · rw [if_pos hw]
            refine .rejected (.noTickets (by omega) hv ?_)
            rintro w' ⟨⟩
            exact hw
          rw [if_neg hw, bind_ok (run_updateSuccessfullSortition ..)]
          have hc : Counted env c b p w := ⟨hcand, hv, hw⟩
          rw [run_insertCounted (h.counted b.index w) hc]
          cases hq : c.blocks[b.index.toNat]? with
          | none =>
              exact insertAtIndex_spec h hc fun q hq' => by rw [hq] at hq'; cases hq'
          | some q =>
              show InsertSpec env s c b (if q.proofHash ≤ b.proofHash then _ else _)
              by_cases hle : q.proofHash ≤ b.proofHash
              · rw [if_pos hle]
                exact .beaten p q w hc hq hle
              · rw [if_neg hle]
                refine insertAtIndex_spec h hc fun q' hq' => ?_
                rw [← Option.some.inj (hq.symm.trans hq')]
                exact lt_of_not_ge hle

/-! ## The chain after a call -/

/-- A counted block that beats what is at its index, comes in a later
round and fits is accepted by the chain. -/
theorem Counted.accepts {p : Block} {w : Int} (hc : Counted env c b p w) (hb : Beats c b)
    (hround : p.round < b.round) (hfits : b.Storable) : c.Accepts b := by
  have hidx := index_at hc.parentAt
  exact ⟨⟨hc.fresh, p, hc.parentAt, hc.parent.symm, hc.index_eq, by omega, hround,
    ⟨w, hc.valid, hc.nonzero⟩, hfits⟩, hb⟩

/-- The chain accepts only blocks that pass every check. -/
theorem counted_of_accepts (h : c.Accepts b) :
    ∃ p w, Counted env c b p w ∧ Beats c b ∧ p.round < b.round ∧ b.Storable := by
  obtain ⟨⟨hfresh, p, hp, hf⟩, hb⟩ := h
  obtain ⟨w, hw, hne⟩ := hf.valid
  have hpos : 0 < b.index := by
    have := hf.index; have := hf.nonneg; omega
  exact ⟨p, w, ⟨⟨hfresh, hpos, hp, hf.parent.symm⟩, hw, hne⟩, hb, hf.round, hf.storable⟩

/-- `insert` raises on the chain `c`: there is no row below a negative
index, validation raises, or the row does not fit the columns. A block
that cannot be printed does not fit them either. -/
inductive Raises (env : Env K) (c : Chain (rules env)) (b : Block) : Prop
  | noRow (hfresh : b.hash ∉ c.blocks.map Block.hash) (h : b.index < 0)
  | invalid {p : Block} {e : PyErr} (hc : Candidate c b p) (h : validateBlock env b = .error e)
  | unfit {p : Block} {w : Int} (hc : Counted env c b p w) (hb : Beats c b)
      (hround : p.round < b.round) (hfits : ¬b.Storable)

theorem Raises.not_accepts (hr : Raises env c b) : ¬c.Accepts b := by
  intro hacc
  obtain ⟨p, w, hc, -, -, hfits⟩ := counted_of_accepts hacc
  cases hr with
  | noRow _ hneg => have := hc.pos; omega
  | invalid _ he => have := he.symm.trans hc.valid; cases this
  | unfit _ _ _ hno => exact hno hfits

theorem Refused.not_accepts (h : Refused env c b) : ¬c.Accepts b := by
  intro hacc
  obtain ⟨p, w, hc, -⟩ := counted_of_accepts hacc
  exact h.not_counted p w hc

theorem Refused.not_raises (h : Refused env c b) : ¬Raises env c b := by
  intro hr
  cases hr with
  | noRow hfresh hneg =>
      cases h with
      | known hmem => exact hfresh hmem
      | misplaced hnonneg _ => omega
      | noTickets hnonneg _ _ => omega
  | invalid hc he =>
      cases h with
      | known hmem => exact hc.fresh hmem
      | misplaced _ hno => exact hno _ hc
      | noTickets _ hr _ => have := he.symm.trans hr; cases this
  | unfit hc _ _ _ => exact h.not_counted _ _ hc

/-- A block that loses the comparison, or is in its parent's round, is
not an error. -/
theorem Counted.not_raises {p : Block} {w : Int} (hc : Counted env c b p w)
    (h : Beats c b → ¬p.round < b.round) : ¬Raises env c b := by
  intro hr
  cases hr with
  | noRow _ hneg => have := hc.pos; omega
  | invalid _ he => have := he.symm.trans hc.valid; cases this
  | unfit hc' hb hround _ =>
      obtain rfl := Option.some.inj (hc.parentAt.symm.trans hc'.parentAt)
      exact h hb hround

theorem Counted.not_accepts {p : Block} {w : Int} (hc : Counted env c b p w)
    (h : Beats c b → ¬p.round < b.round) : ¬c.Accepts b := by
  intro hacc
  obtain ⟨p', w', hc', hb, hround, -⟩ := counted_of_accepts hacc
  obtain rfl := Option.some.inj (hc.parentAt.symm.trans hc'.parentAt)
  exact h hb hround

section OnTip

variable {p : Block} (htip : c.blocks.getLast? = some p) (hindex : b.index = c.blocks.length)
  (hparent : b.parentHash = p.hash) (hvalid : b.Valid env)
  (hfresh : b.hash ∉ c.blocks.map Block.hash)

include htip hindex hparent hvalid hfresh

/-- A valid block on top of the tip is counted, and has nothing to beat. -/
theorem counted_of_tip : ∃ w, Counted env c b p w ∧ Beats c b := by
  obtain ⟨w, hw, hne⟩ := hvalid
  have hpos := c.length_pos
  have hnat : b.index.toNat = c.blocks.length := by omega
  refine ⟨w, ⟨⟨hfresh, by omega, ?_, hparent.symm⟩, hw, hne⟩, fun q hq => ?_⟩
  · rw [hnat, ← List.getLast?_eq_getElem?]
    exact htip
  · rw [hnat, List.getElem?_eq_none (le_refl _)] at hq
    cases hq

variable (hround : p.round < b.round)

include hround

/-- In a later round it is accepted, if it fits the columns. -/
theorem accepts_of_tip (hfits : b.Storable) : c.Accepts b := by
  obtain ⟨w, hcounted, hbeats⟩ := counted_of_tip htip hindex hparent hvalid hfresh
  exact hcounted.accepts hbeats hround hfits

/-- And if it does not fit, there is no room for it in the columns. -/
theorem accepts_or_raises_of_tip : c.Accepts b ∨ Raises env c b := by
  by_cases hfits : b.Storable
  · exact .inl (accepts_of_tip htip hindex hparent hvalid hfresh hround hfits)
  · obtain ⟨w, hcounted, hbeats⟩ := counted_of_tip htip hindex hparent hvalid hfresh
    exact .inr (.unfit hcounted hbeats hround hfits)

end OnTip

theorem Represents.stored (h : Represents env s c) (hb : c.Extends b) :
    Represents env (s.stored env b) (c.graft b hb) :=
  (h.ticked.cutTo hb.pos_pos).pushed rfl rfl (env.time.fits _)

/-- What is left of the chain when `b` makes `insert` raise: all of it, or
what is below `b`'s index. -/
def LeftBy (c : Chain (rules env)) (b : Block) (c' : Chain (rules env)) : Prop :=
  c'.blocks = c.blocks ∨ ∃ p, Candidate c b p ∧ c'.blocks = c.blocks.take b.index.toNat

theorem LeftBy.isPrefix {c' : Chain (rules env)} (h : LeftBy c b c') : c'.blocks <+: c.blocks := by
  rcases h with h | ⟨p, -, h⟩
  · exact h ▸ List.prefix_rfl
  · rw [h]
    exact List.take_prefix ..

/-- What a call leaves behind, whether it returned or raised: the table
as it was, the rows below the block counted, and where the block wins and
can be printed the rest of them replaced by it or, if it does not fit,
gone. -/
theorem after_insert_cases {P : BlockChain → Prop} (h : Represents env s c) (b : Block)
    (same : P s)
    (counted : ∀ p w, Counted env c b p w → P (s.counted b.index w))
    (stored : ∀ p w, Counted env c b p w → returned (insert env b) s = some true →
      P ((s.counted b.index w).stored env b))
    (unfit : ∀ p w, Counted env c b p w →
      P ((s.counted b.index w).ticked.cutTo b.index.toNat)) :
    P (after (insert env b) s) := by
  have hspec := insert_spec h b
  generalize hrun : insert env b s = r at hspec
  cases hspec with
  | rejected _ =>
      rw [after_ok hrun]
      exact same
  | noRow _ _ =>
      rw [after_error hrun]
      exact same
  | raised _ _ _ _ =>
      rw [after_error hrun]
      exact same
  | beaten p q w hc _ _ =>
      rw [after_ok hrun]
      exact counted p w hc
  | sameRound p w hc _ _ =>
      rw [after_ok hrun]
      exact counted p w hc
  | unprinted p w hc _ _ _ =>
      rw [after_error hrun]
      exact counted p w hc
  | stored p w hc _ _ _ =>
      rw [after_ok hrun]
      exact stored p w hc (returned_ok hrun)
  | unfit p w hc _ _ _ _ =>
      rw [after_error hrun]
      exact unfit p w hc

/-- What a call means for the chain: the block is grafted, the chain
stays as it is, or the call raises and a prefix is left. -/
inductive Outcome (env : Env K) (c : Chain (rules env)) (b : Block) :
    EStateM.Result PyErr BlockChain Bool → Prop
  | accepted {s' : BlockChain} (hacc : c.Accepts b)
      (h : Represents env s' (c.graft b hacc.1)) : Outcome env c b (.ok true s')
  | refused {s' : BlockChain} (hacc : ¬c.Accepts b) (hr : ¬Raises env c b)
      (h : Represents env s' c) : Outcome env c b (.ok false s')
  | raised {s' : BlockChain} {e : PyErr} (hr : Raises env c b)
      (h : ∃ c', Represents env s' c' ∧ LeftBy c b c') : Outcome env c b (.error e s')

theorem insert_outcome (h : Represents env s c) (b : Block) :
    Outcome env c b (insert env b s) := by
  have hspec := insert_spec h b
  generalize insert env b s = r at hspec ⊢
  cases hspec with
  | rejected hno =>
      refine .refused (fun hacc => ?_) hno.not_raises h
      obtain ⟨p, w, hc, -⟩ := counted_of_accepts hacc
      exact hno.not_counted p w hc
  | noRow hfresh hneg => exact .raised (.noRow hfresh hneg) ⟨c, h, .inl rfl⟩
  | raised p e hc he => exact .raised (.invalid hc he) ⟨c, h, .inl rfl⟩
  | beaten p q w hc hq hle =>
      have hno : Beats c b → ¬p.round < b.round := fun hb => absurd (hb q hq) (not_lt_of_ge hle)
      exact .refused (hc.not_accepts hno) (hc.not_raises hno) (h.counted ..)
  | sameRound p w hc _ hround =>
      have hno : Beats c b → ¬p.round < b.round := fun _ => by omega
      exact .refused (hc.not_accepts hno) (hc.not_raises hno) (h.counted ..)
  | stored p w hc hb hround hfits =>
      exact .accepted (hc.accepts hb hround hfits) ((h.counted ..).stored _)
  | unprinted p w hc hb hround hprints =>
      exact .raised (.unfit hc hb hround fun hfits => hprints hfits.printable)
        ⟨c, h.counted .., .inl rfl⟩
  | unfit p w hc hb hround _ hfits =>
      exact .raised (.unfit hc hb hround hfits)
        ⟨_, (h.counted ..).ticked.cutTo (by have := hc.pos; omega),
          .inr ⟨p, hc.toCandidate, rfl⟩⟩

/-- `insert` returns `True` exactly for the blocks the chain accepts. -/
theorem returned_insert_iff (h : Represents env s c) (b : Block) :
    returned (insert env b) s = some true ↔ c.Accepts b := by
  have hout := insert_outcome h b
  generalize hrun : insert env b s = r at hout
  cases hout with
  | accepted hacc _ => exact iff_of_true (returned_ok hrun) hacc
  | refused hacc _ _ => exact iff_of_false (by rw [returned_ok hrun]; simp) hacc
  | raised hr _ => exact iff_of_false (by rw [returned_error hrun]; simp) hr.not_accepts

/-- It returns `False` for those that the chain neither accepts nor
fails on. -/
theorem returned_insert_false_iff (h : Represents env s c) (b : Block) :
    returned (insert env b) s = some false ↔ ¬c.Accepts b ∧ ¬Raises env c b := by
  have hout := insert_outcome h b
  generalize hrun : insert env b s = r at hout
  cases hout with
  | accepted hacc _ => exact iff_of_false (by rw [returned_ok hrun]; simp) fun hno => hno.1 hacc
  | refused hacc hr _ => exact iff_of_true (returned_ok hrun) ⟨hacc, hr⟩
  | raised hr _ => exact iff_of_false (by rw [returned_error hrun]; simp) fun hno => hno.2 hr

theorem blocks_graft_subset (h : c.Extends b) : (c.graft b h).blocks ⊆ c.blocks ++ [b] := by
  intro x hx
  rw [Chain.blocks_graft, List.mem_append] at hx
  rw [List.mem_append]
  exact hx.imp_left List.mem_of_mem_take

/-- Every call leaves a table that represents a chain of the blocks there
were and the new one, whether it returns or raises. -/
theorem insert_represents (h : Represents env s c) (b : Block) :
    ∃ c', Represents env (after (insert env b) s) c' ∧ c'.blocks ⊆ c.blocks ++ [b] := by
  unfold after
  have hout := insert_outcome h b
  generalize insert env b s = r at hout ⊢
  cases hout with
  | accepted hacc h' => exact ⟨_, h', blocks_graft_subset hacc.1⟩
  | refused _ _ h' => exact ⟨c, h', List.subset_append_left ..⟩
  | raised _ h' =>
      obtain ⟨c', h', hleft⟩ := h'
      exact ⟨c', h', List.subset_append_of_subset_left _ hleft.isPrefix.subset⟩

/-- For a block that fits the columns, the chain after the call is the
old one with the block offered to it. -/
theorem insert_offer (h : Represents env s c) (hfits : b.Storable) :
    Represents env (after (insert env b) s) (c.offer b) := by
  unfold after
  have hspec := insert_spec h b
  have hout := insert_outcome h b
  generalize insert env b s = r at hspec hout ⊢
  cases hout with
  | accepted hacc h' => rw [Chain.offer_of_accepts hacc]; exact h'
  | refused hacc _ h' => rw [Chain.offer_of_not_accepts hacc]; exact h'
  | raised hr _ =>
      rw [Chain.offer_of_not_accepts hr.not_accepts]
      cases hspec with
      | noRow _ _ => exact h
      | raised _ _ _ _ => exact h
      | unprinted _ _ _ _ _ hno => exact absurd hfits.printable hno
      | unfit _ _ _ _ _ _ hno => exact absurd hfits hno

end Cpos
