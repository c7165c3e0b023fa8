import Cpos.NodeRun

/-!
# What is counted for a block

Every block handed to `insert` that passes the checks up to validation
adds its winning tickets to the rows below its index, also when it then
loses against the block at its index. `handle_new_block` drops a block
that is in the chain or in `missed_blocks`, so a block can be counted
again if it is in neither: it was inserted once, and a better sibling has
replaced it since (`replaced_block_counted_again`).

In a run in which no step counts a block again that the two filters do
not cover (`Unrepeated`), a row's count is bounded by the tickets of the
distinct blocks handed over since the row was stored (`count_le_tally`).
-/

namespace Cpos

open Python ByteString LinkedChain BlockChain

variable {K : Type} [PyNum K] {env : NodeEnv K}

/-! ## The tally -/

/-- The winning tickets of a block. -/
def tickets (env : NodeEnv K) (block : Block) : Int :=
  match validateBlock env.toEnv block with
  | .ok (some winningTickets) => winningTickets
  | _ => 0

/-- The history since the row with this id was stored. -/
def since (id : List Char) : List Event → List Event
  | [] => []
  | e :: history => if e.stored ∧ hex e.block.hash = id then [] else e :: since id history

/-- The tickets of the distinct blocks of a history; of several with one
hash, those of the first handed over. -/
def tally (env : NodeEnv K) : List Event → Int
  | [] => 0
  | e :: history =>
      if e.block.hash ∈ history.map fun e' => e'.block.hash then tally env history
      else tickets env e.block + tally env history

/-! ## Runs without repetition -/

/-- Handed to `insert`, the block adds its tickets to the row `r` of the
table: it is not in the chain, the row before its index is its parent,
validation grants tickets, and `r` is unconfirmed and below it. -/
structure CountsFor (env : NodeEnv K) (s : BlockChain) (block : Block) (r : Row) : Prop where
  unconfirmed : r.confirmed = 0
  below : r.blockIndex < block.index
  fresh : ∀ r' ∈ s.localChains, r'.id ≠ hex block.hash
  parent : ∃ p ∈ s.localChains, p.blockIndex = block.index - 1 ∧ p.hash = hex block.parentHash
  tickets : tickets env block ≠ 0

instance (s : BlockChain) (block : Block) (r : Row) : Decidable (CountsFor env s block r) :=
  decidable_of_iff
    (r.confirmed = 0 ∧ r.blockIndex < block.index ∧ (∀ r' ∈ s.localChains, r'.id ≠ hex block.hash) ∧
      (∃ p ∈ s.localChains, p.blockIndex = block.index - 1 ∧ p.hash = hex block.parentHash) ∧
      tickets env block ≠ 0)
    ⟨fun ⟨h₁, h₂, h₃, h₄, h₅⟩ => ⟨h₁, h₂, h₃, h₄, h₅⟩,
      fun ⟨h₁, h₂, h₃, h₄, h₅⟩ => ⟨h₁, h₂, h₃, h₄, h₅⟩⟩

/-- Where the call counts a block for a row, the block is none that was
handed over since the row was stored and that the filters miss: one that
was stored, one of the node's own, or, for an own block, any. -/
def FreshStep (env : NodeEnv K) (n : Node) (history : List Event) (op : NodeOp) : Prop :=
  ∀ block ∈ handed env n op, ∀ r ∈ n.bc.localChains, CountsFor env n.bc block r →
    ∀ e ∈ since r.id history, e.stored ∨ e.own ∨ op.isOwn → e.block.hash ≠ block.hash

instance (n : Node) (history : List Event) (op : NodeOp) :
    Decidable (FreshStep env n history op) :=
  inferInstanceAs (Decidable (∀ block ∈ handed env n op, _))

/-- Every step of the run is fresh. -/
def Unrepeated (env : NodeEnv K) : Node × List Event → List NodeOp → Prop
  | _, [] => True
  | (n, history), op :: ops =>
      FreshStep env n history op ∧
        match op.call env n with
        | .ok _ n' => Unrepeated env (n', record env n history op) ops
        | .error _ _ => True

instance decidableUnrepeated :
    ∀ (run : Node × List Event) (ops : List NodeOp), Decidable (Unrepeated env run ops)
  | _, [] => isTrue trivial
  | (n, history), op :: ops =>
      have : Decidable (match op.call env n with
          | .ok _ n' => Unrepeated env (n', record env n history op) ops
          | .error _ _ => True) :=
        match op.call env n with
        | .ok _ n' => decidableUnrepeated (n', record env n history op) ops
        | .error _ _ => isTrue trivial
      inferInstanceAs (Decidable (FreshStep env n history op ∧ _))

/-! ## The tally bounds the count -/

theorem tickets_nonneg (block : Block) : 0 ≤ tickets env block := by
  unfold tickets
  split
  · next w hv => exact validateBlock_nonneg hv
  · exact le_refl _

theorem tally_cons_le (e : Event) (history : List Event) :
    tally env history ≤ tally env (e :: history) := by
  have hnonneg : 0 ≤ tickets env e.block := tickets_nonneg e.block
  rw [tally]
  split <;> omega

theorem since_subset {id : List Char} : ∀ {history : List Event}, since id history ⊆ history
  | [] => List.Subset.refl _
  | e :: history => by
      rw [since]
      split
      · exact List.nil_subset _
      · exact List.cons_subset_cons e since_subset

theorem since_cons {id : List Char} {e : Event} {history : List Event}
    (h : e.stored = true → hex e.block.hash ≠ id) :
    since id (e :: history) = e :: since id history := by
  rw [since, if_neg]
  rintro ⟨hstored, hid⟩
  exact h hstored hid

/-- The bound on the counts of the unconfirmed rows. -/
def CountsBounded (env : NodeEnv K) (rows : List Row) (history : List Event) : Prop :=
  ∀ r ∈ rows, r.confirmed = 0 → r.numSuc ≤ tally env (since r.id history)

theorem CountsBounded.confirms {s s' : BlockChain} {history : List Event}
    (h : CountsBounded env s.localChains history) (hs : Confirms s s') :
    CountsBounded env s'.localChains history := by
  intro r' hr' hzero
  obtain ⟨i, hi⟩ := List.mem_iff_getElem?.mp hr'
  have hlt : i < s.localChains.length := by
    rw [hs.length_eq]
    exact (List.getElem?_eq_some_iff.mp hi).1
  have hr := List.getElem?_eq_getElem hlt
  obtain ⟨r₂, hr₂, hfrom⟩ := hs.getElem? hr
  obtain rfl := Option.some.inj (hr₂.symm.trans hi)
  rcases hfrom with heq | heq
  · rw [heq] at hzero ⊢
    exact h _ (List.mem_of_getElem? hr) hzero
  · rw [heq] at hzero
    cases hzero

theorem CountsBounded.take {rows : List Row} {history : List Event}
    (h : CountsBounded env rows history) (n : Nat) : CountsBounded env (rows.take n) history :=
  fun r hr => h r (List.mem_of_mem_take hr)

/-- A block handed over that leaves the counts alone. -/
theorem CountsBounded.cons {rows : List Row} {history : List Event} {e : Event}
    (h : CountsBounded env rows history)
    (hid : e.stored = true → ∀ r ∈ rows, hex e.block.hash ≠ r.id) :
    CountsBounded env rows (e :: history) := by
  intro r hr hzero
  rw [since_cons fun hstored => hid hstored r hr]
  exact le_trans (h r hr hzero) (tally_cons_le _ _)

/-- A block counted for the first time adds its tickets to the tally of
every row it is counted for. -/
theorem CountsBounded.counted {rows : List Row} {history : List Event} {e : Event} {w i : Int}
    (h : CountsBounded env rows history) (hw : tickets env e.block = w)
    (hid : ∀ r ∈ rows, hex e.block.hash ≠ r.id)
    (hnew : ∀ r ∈ rows, r.confirmed = 0 → r.blockIndex < i →
      ∀ e' ∈ since r.id history, e'.block.hash ≠ e.block.hash) :
    CountsBounded env (rows.map (Row.count i w)) (e :: history) := by
  intro r' hr' hzero
  obtain ⟨r, hr, rfl⟩ := List.mem_map.mp hr'
  have hrid : (r.count i w).id = r.id := by
    show (r.count i w).static.id = r.id
    rw [static_count]
    rfl
  rw [hrid, since_cons fun _ => hid r hr]
  by_cases hcount : r.blockIndex < i ∧ r.confirmed = 0
  · have hold := h r hr hcount.2
    have hfresh : e.block.hash ∉ (since r.id history).map fun e' => e'.block.hash := by
      rw [List.mem_map]
      rintro ⟨e', he', heq⟩
      exact hnew r hr hcount.2 hcount.1 e' he' heq
    rw [tally, if_neg hfresh, hw, Row.count, if_pos hcount]
    show r.numSuc + w ≤ _
    omega
  · rw [Row.count, if_neg hcount] at hzero ⊢
    exact le_trans (h r hr hzero) (tally_cons_le _ _)

section Insertion

variable {s : BlockChain} {c : Chain (rules env.toEnv)} {block p : Block} {w : Int}

theorem tickets_eq (h : validateBlock env.toEnv block = .ok (some w)) :
    tickets env block = w := by
  unfold tickets
  rw [h]

theorem Represents.id_ne_of_fresh (hc : Represents env.toEnv s c)
    (h : block.hash ∉ c.blocks.map Block.hash) {r : Row} (hr : r ∈ s.localChains) :
    hex block.hash ≠ r.id := by
  intro heq
  exact h ((hc.exists_row_iff _).mp ⟨r, hr, by rw [← hc.id_eq_hash hr, heq]⟩)

/-- A counted block counts for the unconfirmed rows below it. -/
theorem Counted.countsFor (h : Counted env.toEnv c block p w) (hc : Represents env.toEnv s c)
    {r : Row} (hzero : r.confirmed = 0)
    (hbelow : r.blockIndex < block.index) : CountsFor env s block r where
  unconfirmed := hzero
  below := hbelow
  fresh r' hr' heq := hc.id_ne_of_fresh h.fresh hr' heq.symm
  parent := by
    obtain ⟨row, hrow, hst⟩ := hc.row_at h.parentAt
    have hindex := h.index_eq
    exact ⟨row, List.mem_of_getElem? hrow, by rw [hst.blockIndex]; omega, by
      rw [hst.hash, h.parent]⟩
  tickets := by
    rw [tickets_eq h.valid]
    exact h.nonzero

/-- One insertion of a block that is new to the history of every row it
counts for. -/
theorem CountsBounded.inserted {history : List Event} (own : Bool)
    (hc : Represents env.toEnv s c) (h : CountsBounded env s.localChains history)
    (hnew : ∀ r ∈ s.localChains, CountsFor env s block r →
      ∀ e ∈ since r.id history, e.block.hash ≠ block.hash) :
    CountsBounded env (after (insert env.toEnv block) s).localChains
      (⟨block, own, returned (insert env.toEnv block) s = some true⟩ :: history) := by
  have hspec := insert_spec hc block
  unfold after returned
  generalize insert env.toEnv block s = r at hspec ⊢
  have hcount {p : Block} {w : Int} (hcounted : Counted env.toEnv c block p w) (stored : Bool) :
      CountsBounded env (s.counted block.index w).localChains (⟨block, own, stored⟩ :: history) :=
    h.counted (tickets_eq hcounted.valid) (fun _ => hc.id_ne_of_fresh hcounted.fresh)
      fun r hr hzero hbelow => hnew r hr (hcounted.countsFor hc hzero hbelow)
  cases hspec with
  | rejected _ => exact h.cons (by simp)
  | noRow _ _ => exact h.cons (by simp)
  | raised _ _ _ _ => exact h.cons (by simp)
  | beaten p q w hcounted _ _ => exact hcount hcounted _
  | sameRound p w hcounted _ _ => exact hcount hcounted _
  | unprinted p w hcounted _ _ _ => exact hcount hcounted _
  | unfit p w hcounted _ _ _ _ => exact (hcount hcounted _).take _
  | stored p w hcounted _ _ _ =>
      intro r hr hzero
      rcases List.mem_append.mp hr with hr | hr
      · exact (hcount hcounted _).take _ r hr hzero
      · -- the new row has no history of its own yet
        obtain rfl := List.mem_singleton.mp hr
        rw [since, if_pos ⟨by simp, rfl⟩]
        exact le_refl _

end Insertion

/-! ## Over a run -/

/-- The invariant: the table represents a chain, the filters know the
history or it was stored or produced, and the counts are bounded. -/
structure Followed (env : NodeEnv K) (n : Node) (history : List Event) : Prop where
  chain : ∃ c, Represents env.toEnv n.bc c
  covered : ∀ e ∈ history, e.stored ∨ e.own ∨
    ∃ missed ∈ n.missedBlocks, missed.1.hash = e.block.hash
  bounded : CountsBounded env n.bc.localChains history

/-- What a delivered block that passes the filters is not. -/
theorem hash_ne_of_handed {n : Node} {op : NodeOp} {block : Block}
    (h : handed env n op = some block) (hown : op.isOwn = false) :
    ∀ missed ∈ n.missedBlocks, missed.1.hash ≠ block.hash := by
  cases op with
  | produce mock => cases hown
  | updateRound fuel => cases h
  | deliver b peerId =>
      rw [handed] at h
      split at h
      · next hadmits =>
        obtain rfl := Option.some.inj h
        intro missed hmissed heq
        have hany := hadmits.1
        simp only [admits, Bool.and_eq_true, Bool.not_eq_true', List.any_eq_false] at hany
        exact hany.2 missed hmissed (by simp [heq])
      · cases h

theorem Followed.stepped {n n' : Node} {history : List Event} {op : NodeOp} {ok : Bool}
    (h : Followed env n history) (hfresh : FreshStep env n history op)
    (hs : Stepped env n op n' ok) :
    CountsBounded env n'.bc.localChains (record env n history op) ∧
      (ok = true → Followed env n' (record env n history op)) := by
  obtain ⟨⟨c, hc⟩, hcovered, hbounded⟩ := h
  cases hs with
  | idle hnone hbc hmissed =>
      rw [record, hnone]
      refine ⟨hbounded.confirms hbc, fun _ => ⟨⟨c, hc.confirms hbc⟩, ?_, hbounded.confirms hbc⟩⟩
      rw [hmissed]
      exact hcovered
  | inserted block hsome hbc hmissed hstored =>
      rw [record, hsome]
      have hnew (r : Row) (hr : r ∈ n.bc.localChains) (hcounts : CountsFor env n.bc block r) :
          ∀ e ∈ since r.id history, e.block.hash ≠ block.hash := by
        intro e he
        by_cases hflag : e.stored ∨ e.own ∨ op.isOwn
        · exact hfresh block hsome r hr hcounts e he hflag
        · rw [not_or, not_or] at hflag
          rcases hcovered e (since_subset he) with hst | hown | ⟨missed, hmem, heq⟩
          · exact absurd hst hflag.1
          · exact absurd hown hflag.2.1
          · rw [← heq]
            exact hash_ne_of_handed hsome (by simpa using hflag.2.2) missed hmem
      have hbounded' := hbounded.inserted op.isOwn hc hnew
      rw [← hbc] at hbounded'
      refine ⟨hbounded', fun hok => ⟨?_, ?_, hbounded'⟩⟩
      · obtain ⟨c', hc', -⟩ := insert_represents hc block
        rw [hbc]
        exact ⟨c', hc'⟩
      · intro e he
        rcases List.mem_cons.mp he with rfl | he
        · rcases hstored hok with hst | hown | hmem
          · exact .inl (by simpa using hst)
          · exact .inr (.inl hown)
          · exact .inr (.inr hmem)
        · rcases hcovered e he with hst | hown | ⟨missed, hmem, heq⟩
          · exact .inl hst
          · exact .inr (.inl hown)
          · exact .inr (.inr ⟨missed, hmissed hmem, heq⟩)

theorem nodeRun_bounded : ∀ (ops : List NodeOp) {n : Node} {history : List Event},
    Followed env n history → Unrepeated env (n, history) ops →
      CountsBounded env (nodeRun env (n, history) ops).1.bc.localChains
        (nodeRun env (n, history) ops).2
  | [], n, history, h, _ => h.bounded
  | op :: ops, n, history, h, ⟨hfresh, hrest⟩ => by
      have hstep : SteppedTo env n op (op.call env n) := op_stepped n op
      rw [nodeRun]
      cases hcall : op.call env n with
      | ok _ n' =>
          rw [hcall] at hstep hrest
          exact nodeRun_bounded ops ((h.stepped hfresh hstep).2 rfl) hrest
      | error e n' =>
          rw [hcall] at hstep
          exact (h.stepped hfresh hstep).1

/-- **Each block counts once.** In every state of a run without
repetition the count of an unconfirmed row is at most the tickets of the
distinct blocks handed to `insert` since the row was stored. -/
theorem count_le_tally {n₀ : Node} (hrows : n₀.bc.localChains = [genesisRow])
    {ops : List NodeOp} (h : Unrepeated env (n₀, []) ops)
    {n : Node} {history : List Event} (hrun : nodeRun env (n₀, []) ops = (n, history)) :
    ∀ r ∈ n.bc.localChains, r.confirmed = 0 → r.numSuc ≤ tally env (since r.id history) := by
  have h₀ : Followed env n₀ [] := by
    refine ⟨⟨genesisChain _, represents_genesis hrows⟩, by simp, fun r hr hzero => ?_⟩
    rw [hrows, List.mem_singleton] at hr
    rw [hr] at hzero
    cases hzero
  have hbounded := nodeRun_bounded ops h₀ h
  rw [hrun] at hbounded
  exact hbounded

/-- Duplicates are filtered, whether the block was stored or missed. -/
def sampleDeliveries : List NodeOp :=
  [.deliver a1 bob, .deliver a2 bob, .deliver b2 alice, .deliver b2 bob, .deliver a2 alice,
    .produce fun _ => TransactionList.new, .updateRound 10]

theorem count_le_tally_sample :
    ∃ n history, nodeRun sampleNodeEnv (sampleNode, []) sampleDeliveries = (n, history) ∧
      ∀ r ∈ n.bc.localChains, r.confirmed = 0 →
        r.numSuc ≤ tally sampleNodeEnv (since r.id history) := by
  have hfresh : Unrepeated sampleNodeEnv (sampleNode, []) sampleDeliveries := by decide +kernel
  exact ⟨_, _, Prod.mk.eta.symm, count_le_tally rfl hfresh Prod.mk.eta.symm⟩

/-- `a2` replaces `b2`, and `b2` comes a second time: `a1` gets three
tickets for two blocks. -/
theorem replaced_block_counted_again :
    ∃ n history, nodeRun sampleNodeEnv (sampleNode, [])
        [.deliver a1 bob, .deliver b2 bob, .deliver a2 bob, .deliver b2 bob] = (n, history) ∧
      ∃ r ∈ n.bc.localChains, r.confirmed = 0 ∧ r.numSuc = 3 ∧
        tally sampleNodeEnv (since r.id history) = 2 :=
  ⟨_, _, Prod.mk.eta.symm, by decide +kernel⟩

end Cpos
