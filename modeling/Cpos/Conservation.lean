import Cpos.Announcing
import Cpos.Mempool

/-!
# The transactions of a node

A `Ledger` is a node together with its mempool. Transactions are chosen
when a block is made for a ticket, before it is known whether the ticket
wins and whether `insert` takes the block, and blocks leave the chain when
others replace them. As long as every block made of chosen transactions is
adopted, and none that holds some that are still marked is replaced, no
transaction is lost (`transactions_conserved`).
-/

namespace Cpos

open Python ByteString LinkedChain BlockChain

variable {K : Type} [PyNum K] {env : LoopEnv K} {rowEnv : RowEnv}

structure Ledger where
  node : Node
  mempool : Mempool

/-- What a ledger does: an act of the node other than block production,
block production on the rows that the query returns, or a transaction
comes in from outside. -/
inductive LedgerOp where
  | act (a : Act)
  | produce (resultSet : List Transaction)
  | submit (t : Transaction)

def Act.isProduce : Act → Bool
  | .produce _ => true
  | _ => false

inductive Ledger.Step (env : LoopEnv K) (rowEnv : RowEnv) : LedgerOp → Ledger → Ledger → Prop
  | act {l : Ledger} {n' : Node} {a : Act} (hother : a.isProduce = false)
      (h : a.Leads env l.node n') : Step env rowEnv (.act a) l ⟨n', l.mempool⟩
  | produce {l : Ledger} {n' : Node} {resultSet : List Transaction} {list : TransactionList}
      {mempool : Mempool} (hretrieves : l.mempool.Retrieves resultSet)
      (hlist : l.mempool.mockTransactions rowEnv resultSet = some (list, mempool))
      (h : (Act.produce fun _ => list).Leads env l.node n') :
      Step env rowEnv (.produce resultSet) l ⟨n', mempool⟩
  | submit {l : Ledger} {t : Transaction} (hchosen : t.chosen = 0)
      (hnew : t.transactionId ∉ l.mempool.rows.map Transaction.transactionId) :
      Step env rowEnv (.submit t) l ⟨l.node, l.mempool.submit t hnew⟩

/-- A row of the chain lists the transaction. -/
def InChain (rowEnv : RowEnv) (n : Node) (t : Transaction) : Prop :=
  ∃ r ∈ n.bc.localChains, Lists rowEnv r.transactions t

/-- Every transaction can still be chosen, or is in the chain. -/
def Ledger.Conserved (rowEnv : RowEnv) (l : Ledger) : Prop :=
  ∀ t ∈ l.mempool.rows, t.chosen = 0 ∨ InChain rowEnv l.node t

/-- A block of these transactions is valid, and can be put on top of the
chain: the tip is of an earlier round, and the chain does not hold the
block's hash. -/
structure CanAdopt (env : LoopEnv K) (mock : Int → TransactionList) (n : Node) : Prop where
  created : env.broadcastCreatedBlock = true
  wins : ∃ b, returned (ticketBlock env.toNodeEnv mock 0) n.bc = some b ∧ b.Valid env.toEnv ∧
    ∀ r ∈ n.bc.localChains, r.hash ≠ hex b.hash
  later : ∃ tip ∈ n.bc.localChains.getLast?, tip.round < n.bc.currentRound

/-- Block production makes a block that can be adopted, and no block that
is taken replaces one that lists a transaction which cannot be chosen any
more. -/
def Ledger.Keeps (env : LoopEnv K) (rowEnv : RowEnv) (l : Ledger) : LedgerOp → Prop
  | .act a => ∀ b, a.Takes env l.node b → ∀ r ∈ l.node.bc.localChains, b.index ≤ r.blockIndex →
      ∀ t ∈ l.mempool.rows, t.chosen ≠ 0 → ¬Lists rowEnv r.transactions t
  | .produce resultSet => ∀ list mempool,
      l.mempool.mockTransactions rowEnv resultSet = some (list, mempool) →
        CanAdopt env (fun _ => list) l.node
  | .submit _ => True

/-! ## One step -/

theorem lists_congr {r r' : Row} (h : r.static = r'.static) {t : Transaction}
    (hlists : Lists rowEnv r.transactions t) : Lists rowEnv r'.transactions t := by
  have hsame : r.static.transactions = r'.static.transactions := congrArg Row.transactions h
  rwa [show r.transactions = r'.transactions from hsame] at hlists

/-- The block of chosen transactions is produced and adopted. -/
theorem CanAdopt.adopted {mock : Int → TransactionList} {n n' : Node} (h : CanAdopt env mock n)
    (hmock : env.useMockTransactions = true) (hn : ∃ c, Represents env.toEnv n.bc c)
    (hleads : (Act.produce mock).Leads env n n') :
    ∃ b, AdoptedOnTop n b n' ∧ ∃ i, b.transactions = (mock i).transactions := by
  obtain ⟨b, hblock, hvalid, hfresh⟩ := h.wins
  have hgenerate := generateBlock_of_valid hblock hvalid
  have htransactions := (generateBlock_ok hgenerate).transactions
  rw [if_pos (show env.toNodeEnv.useMockTransactions = true from hmock)] at htransactions
  obtain ⟨r, hgenerated, ⟨hnone, -⟩ | ⟨b', stored, rfl, -, hinsert, -⟩⟩ := produceBlock_ok hleads
  · -- nothing is produced, or it is not broadcast
    rw [hgenerate] at hgenerated
    obtain ⟨heq, -⟩ := EStateM.Result.ok.inj hgenerated
    rcases hnone with rfl | hquiet
    · cases heq
    · have hcreated : env.toNodeEnv.broadcastCreatedBlock = true := h.created
      rw [hcreated] at hquiet
      cases hquiet
  · rw [hgenerate] at hgenerated
    obtain rfl := Option.some.inj (EStateM.Result.ok.inj hgenerated).1
    have hannounces : Announces env mock n b
        { n with bc := n'.bc, producedBlocks := n.producedBlocks + 1 } :=
      ⟨h.created, returned_ok hgenerate, ⟨stored, hinsert⟩, rfl⟩
    exact ⟨b, (hannounces.adopted_iff hn).mpr ⟨h.later, hfresh⟩, _, htransactions⟩

theorem AdoptedOnTop.inChain_of_row {n n' : Node} {b : Block} (h : AdoptedOnTop n b n')
    {t : Transaction} (hlists : Lists rowEnv b.transactions t) : InChain rowEnv n' t := by
  have hmem : rowOf b ∈ n'.bc.localChains.map Row.static := by
    rw [h]
    exact List.mem_append_right _ (List.mem_singleton_self _)
  obtain ⟨r, hr, hstatic⟩ := List.mem_map.mp hmem
  exact ⟨r, hr, lists_congr (show (rowOf b).static = r.static from hstatic.symm) hlists⟩

theorem AdoptedOnTop.inChain {n n' : Node} {b : Block} (h : AdoptedOnTop n b n')
    {t : Transaction} (ht : InChain rowEnv n t) : InChain rowEnv n' t := by
  obtain ⟨r, hr, hlists⟩ := ht
  have hmem : r.static ∈ n'.bc.localChains.map Row.static := by
    rw [h]
    exact List.mem_append_left _ (List.mem_map_of_mem hr)
  obtain ⟨r', hr', hstatic⟩ := List.mem_map.mp hmem
  exact ⟨r', hr', lists_congr hstatic.symm hlists⟩

/-- **The step.** -/
theorem Ledger.Conserved.step {op : LedgerOp} {l l' : Ledger} (hl : l.Conserved rowEnv)
    (hmock : env.useMockTransactions = true) (hn : ∃ c, Represents env.toEnv l.node.bc c)
    (h : Ledger.Step env rowEnv op l l') (hkeeps : l.Keeps env rowEnv op) :
    l'.Conserved rowEnv := by
  cases h with
  | act hother hleads =>
      intro t ht
      by_cases hfree : t.chosen = 0
      · exact .inl hfree
      obtain ⟨r, hr, hlists⟩ := (hl t ht).resolve_left hfree
      rcases hleads.effect.fate hn r hr with ⟨r', hr', hstatic⟩ | ⟨i, hi, hstored, hbelow⟩
      · exact .inr ⟨r', hr', lists_congr hstatic hlists⟩
      · have htaken := Act.takes_of_stored hn hi hstored
        exact absurd hlists (hkeeps i.block htaken r hr hbelow t ht hfree)
  | produce hretrieves hlist hleads =>
      obtain ⟨b, hadopted, i, htransactions⟩ := (hkeeps _ _ hlist).adopted hmock hn hleads
      intro t ht
      rcases Mempool.lists_of_mem hretrieves hlist ht with hbefore | hlists
      · exact (hl t hbefore).imp_right hadopted.inChain
      · exact .inr (hadopted.inChain_of_row (htransactions ▸ hlists))
  | submit hchosen hnew =>
      intro u hu
      rcases List.mem_append.mp hu with hu | hu
      · exact hl u hu
      · rw [List.mem_singleton.mp hu]
        exact .inl hchosen

theorem Ledger.Step.acts {op : LedgerOp} {l l' : Ledger} (h : Ledger.Step env rowEnv op l l') :
    Acts env l.node l'.node := by
  cases h with
  | act _ hleads => exact hleads.acts
  | produce _ _ hleads => exact hleads.acts
  | submit _ _ => exact .refl

/-! ## Runs -/

/-- Steps that keep the transactions. -/
def Ledger.Reaches (env : LoopEnv K) (rowEnv : RowEnv) : Ledger → Ledger → Prop :=
  Relation.ReflTransGen fun l l' =>
    ∃ op, Ledger.Step env rowEnv op l l' ∧ l.Keeps env rowEnv op

theorem Ledger.Reaches.acts {l l' : Ledger} (h : l.Reaches env rowEnv l') :
    Acts env l.node l'.node := by
  induction h with
  | refl => exact .refl
  | tail _ hstep ih =>
      obtain ⟨op, hstep, -⟩ := hstep
      exact ih.trans hstep.acts

/-- **No transaction is lost** by steps that keep the transactions. -/
theorem transactions_conserved {l₀ l : Ledger} (hmock : env.useMockTransactions = true)
    (hstarted : l₀.node.Started env.toNodeEnv) (hfree : ∀ t ∈ l₀.mempool.rows, t.chosen = 0)
    (h : l₀.Reaches env rowEnv l) : l.Conserved rowEnv := by
  induction h with
  | refl => exact fun t ht => .inl (hfree t ht)
  | tail hreaches hstep ih =>
      obtain ⟨op, hstep, hkeeps⟩ := hstep
      exact ih.step hmock (Ledger.Reaches.acts hreaches |>.represents hstarted.represents) hstep hkeeps

/-! ## A transaction that is lost, and one that is not -/

/-- The node of `alice` with mock transactions, on a network with this
stake. -/
def miningEnv (totalStake : Int) : LoopEnv ℚ :=
  { announcingEnv with
    period := some 1
    useMockTransactions := true
    parameters := { announcingEnv.parameters with totalStake } }

def miningLedger (totalStake : Int) : Ledger :=
  ⟨(startLoop (miningEnv totalStake)).node, sampleMempool⟩

/-- In round 1 the node produces with the sample transaction. -/
theorem mining_steps {totalStake : Int} {n₁ n : Node}
    (h₁ : runActs (miningEnv totalStake) (startLoop (miningEnv totalStake)).node
      [.updateRound 10] = some n₁)
    (h : runActs (miningEnv totalStake) n₁ [.produce fun _ => sampleList] = some n) :
    Ledger.Step (miningEnv totalStake) sampleRowEnv (.act (.updateRound 10))
      (miningLedger totalStake) ⟨n₁, sampleMempool⟩ ∧
    Ledger.Step (miningEnv totalStake) sampleRowEnv (.produce [sampleTransaction])
      ⟨n₁, sampleMempool⟩ ⟨n, sampleMempool.patch ["1"]⟩ := by
  obtain ⟨m₁, hleads₁, hnil₁⟩ := runActs_cons h₁
  obtain rfl : m₁ = n₁ := Option.some.inj hnil₁
  obtain ⟨m, hleads, hnil⟩ := runActs_cons h
  obtain rfl : m = n := Option.some.inj hnil
  have hstep : Ledger.Step (miningEnv totalStake) sampleRowEnv (.act (.updateRound 10))
      (miningLedger totalStake) ⟨m₁, (miningLedger totalStake).mempool⟩ := .act rfl hleads₁
  exact ⟨hstep, .produce sampleMempool_retrieves sampleMempool_list hleads⟩

theorem mining_free (totalStake : Int) :
    ∀ t ∈ (miningLedger totalStake).mempool.rows, t.chosen = 0 := by
  show ∀ t ∈ [sampleTransaction], t.chosen = 0
  decide

/-- On a network with stake 2 the ticket does not win, and the
transaction is in no block and cannot be chosen again. -/
theorem transaction_lost : ∃ l : Ledger,
    (miningEnv 2).useMockTransactions = true ∧
    (miningLedger 2).node.Started (miningEnv 2).toNodeEnv ∧
    (∀ t ∈ (miningLedger 2).mempool.rows, t.chosen = 0) ∧
    Relation.ReflTransGen (fun l l' => ∃ op, Ledger.Step (miningEnv 2) sampleRowEnv op l l')
      (miningLedger 2) l ∧ ¬l.Conserved sampleRowEnv := by
  have hrun : ((runActs (miningEnv 2) (startLoop (miningEnv 2)).node
        [.updateRound 10]).bind fun n₁ =>
      (runActs (miningEnv 2) n₁ [.produce fun _ => sampleList]).map fun n =>
        n.bc.localChains.map Row.transactions) = some [strList []] := by decide +kernel
  obtain ⟨n₁, h₁, hrun⟩ := Option.bind_eq_some_iff.mp hrun
  obtain ⟨n, h, hrows⟩ := Option.map_eq_some_iff.mp hrun
  obtain ⟨hupdate, hproduce⟩ := mining_steps h₁ h
  refine ⟨_, rfl, startLoop_started _ (by decide +kernel), mining_free 2,
    .tail (.single ⟨_, hupdate⟩) ⟨_, hproduce⟩, fun hconserved => ?_⟩
  have hchosen : { sampleTransaction with chosen := 1 } ∈ (sampleMempool.patch ["1"]).rows := by
    decide
  rcases hconserved _ hchosen with hfree | ⟨r, hr, hlists⟩
  · cases hfree
  · have hmem : r.transactions ∈ n.bc.localChains.map Row.transactions := List.mem_map_of_mem hr
    rw [hrows, List.mem_singleton] at hmem
    rw [hmem] at hlists
    exact not_lists_nil sampleRowEnv_str_ne hlists

/-- On a network with stake 1 it wins, and the transaction is in the
chain. -/
theorem transactions_conserved_sample : ∃ l : Ledger,
    (miningLedger 1).Reaches (miningEnv 1) sampleRowEnv l ∧
    l.mempool.rows = [{ sampleTransaction with chosen := 1 }] ∧ l.Conserved sampleRowEnv := by
  have hrun : ((runActs (miningEnv 1) (startLoop (miningEnv 1)).node
        [.updateRound 10]).bind fun n₁ =>
      (runActs (miningEnv 1) n₁ [.produce fun _ => sampleList]).map fun _ => decide <|
        (∃ b ∈ returned (ticketBlock (miningEnv 1).toNodeEnv (fun _ => sampleList) 0) n₁.bc,
          validateBlock (miningEnv 1).toEnv b = .ok (some 1) ∧
          ∀ r ∈ n₁.bc.localChains, r.hash ≠ hex b.hash) ∧
        ∃ tip ∈ n₁.bc.localChains.getLast?, tip.round < n₁.bc.currentRound) = some true := by
    decide +kernel
  obtain ⟨n₁, h₁, hrun⟩ := Option.bind_eq_some_iff.mp hrun
  obtain ⟨n, h, hseen⟩ := Option.map_eq_some_iff.mp hrun
  obtain ⟨⟨b, hblock, hvalid, hfresh⟩, hlater⟩ := of_decide_eq_true hseen
  obtain ⟨hupdate, hproduce⟩ := mining_steps h₁ h
  have hadopts : CanAdopt (miningEnv 1) (fun _ => sampleList) n₁ :=
    ⟨rfl, ⟨b, hblock, ⟨1, hvalid, by decide⟩, hfresh⟩, hlater⟩
  have hkeeps : Ledger.Keeps (miningEnv 1) sampleRowEnv ⟨n₁, sampleMempool⟩
      (.produce [sampleTransaction]) := by
    intro list mempool hlist
    rw [sampleMempool_list] at hlist
    cases hlist
    exact hadopts
  have hquiet : (miningLedger 1).Keeps (miningEnv 1) sampleRowEnv (.act (.updateRound 10)) :=
    fun b hb => hb.elim
  have hreaches : (miningLedger 1).Reaches (miningEnv 1) sampleRowEnv
      ⟨n, sampleMempool.patch ["1"]⟩ :=
    .tail (.single ⟨_, hupdate, hquiet⟩) ⟨_, hproduce, hkeeps⟩
  exact ⟨_, hreaches, rfl, transactions_conserved rfl (startLoop_started _ (by decide +kernel))
    (mining_free 1) hreaches⟩

end Cpos
