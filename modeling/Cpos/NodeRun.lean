import Cpos.Node
import Cpos.Run

/-!
# Runs of a listening node

A listening node is sent blocks, produces blocks and updates its round. A
run is followed together with its history, the blocks handed to `insert`
so far; a call that raises ends the run.

The inversion theorem is `op_stepped`. Broadcasting, forwarding and
producing do not touch the store, so a call either hands no block to
`insert` and confirms rows at most, or is one insertion. A block that
`handle_new_block` inserts without success is among the missed ones
afterwards.
-/

namespace Cpos

open Python ByteString LinkedChain BlockChain

variable {K : Type} [PyNum K] {env : NodeEnv K}

/-! ## Runs of a node -/

/-- What a listening node does with its chain. -/
inductive NodeOp where
  | deliver (block : Block) (peerId : Bytes)
  | produce (mock : Int → TransactionList)
  | updateRound (fuel : Nat)

def NodeOp.call (env : NodeEnv K) : NodeOp → NodeCall Unit
  | .deliver block peerId => do let _ ← handleNewBlock env block peerId
  | .produce mock => produceBlock env mock
  | .updateRound fuel => onChain (Cpos.updateRound env.toEnv fuel)

/-- A block handed to `insert`: whether the node produced it, and whether
`insert` returned `True`. -/
structure Event where
  block : Block
  own : Bool
  stored : Bool

/-- The block passes the filters of `handle_new_block`. -/
def admits (env : NodeEnv K) (n : Node) (block : Block) : Bool :=
  (n.bc.currentRound ≤ block.round
      && block.round < n.bc.currentRound + env.parameters.tolerance + 1)
    && block.ownerPubkey ≠ env.publicKey
    && !(n.bc.localChains.any fun r => r.id = hex block.hash)
    && !(n.missedBlocks.any fun missed => hex missed.1.hash = hex block.hash)

theorem admits_iff {n : Node} {b : Block} : admits env n b = true ↔
    (n.bc.currentRound ≤ b.round ∧ b.round < n.bc.currentRound + env.parameters.tolerance + 1) ∧
      b.ownerPubkey ≠ env.publicKey ∧ (∀ r ∈ n.bc.localChains, r.id ≠ hex b.hash) ∧
      ∀ missed ∈ n.missedBlocks, missed.1.hash ≠ b.hash := by
  simp only [admits, Bool.and_eq_true, Bool.not_eq_true', decide_eq_true_eq, List.any_eq_false,
    hex_inj]
  tauto

/-- Neither the chain nor `missed_blocks` holds the hash. -/
def Unknown (n : Node) (hash : Bytes) : Prop :=
  (∀ r ∈ n.bc.localChains, r.hash ≠ hex hash) ∧ ∀ missed ∈ n.missedBlocks, missed.1.hash ≠ hash

instance (n : Node) (hash : Bytes) : Decidable (Unknown n hash) :=
  inferInstanceAs (Decidable (_ ∧ _))

/-- The block a call hands to `insert`. -/
def handed (env : NodeEnv K) (n : Node) : NodeOp → Option Block
  | .deliver block peerId =>
      if admits env n block ∧ returned (forwardBlock env block peerId) n = some () then some block
      else none
  | .produce mock =>
      if env.broadcastCreatedBlock then
        (returned (generateBlock env mock) n.bc).getD none
      else none
  | .updateRound _ => none

def NodeOp.isOwn : NodeOp → Bool
  | .produce _ => true
  | _ => false

/-- The history after a call, the latest block first. -/
def record (env : NodeEnv K) (n : Node) (history : List Event) (op : NodeOp) : List Event :=
  match handed env n op with
  | none => history
  | some block =>
      ⟨block, op.isOwn, returned (insert env.toEnv block) n.bc = some true⟩ :: history

/-- A run with its history. A call that raises ends the node's loop. -/
def nodeRun (env : NodeEnv K) : Node × List Event → List NodeOp → Node × List Event
  | run, [] => run
  | (n, history), op :: ops =>
      match op.call env n with
      | .ok _ n' => nodeRun env (n', record env n history op) ops
      | .error _ n' => (n', record env n history op)

/-! ## What broadcasting and producing leave alone -/

/-- The store and the missed blocks are the same. -/
def SameStore (n n' : Node) : Prop := n'.bc = n.bc ∧ n'.missedBlocks = n.missedBlocks

instance : Std.Refl SameStore where
  refl _ := ⟨rfl, rfl⟩

instance : IsTrans Node SameStore where
  trans _ _ _ h h' := ⟨h'.1.trans h.1, h'.2.trans h.2⟩

/-- Messages have been sent, or tried. -/
def Sends (n n' : Node) : Prop :=
  ∃ network sentBlocks, n' = { n with network, sentBlocks }

instance : Std.Refl Sends where
  refl n := ⟨n.network, n.sentBlocks, rfl⟩

instance : IsTrans Node Sends where
  trans := by
    rintro n _ _ ⟨_, _, rfl⟩ ⟨network, sentBlocks, rfl⟩
    exact ⟨network, sentBlocks, rfl⟩

theorem Sends.sameStore {n n' : Node} (h : Sends n n') : SameStore n n' := by
  obtain ⟨network, sentBlocks, rfl⟩ := h
  exact ⟨rfl, rfl⟩

theorem sendMessage_sends (peerId : Bytes) : Keeps Sends (sendMessage env peerId) :=
  fun n => by
    rw [sendMessage, onNetwork, after_focus]
    exact ⟨_, n.sentBlocks, rfl⟩

theorem keeps_modify_node {f : Node → Node} (hf : ∀ n, Sends n (f n)) :
    Keeps Sends (modify f : NodeCall Unit) := fun n => hf n

theorem broadcastFrom_sends (invalidPeers : List Bytes) :
    ∀ turns i, Keeps Sends (broadcastFrom env invalidPeers turns i)
  | 0, _ => keeps_pure _
  | turns + 1, i => by
      rw [broadcastFrom]
      refine keeps_bind keeps_get fun n => ?_
      split
      · exact keeps_pure _
      · split
        · exact keeps_bind (keeps_modify_node fun m => ⟨m.network, _, rfl⟩) fun _ =>
            keeps_bind (sendMessage_sends _) fun _ => broadcastFrom_sends _ turns _
        · exact broadcastFrom_sends _ turns _

theorem broadcastMessage_sends (invalidPeers : List Bytes) :
    Keeps Sends (broadcastMessage env invalidPeers) :=
  keeps_bind keeps_get fun _ => broadcastFrom_sends _ _ _

theorem broadcastMessage_sameStore (invalidPeers : List Bytes) :
    Keeps SameStore (broadcastMessage env invalidPeers) :=
  fun n => (broadcastMessage_sends invalidPeers n).sameStore

theorem generateCandidate_keeps (mock : Int → TransactionList) (candidate : Option Block)
    (i : Int) : Keeps Eq (generateCandidate env mock candidate i) := by
  refine keeps_bind keeps_getLastBlockHash fun _ => keeps_bind keeps_get fun _ =>
    keeps_bind keeps_numberOfBlocks fun _ => keeps_bind (keeps_eval _) fun _ =>
    keeps_bind (keeps_eval _) fun _ => keeps_bind (keeps_eval _) fun r => ?_
  cases r with
  | none => exact keeps_pure _
  | some w =>
      show Keeps Eq (if w = 0 then _ else _ : Call (Option Block))
      split
      · exact keeps_pure _
      · cases candidate with
        | none => exact keeps_pure _
        | some best => exact keeps_pure _

theorem generateBlock_keeps (mock : Int → TransactionList) :
    Keeps Eq (generateBlock env mock) :=
  keeps_foldlM (fun candidate i => generateCandidate_keeps mock candidate i) _ _

/-! ## One call -/

/-- What a call does to the store and the missed blocks: nothing but
confirmations, or one insertion. A block inserted without success by
`handle_new_block` is then among the missed ones. -/
inductive Stepped (env : NodeEnv K) (n : Node) (op : NodeOp) (n' : Node) (ok : Bool) : Prop
  | idle (h : handed env n op = none) (hbc : Confirms n.bc n'.bc)
      (hmissed : n'.missedBlocks = n.missedBlocks)
  | inserted (block : Block) (h : handed env n op = some block)
      (hbc : n'.bc = after (insert env.toEnv block) n.bc)
      (hmissed : n.missedBlocks ⊆ n'.missedBlocks)
      (hcovered : ok = true → returned (insert env.toEnv block) n.bc = some true ∨ op.isOwn ∨
        ∃ missed ∈ n'.missedBlocks, missed.1.hash = block.hash)

/-- `Stepped` for a result. -/
def SteppedTo (env : NodeEnv K) (n : Node) (op : NodeOp) :
    EStateM.Result PyErr Node Unit → Prop
  | .ok _ n' => Stepped env n op n' true
  | .error _ n' => Stepped env n op n' false

theorem run_onChain_blockInBlockchain (block : Block) (n : Node) :
    onChain (blockInBlockchain block) n
      = .ok (n.bc.localChains.any fun r => r.id = hex block.hash) n := by
  show EStateM.Result.ok _ n = _
  rw [List.head?_filter, List.isSome_find?]

theorem run_handleNewBlock (block : Block) (peerId : Bytes) (n : Node) :
    handleNewBlock env block peerId n =
      if admits env n block then insertNewBlock env block peerId n
      else .ok false { n with discardedBlocks := n.discardedBlocks + 1 } := by
  rw [handleNewBlock]
  show (if _ then _ else _ : NodeCall Bool) n = _
  by_cases hround : n.bc.currentRound ≤ block.round
      ∧ block.round < n.bc.currentRound + env.parameters.tolerance + 1
  swap
  · have hround' : (decide (n.bc.currentRound ≤ block.round)
        && decide (block.round < n.bc.currentRound + env.parameters.tolerance + 1)) = false := by
      rw [← Bool.decide_and, decide_eq_false hround]
    rw [admits, hround']
    rfl
  rw [if_neg (by simpa using hround)]
  show (if _ then _ else _ : NodeCall Bool) n = _
  by_cases hown : block.ownerPubkey = env.publicKey
  · rw [if_pos hown, if_neg (by simp [admits, hown])]
    rfl
  rw [if_neg hown, bind_ok (run_onChain_blockInBlockchain block n)]
  by_cases hknown : (n.bc.localChains.any fun r => r.id = hex block.hash) = true
  · rw [if_pos hknown, if_neg (by rw [admits, hknown]; simp)]
    rfl
  rw [if_neg hknown]
  show (if _ then _ else _ : NodeCall Bool) n = _
  by_cases hmissed : (n.missedBlocks.any fun missed => hex missed.1.hash = hex block.hash) = true
  · rw [if_pos hmissed, if_neg (by rw [admits, hmissed]; simp)]
    rfl
  rw [if_neg hmissed, if_pos]
  simp only [admits, Bool.and_eq_true, Bool.not_eq_true', decide_eq_true_eq]
  exact ⟨⟨⟨hround, hown⟩, Bool.eq_false_iff.mpr hknown⟩, Bool.eq_false_iff.mpr hmissed⟩

theorem forwardBlock_sends (block : Block) (peerId : Bytes) :
    Keeps Sends (forwardBlock env block peerId) := by
  unfold forwardBlock
  split
  · exact broadcastMessage_sends _
  · exact keeps_pure _

theorem forwardBlock_sameStore (block : Block) (peerId : Bytes) :
    Keeps SameStore (forwardBlock env block peerId) :=
  fun n => (forwardBlock_sends block peerId n).sameStore

theorem run_insertNewBlock {n n₁ : Node} {block : Block} {peerId : Bytes}
    (hforward : forwardBlock env block peerId n = .ok () n₁) :
    insertNewBlock env block peerId n =
      match insert env.toEnv block n₁.bc with
      | .ok true bc => .ok true { n₁ with bc, insertedBlocks := n₁.insertedBlocks + 1 }
      | .ok false bc => .ok false { n₁ with
          bc
          missedBlocks := n₁.missedBlocks ++ [(block, peerId)]
          discardedBlocks := n₁.discardedBlocks + 1 }
      | .error e bc => .error e { n₁ with bc } := by
  rw [insertNewBlock, bind_ok hforward]
  cases h : insert env.toEnv block n₁.bc with
  | ok r bc =>
      rw [bind_ok (onChain_ok h)]
      cases r with
      | true => rfl
      | false => rfl
  | error e bc =>
      rw [bind_error (onChain_error h)]

theorem run_discarded {α : Type} (x : NodeCall α) (n : Node) :
    (do let _ ← x : NodeCall Unit) n =
      match x n with
      | .ok _ n' => .ok () n'
      | .error e n' => .error e n' := by
  cases h : x n with
  | ok a n' => rw [bind_ok h]; rfl
  | error e n' => rw [bind_error h]

theorem deliver_stepped (n : Node) (block : Block) (peerId : Bytes) :
    SteppedTo env n (.deliver block peerId) ((NodeOp.deliver block peerId).call env n) := by
  rw [NodeOp.call, run_discarded, run_handleNewBlock]
  by_cases hadmits : admits env n block = true
  swap
  · have hnone : handed env n (.deliver block peerId) = none := by
      rw [handed, if_neg fun h => hadmits h.1]
    rw [if_neg hadmits]
    exact .idle hnone (confirms_of_eq rfl) rfl
  rw [if_pos hadmits]
  have hsame : SameStore n (after (forwardBlock env block peerId) n) :=
    forwardBlock_sameStore block peerId n
  cases hforward : forwardBlock env block peerId n with
  | error e n₁ =>
      have hnone : handed env n (.deliver block peerId) = none := by
        rw [handed, returned_error hforward, if_neg (by simp)]
      rw [after_error hforward] at hsame
      rw [insertNewBlock, bind_error hforward]
      exact .idle hnone (confirms_of_eq (congrArg BlockChain.localChains hsame.1)) hsame.2
  | ok _ n₁ =>
      have hsome : handed env n (.deliver block peerId) = some block := by
        rw [handed, returned_ok hforward, if_pos ⟨hadmits, rfl⟩]
      rw [after_ok hforward] at hsame
      obtain ⟨hbc, hmissed⟩ := hsame
      have hsub : n.missedBlocks ⊆ n₁.missedBlocks := by
        rw [hmissed]
        exact List.Subset.refl _
      rw [run_insertNewBlock hforward, hbc]
      cases h : insert env.toEnv block n.bc with
      | ok r bc =>
          cases r with
          | true =>
              exact .inserted block hsome (after_ok h).symm hsub fun _ => .inl (returned_ok h)
          | false =>
              refine .inserted block hsome (after_ok h).symm ?_ fun _ => .inr (.inr ?_)
              · exact List.subset_append_of_subset_left _ hsub
              · exact ⟨(block, peerId), List.mem_append_right _ (List.mem_singleton_self _), rfl⟩
      | error e bc =>
          exact .inserted block hsome (after_error h).symm hsub (by simp)

/-- An own block is inserted, and broadcast whatever `insert` returned. -/
theorem insertOwn_stepped {n n₁ : Node} {op : NodeOp} {newBlock : Block} (hbc : n₁.bc = n.bc)
    (hmissed : n₁.missedBlocks = n.missedBlocks) (hown : op.isOwn = true)
    (hsome : handed env n op = some newBlock) :
    SteppedTo env n op
      ((onChain (insert env.toEnv newBlock) >>= fun _ => broadcastMessage env []) n₁) := by
  have hinserted {n' : Node} (hbc' : n'.bc = after (insert env.toEnv newBlock) n.bc)
      (hmissed' : n'.missedBlocks = n₁.missedBlocks) (ok : Bool) : Stepped env n op n' ok := by
    refine .inserted newBlock hsome hbc' ?_ fun _ => .inr (.inl hown)
    rw [hmissed', hmissed]
    exact List.Subset.refl _
  rw [← hbc] at hinserted
  cases h : insert env.toEnv newBlock n₁.bc with
  | error e bc =>
      rw [bind_error (onChain_error h)]
      exact @hinserted { n₁ with bc } (after_error h).symm rfl false
  | ok r bc =>
      rw [bind_ok (onChain_ok h)]
      have hkeeps : Keeps SameStore (broadcastMessage env []) := broadcastMessage_sameStore []
      cases hbroadcast : broadcastMessage env [] { n₁ with bc } with
      | ok _ n' =>
          have hsame := hkeeps.of_ok hbroadcast
          exact hinserted (hsame.1.trans (after_ok h).symm) hsame.2 true
      | error e n' =>
          have hsame := hkeeps.of_error hbroadcast
          exact hinserted (hsame.1.trans (after_ok h).symm) hsame.2 false

theorem produce_stepped (n : Node) (mock : Int → TransactionList) :
    SteppedTo env n (.produce mock) ((NodeOp.produce mock).call env n) := by
  rw [NodeOp.call, produceBlock]
  cases hgen : generateBlock env mock n.bc with
  | error e bc =>
      have hkeeps : n.bc = bc := (generateBlock_keeps mock).of_error hgen
      have hnone : handed env n (.produce mock) = none := by
        rw [handed, returned_error hgen]
        split <;> rfl
      rw [bind_error (onChain_error hgen)]
      exact .idle hnone (confirms_of_eq (by rw [hkeeps])) rfl
  | ok r bc =>
      have hkeeps : n.bc = bc := (generateBlock_keeps mock).of_ok hgen
      rw [bind_ok (onChain_ok hgen)]
      cases r with
      | none =>
          have hnone : handed env n (.produce mock) = none := by
            rw [handed, returned_ok hgen]
            split <;> rfl
          exact .idle hnone (confirms_of_eq (by rw [hkeeps])) rfl
      | some newBlock =>
          show SteppedTo env n (.produce mock) ((if _ then _ else _ : NodeCall Unit) _)
          by_cases hcreated : env.broadcastCreatedBlock = true
          · have hsome : handed env n (.produce mock) = some newBlock := by
              rw [handed, if_pos hcreated, returned_ok hgen]
              rfl
            rw [if_pos hcreated]
            let n₁ : Node := { n with bc, producedBlocks := n.producedBlocks + 1 }
            have hbc : n₁.bc = n.bc := hkeeps.symm
            exact insertOwn_stepped hbc rfl rfl hsome
          · have hnone : handed env n (.produce mock) = none := by
              rw [handed, if_neg hcreated]
            rw [if_neg hcreated]
            exact .idle hnone (confirms_of_eq (by rw [hkeeps])) rfl

theorem op_stepped (n : Node) (op : NodeOp) : SteppedTo env n op (op.call env n) := by
  cases op with
  | deliver block peerId => exact deliver_stepped n block peerId
  | produce mock => exact produce_stepped n mock
  | updateRound fuel =>
      rw [NodeOp.call]
      cases h : updateRound env.toEnv fuel n.bc with
      | ok _ bc =>
          rw [onChain_ok h]
          exact .idle rfl ((updateRound_confirms fuel).of_ok h) rfl
      | error e bc =>
          rw [onChain_error h]
          exact .idle rfl ((updateRound_confirms fuel).of_error h) rfl

/-! ## A node on the sample network -/

/-- A third node on the sample network. -/
def sampleNodeEnv : NodeEnv ℚ where
  toEnv := sampleEnv
  id := []
  publicKey := bytesOf 32 1
  sign _ := []
  useMockTransactions := false
  broadcastCreatedBlock := true
  broadcastReceivedBlock := true
  delivers _ := true
  choose _ _ := 0

def sampleNode : Node where
  bc := .init
  network := { knownPeers := [], peerFailedMsgCount := fun _ => none, attempts := 0 }
  state := .listening
  missedBlocks := []
  receivedResyncBlocks := []
  missed := none
  requestIndex := none
  choices := 0
  producedBlocks := 0
  discardedBlocks := 0
  insertedBlocks := 0
  sentBlocks := 0
  resyncs := 0
  successfullResyncs := 0

end Cpos
