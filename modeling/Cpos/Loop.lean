import Mathlib.Logic.Relation
import Cpos.NodeRun
import Cpos.Session

/-!
# The loop of a node

`Node.loop`, turn by turn. A turn starts a resync if one is due, updates
the round, produces a block when the round has changed, and handles at
most one message. What comes from outside during a turn is its `Turn`:
the message, the peers the beacon names, the random picks, the mock
transactions and the fuel of the loops of `update_round`. Halting is a
turn that does nothing. Notifying the beacon, dumping data, the counters
of messages and the log are left out, but not that a message whose block
cannot be printed ends the loop where it is logged.

A turn is a sequence of `Act`s of the node (`loopTurn_acts`). Everything
that is shown for acts in any order holds for the loop.
-/

namespace Cpos

open Python ByteString LinkedChain BlockChain

variable {K : Type} [PyNum K]

/-! ## Peers -/

namespace Network

/-- `connect` to a peer whose identity is known. -/
def connect (peerId : Bytes) (network : Network) : Network :=
  { network.setFailedMsgCount peerId (some 0) with
    knownPeers := network.knownPeers ++ [peerId] }

/-- `read`: the sender of a message becomes a known peer. -/
def read (sender : Bytes) (network : Network) : Network :=
  if sender ∈ network.knownPeers then network else network.connect sender

/-- The peers that the beacon names, except the node itself and those
already known. -/
def connectAll (id : Bytes) (peers : List Bytes) (network : Network) : Network :=
  peers.foldl (fun network peerId =>
    if peerId = id ∨ peerId ∈ network.knownPeers then network else network.connect peerId) network

end Network

/-! ## Messages -/

/-- The ports that a `Hello` and the peer lists name are left out. -/
inductive Message where
  | hello (peerId : Bytes)
  | blockBroadcast (block : Block) (peerId : Bytes)
  | peerListRequest
  | peerList
  | peerForgetRequest (peerId : Bytes)
  | resyncRequest (peerId : Bytes) (blockIndex : Int)
  | resyncResponse (blockReceived : Option Block)

/-- `f"{msg}"`, as far as the numbers of a block can make it raise. -/
def Message.str : Message → Except PyErr Unit
  | .blockBroadcast block _ => do let _ ← block.str
  | _ => return ()

/-- What the loop is set up with besides. -/
structure LoopEnv (K : Type) [PyNum K] extends NodeEnv K where
  period : Option Int
  totalRounds : Option Int
  minimumNumPeers : Int
  maximumNumPeers : Int

def answerRequest (env : NodeEnv K) (peerId : Bytes) (blockIndex : Int) : NodeCall Unit := do
  let _ ← onChain (resyncAnswer blockIndex)
  let _ ← sendMessage env peerId

/-- The branches for a message. A resyncing node answers requests, and
treats nothing else but responses. -/
def handleMessage (env : NodeEnv K) (msg : Message) : NodeCall Unit := do
  match (← get).state, msg with
  | .listening, .blockBroadcast block peerId =>
      let _ ← handleNewBlock env block peerId
  | .listening, .peerForgetRequest peerId => onNetwork (modify (Network.forgetPeer peerId))
  | .resyncing, .resyncResponse blockReceived => handleResyncResponse env blockReceived
  | _, .resyncRequest peerId blockIndex => answerRequest env peerId blockIndex
  | _, _ => return ()

/-! ## The number of peers -/

/-- `while len(known_peers) > maximum_num_peers`. Each turn forgets a
peer, so one turn more than there are peers is enough; `pick n` is the
position `random.sample` picks among `n`. -/
def forgetSurplus (env : LoopEnv K) (pick : Nat → Nat) : Nat → NodeCall Unit
  | 0 => return ()
  | turns + 1 => do
      let knownPeers := (← get).network.knownPeers
      if knownPeers.length > env.maximumNumPeers then
        match knownPeers[pick knownPeers.length % knownPeers.length]? with
        | none => throw (.valueError "Sample larger than population or is negative")
        | some peerId =>
            let _ ← sendMessage env.toNodeEnv peerId
            onNetwork (modify (Network.forgetPeer peerId))
            forgetSurplus env pick turns

def controlNumberOfPeers (env : LoopEnv K) (additionalPeers : Option (List Bytes))
    (pick : Nat → Nat) : NodeCall Unit := do
  if (← get).network.knownPeers.length < env.minimumNumPeers then
    onNetwork (modify (Network.connectAll env.id (additionalPeers.getD [])))
  forgetSurplus env pick ((← get).network.knownPeers.length + 1)

/-! ## A turn -/

/-- `round` is the loop's own variable: the round it saw last, or, at
first, the genesis timestamp. -/
structure Loop where
  node : Node
  round : Option Int
  initialRound : Int
  nodeOnConsensus : Bool

abbrev LoopCall (α : Type) := EStateM PyErr Loop α

def onNode {α : Type} (x : NodeCall α) : LoopCall α :=
  focus Loop.node (fun l node => { l with node }) x

/-- What comes from outside during a turn. -/
structure Turn where
  fuel : Nat
  mock : Int → TransactionList
  received : Option (Bytes × Message)
  additionalPeers : Option (List Bytes)
  pick : Nat → Nat

def halts (env : LoopEnv K) (l : Loop) : Bool :=
  match env.totalRounds with
  | none => false
  | some totalRounds => l.node.bc.currentRound ≥ l.initialRound + totalRounds

/-- `round != self.bc.current_round`. -/
def roundChanged (env : LoopEnv K) (l : Loop) : Bool :=
  let current := l.node.bc.currentRound
  match l.round with
  | none => !(PyNum.le (PyNum.ofInt current) env.genesisTimestamp
      && PyNum.le env.genesisTimestamp (PyNum.ofInt current))
  | some round => round ≠ current

/-- The top of the loop. Returns whether the turn goes on: it does not
when a resync is due and no peer can be asked. -/
def beginTurn (env : NodeEnv K) : NodeCall Bool := do
  let n ← get
  startResync env
  return !(n.state = .listening ∧ n.bc.forkDetected ∧ n.missedBlocks ≠ [])
    || (← get).state = .resyncing

/-- A node takes part from the first round that its period divides on. -/
def joinConsensus (env : LoopEnv K) : LoopCall Bool := do
  let l ← get
  if l.nodeOnConsensus then return true
  match env.period with
  | none => return false
  | some period =>
      if period = 0 then throw .zeroDivisionError
      if l.node.bc.currentRound % period = 0 then
        set { l with nodeOnConsensus := true }
        return true
      else return false

/-- What a change of the round sets off. Returns whether the turn goes
on. -/
def newRound (env : LoopEnv K) (mock : Int → TransactionList) : LoopCall Bool := do
  if roundChanged env (← get) then
    modify fun l => { l with round := some l.node.bc.currentRound }
    if !(← joinConsensus env) then return false
    onNode (produceBlock env.toNodeEnv mock)
  return true

/-- Reads a message, if there is one, prints it and handles it. -/
def receiveMessage (env : LoopEnv K) (t : Turn) : NodeCall Unit := do
  match t.received with
  | none => return ()
  | some (sender, msg) =>
      onNetwork (modify (Network.read sender))
      eval msg.str
      handleMessage env.toNodeEnv msg
      controlNumberOfPeers env t.additionalPeers t.pick

def loopTurn (env : LoopEnv K) (t : Turn) : LoopCall Unit := do
  if halts env (← get) then return ()
  if !(← onNode (beginTurn env.toNodeEnv)) then return ()
  onNode (onChain (updateRound env.toEnv t.fuel))
  if !(← newRound env t.mock) then return ()
  onNode (receiveMessage env t)

/-- A node as `__init__` leaves it. -/
structure Node.Started (env : NodeEnv K) (n : Node) : Prop where
  bc : ∃ fuel, updateRound env.toEnv fuel .init = .ok () n.bc
  state : n.state = .listening
  missedBlocks : n.missedBlocks = []
  receivedResyncBlocks : n.receivedResyncBlocks = []

/-! ## Acts -/

/-- What a node does in a turn, one thing after another. -/
inductive Act where
  | startResync
  | updateRound (fuel : Nat)
  | produce (mock : Int → TransactionList)
  | read (sender : Bytes)
  | handle (msg : Message)
  | controlPeers (additionalPeers : Option (List Bytes)) (pick : Nat → Nat)

def Act.call (env : LoopEnv K) : Act → NodeCall Unit
  | .startResync => Cpos.startResync env.toNodeEnv
  | .updateRound fuel => onChain (Cpos.updateRound env.toEnv fuel)
  | .produce mock => produceBlock env.toNodeEnv mock
  | .read sender => onNetwork (modify (Network.read sender))
  | .handle msg => handleMessage env.toNodeEnv msg
  | .controlPeers additionalPeers pick => controlNumberOfPeers env additionalPeers pick

/-- The act leads from `n` to `n'`. -/
def Act.Leads (env : LoopEnv K) (a : Act) (n n' : Node) : Prop := a.call env n = .ok () n'

/-- Acts, any number and in any order, lead from `n` to `n'`. -/
def Acts (env : LoopEnv K) : Node → Node → Prop :=
  Relation.ReflTransGen fun n n' => ∃ a : Act, a.Leads env n n'

variable {env : LoopEnv K}

theorem Act.Leads.acts {a : Act} {n n' : Node} (h : a.Leads env n n') : Acts env n n' :=
  .single ⟨a, h⟩

/-- The acts of a list, if none of them raises. -/
def runActs (env : LoopEnv K) : Node → List Act → Option Node
  | n, [] => some n
  | n, a :: acts =>
      match a.call env n with
      | .ok _ n' => runActs env n' acts
      | .error _ _ => none

theorem runActs_cons {a : Act} {acts : List Act} {n n' : Node}
    (h : runActs env n (a :: acts) = some n') :
    ∃ n₁, a.Leads env n n₁ ∧ runActs env n₁ acts = some n' := by
  rw [runActs] at h
  cases hcall : a.call env n with
  | error e n₁ =>
      rw [hcall] at h
      cases h
  | ok _ n₁ =>
      rw [hcall] at h
      exact ⟨n₁, hcall, h⟩

def Act.isResponse : Act → Bool
  | .handle (.resyncResponse _) => true
  | _ => false

/-- A run of acts, each of them restricted in some way. -/
theorem runActs_leads {C : Act → Node → Prop} {acts : List Act}
    (hacts : ∀ a ∈ acts, ∀ n, C a n) : ∀ {n n' : Node}, runActs env n acts = some n' →
      Relation.ReflTransGen (fun n n' => ∃ a : Act, a.Leads env n n' ∧ C a n) n n' := by
  induction acts with
  | nil =>
      intro n n' h
      cases h
      exact .refl
  | cons a acts ih =>
      intro n n' h
      obtain ⟨ha, hrest⟩ := List.forall_mem_cons.mp hacts
      obtain ⟨n₁, hleads, h₁⟩ := runActs_cons h
      exact .head ⟨a, hleads, ha n⟩ (ih hrest h₁)

theorem runActs_acts {acts : List Act} {n n' : Node} (h : runActs env n acts = some n') :
    Acts env n n' := by
  have hleads := runActs_leads (C := fun _ _ => True) (fun _ _ _ => trivial) h
  exact Relation.ReflTransGen.mono (fun _ _ ⟨a, ha, _⟩ => ⟨a, ha⟩) _ _ hleads

theorem onNode_eq_ok {α : Type} {x : NodeCall α} {r : α} {l l' : Loop}
    (h : onNode x l = .ok r l') : ∃ n', x l.node = .ok r n' ∧ l' = { l with node := n' } :=
  focus_eq_ok h

theorem beginTurn_acts {n n' : Node} {r : Bool} (h : beginTurn env.toNodeEnv n = .ok r n') :
    Acts env n n' := by
  have h' : (startResync env.toNodeEnv >>= fun _ => get >>= fun m : Node =>
      pure (!(n.state = .listening ∧ n.bc.forkDetected ∧ n.missedBlocks ≠ [])
        || m.state = .resyncing) : NodeCall Bool) n = .ok r n' := h
  obtain ⟨_, n₁, hstart, hrest⟩ := bind_eq_ok h'
  cases hrest
  exact (show Act.startResync.Leads env n n' from hstart).acts

theorem joinConsensus_node {l l' : Loop} {r : Bool} (h : joinConsensus env l = .ok r l') :
    l'.node = l.node := by
  have h' : (if l.nodeOnConsensus then pure true else _ : LoopCall Bool) l = .ok r l' := h
  by_cases hjoined : l.nodeOnConsensus = true
  · rw [if_pos hjoined] at h'
    cases h'
    rfl
  rw [if_neg hjoined] at h'
  cases hperiod : env.period with
  | none =>
      rw [hperiod] at h'
      cases h'
      rfl
  | some period =>
      rw [hperiod] at h'
      by_cases hzero : period = 0
      · simp only [if_pos hzero] at h'
        cases h'
      simp only [if_neg hzero] at h'
      have h'' : (if l.node.bc.currentRound % period = 0 then
          (do set { l with nodeOnConsensus := true }; return true) else pure false :
          LoopCall Bool) l = .ok r l' := h'
      split at h''
      · cases h''
        rfl
      · cases h''
        rfl

theorem newRound_acts {mock : Int → TransactionList} {l l' : Loop} {r : Bool}
    (h : newRound env mock l = .ok r l') : Acts env l.node l'.node := by
  have h' : (if roundChanged env l then _ else pure true : LoopCall Bool) l = .ok r l' := h
  split at h'
  · obtain ⟨_, l₁, hmodify, h₁⟩ := bind_eq_ok h'
    cases hmodify
    obtain ⟨joined, l₂, hjoin, h₂⟩ := bind_eq_ok h₁
    have hnode := joinConsensus_node hjoin
    cases joined with
    | false =>
        cases h₂
        rw [hnode]
        exact .refl
    | true =>
        obtain ⟨_, l₃, hproduce, h₃⟩ := bind_eq_ok h₂
        cases h₃
        obtain ⟨n', hn', rfl⟩ := onNode_eq_ok hproduce
        rw [hnode] at hn'
        exact (show (Act.produce mock).Leads env l.node n' from hn').acts
  · cases h'
    exact .refl

theorem receiveMessage_acts {t : Turn} {n n' : Node} (h : receiveMessage env t n = .ok () n') :
    Acts env n n' := by
  rw [receiveMessage] at h
  cases hreceived : t.received with
  | none =>
      rw [hreceived] at h
      cases h
      exact .refl
  | some received =>
      obtain ⟨sender, msg⟩ := received
      rw [hreceived] at h
      obtain ⟨_, n₁, hread, h₁⟩ := bind_eq_ok h
      obtain ⟨_, n₁', hprint, h₁'⟩ := bind_eq_ok h₁
      obtain ⟨-, rfl⟩ := eval_eq_ok hprint
      obtain ⟨_, n₂, hhandle, h₂⟩ := bind_eq_ok h₁'
      exact .trans (show (Act.read sender).Leads env n n₁ from hread).acts
        (.trans (show (Act.handle msg).Leads env n₁ n₂ from hhandle).acts
          (show (Act.controlPeers t.additionalPeers t.pick).Leads env n₂ n' from h₂).acts)

/-- **A turn is a sequence of acts.** -/
theorem loopTurn_acts {t : Turn} {l l' : Loop} (h : loopTurn env t l = .ok () l') :
    Acts env l.node l'.node := by
  have h' : (if halts env l then pure () else _ : LoopCall Unit) l = .ok () l' := h
  by_cases hhalts : halts env l = true
  · rw [if_pos hhalts] at h'
    cases h'
    exact .refl
  rw [if_neg hhalts] at h'
  obtain ⟨goesOn, l₁, hbegin, h₁⟩ := bind_eq_ok h'
  obtain ⟨n₁, hn₁, rfl⟩ := onNode_eq_ok hbegin
  have hbegins := beginTurn_acts hn₁
  cases goesOn with
  | false =>
      cases h₁
      exact hbegins
  | true =>
      obtain ⟨_, l₂, hupdate, h₂⟩ := bind_eq_ok h₁
      obtain ⟨n₂, hn₂, rfl⟩ := onNode_eq_ok hupdate
      have hupdates : Acts env n₁ n₂ :=
        (show (Act.updateRound t.fuel).Leads env n₁ n₂ from hn₂).acts
      obtain ⟨goesOn, l₃, hround, h₃⟩ := bind_eq_ok h₂
      have hrounds := newRound_acts hround
      cases goesOn with
      | false =>
          cases h₃
          exact (hbegins.trans hupdates).trans hrounds
      | true =>
          obtain ⟨n₄, hn₄, rfl⟩ := onNode_eq_ok h₃
          exact ((hbegins.trans hupdates).trans hrounds).trans (receiveMessage_acts hn₄)

/-- The turns of a list, if none of them raises. -/
def runTurns (env : LoopEnv K) : Loop → List Turn → Option Loop
  | l, [] => some l
  | l, t :: turns =>
      match loopTurn env t l with
      | .ok _ l' => runTurns env l' turns
      | .error _ _ => none

/-- Turns, any number of them. -/
def Turns (env : LoopEnv K) : Loop → Loop → Prop :=
  Relation.ReflTransGen fun l l' => ∃ t : Turn, loopTurn env t l = .ok () l'

theorem Turns.acts {l l' : Loop} (h : Turns env l l') : Acts env l.node l'.node := by
  induction h with
  | refl => exact .refl
  | tail _ hturn ih =>
      obtain ⟨t, ht⟩ := hturn
      exact ih.trans (loopTurn_acts ht)

theorem runTurns_turns {turns : List Turn} : ∀ {l l' : Loop},
    runTurns env l turns = some l' → Turns env l l' := by
  induction turns with
  | nil =>
      intro l l' h
      cases h
      exact .refl
  | cons t turns ih =>
      intro l l' h
      rw [runTurns] at h
      cases hturn : loopTurn env t l with
      | error e l₁ =>
          rw [hturn] at h
          cases h
      | ok _ l₁ =>
          rw [hturn] at h
          exact .head ⟨t, hturn⟩ (ih h)

/-! ## A node on the sample network -/

/-- A third node on the sample network, with these readings of the clock
and these blocks signed. -/
def loopEnv (time : Clock ℚ) (blocks : List Block) : LoopEnv ℚ where
  toNodeEnv := { sampleNodeEnv with
    toEnv := { sampleEnv.signed blocks with time }
    broadcastReceivedBlock := false }
  period := none
  totalRounds := none
  minimumNumPeers := 4
  maximumNumPeers := 8

/-- The node knows `bob` when its loop starts. -/
def startLoop (env : LoopEnv ℚ) : Loop where
  node := { sampleNode with
    bc := after (updateRound env.toEnv 10) .init
    network := {
      knownPeers := [bob]
      peerFailedMsgCount := fun peerId => if peerId = bob then some 0 else none
      attempts := 0 } }
  round := none
  initialRound := 0
  nodeOnConsensus := false

theorem startLoop_started (env : LoopEnv ℚ)
    (h : returned (updateRound env.toEnv 10) .init = some ()) :
    (startLoop env).node.Started env.toNodeEnv :=
  ⟨⟨10, ok_of_returned h⟩, rfl, rfl, rfl⟩

/-- A turn in which `bob` sends this message, if any. -/
def sampleTurn (msg : Option Message) : Turn where
  fuel := 10
  mock _ := .new
  received := msg.map fun msg => (bob, msg)
  additionalPeers := none
  pick := id

/-- The acts of a turn in which `bob` sends these messages. -/
def sampleActs (msgs : List Message) : List Act :=
  [.startResync, .updateRound 10] ++ msgs.flatMap fun msg =>
    [.read bob, .handle msg, .controlPeers none id]

/-- The node stores `a1` and misses `a3`. In round 3 it detects a fork and
asks `bob`, who answers. -/
def askingActs : List Act :=
  sampleActs [] ++ sampleActs [.blockBroadcast a1 bob] ++ sampleActs [.blockBroadcast a3 bob]
    ++ sampleActs [] ++ [.startResync, .updateRound 10, .read bob]

/-- A clock that stands in round 1 until two blocks have come, and then in
round 3. -/
def stepTime : Clock ℚ := .ofNat fun k => if k = 0 then 0 else if k ≤ 4 then 5 else 15

theorem stepTime_monotone : Monotone stepTime.reading := by
  refine Clock.ofNat_monotone fun i j hij => ?_
  split_ifs
  all_goals omega

end Cpos
