import Cpos.BlockChain
import Cpos.Network

/-!
# A node

`cpos/node.py`: how a node treats a block it is sent, how it produces one,
and how it answers and asks for blocks when it resynchronizes. The loop is
not modelled as one function; each branch of it is a `NodeCall`, and a
run is a sequence of them.

Log lines, message sizes and the counters of the loop itself are left
out. A block that a node sends on can be printed: the loop has logged it,
or the node has made it.
-/

namespace Cpos

open Python ByteString

inductive State where
  | listening
  | resyncing
deriving DecidableEq

/-- What a node is set up with. `sign` is the private key's, `choose n k`
the position that the `k`-th `random.choice` picks in a list of `n`. -/
structure NodeEnv (K : Type) [PyNum K] extends Env K where
  id : Bytes
  publicKey : Bytes
  sign : Bytes → Bytes
  useMockTransactions : Bool
  broadcastCreatedBlock : Bool
  broadcastReceivedBlock : Bool
  delivers : Nat → Bool
  choose : Nat → Nat → Nat

/-- The attributes of a node that change. `missed` and `requestIndex` are
variables of the loop that a resync sets, `choices` counts the random
choices. -/
structure Node where
  bc : BlockChain
  network : Network
  state : State
  missedBlocks : List (Block × Bytes)
  receivedResyncBlocks : List Block
  missed : Option (Block × Bytes)
  requestIndex : Option Int
  choices : Nat
  producedBlocks : Nat
  discardedBlocks : Nat
  insertedBlocks : Nat
  sentBlocks : Nat
  resyncs : Nat
  successfullResyncs : Nat

abbrev NodeCall (α : Type) := EStateM PyErr Node α

variable {K : Type} [PyNum K]

/-- A method of `self.bc`. -/
def onChain {α : Type} (x : Call α) : NodeCall α :=
  focus Node.bc (fun n bc => { n with bc }) x

/-- A method of `self.network`. -/
def onNetwork {α : Type} (x : Network.Call α) : NodeCall α :=
  focus Node.network (fun n network => { n with network }) x

section Parts

variable {α : Type} {n : Node} {bc : BlockChain} {network : Network}

theorem onChain_ok {x : Call α} {a : α} (h : x n.bc = .ok a bc) :
    onChain x n = .ok a { n with bc } := focus_ok h

theorem onChain_error {x : Call α} {e : PyErr} (h : x n.bc = .error e bc) :
    onChain x n = .error e { n with bc } := focus_error h

theorem onNetwork_ok {x : Network.Call α} {a : α} (h : x n.network = .ok a network) :
    onNetwork x n = .ok a { n with network } := focus_ok h

end Parts

/-! ## Messages -/

def sendMessage (env : NodeEnv K) (destPeerId : Bytes) : NodeCall Bool :=
  onNetwork (Network.send env.delivers destPeerId)

/-- `for peer in self.network.known_peers`, from position `i`. The list
can lose elements while it is walked, and then the walk skips one; it
gains none, so its length at the start bounds the number of turns. -/
def broadcastFrom (env : NodeEnv K) (invalidPeers : List Bytes) : Nat → Nat → NodeCall Unit
  | 0, _ => return ()
  | turns + 1, i => do
      match (← get).network.knownPeers[i]? with
      | none => return ()
      | some peer =>
          if peer ∉ invalidPeers then
            modify fun n => { n with sentBlocks := n.sentBlocks + 1 }
            let _ ← sendMessage env peer
          broadcastFrom env invalidPeers turns (i + 1)

def broadcastMessage (env : NodeEnv K) (invalidPeers : List Bytes) : NodeCall Unit := do
  broadcastFrom env invalidPeers (← get).network.knownPeers.length 0

/-! ## Producing a block -/

/-- One turn of the loop of `generate_block`. `mock i` is the list that
`MockTransactionList()` makes in turn `i`. -/
def generateCandidate (env : NodeEnv K) (mock : Int → TransactionList)
    (candidate : Option Block) (i : Int) : Call (Option Block) := do
  let tx := if env.useMockTransactions then mock i else TransactionList.new
  let block ← eval (Block.init (← getLastBlockHash) tx env.publicKey [] (← get).currentRound
    (← numberOfBlocks) i)
  let block ← eval (block.sign env.sign)
  let block := { block with ticketNumber := i }
  match ← eval (validateBlock env.toEnv block) with
  | none => return candidate
  | some winningTickets =>
      if winningTickets = 0 then return candidate
      match candidate with
      | none => return some block
      | some best => return if block.proofHash < best.proofHash then some block else some best

def generateBlock (env : NodeEnv K) (mock : Int → TransactionList) : Call (Option Block) :=
  (rangeUp 0 (lookupNodeStake env.id)).foldlM (generateCandidate env mock) none

/-- The loop's block production, once a round. A node that does not
broadcast its blocks does not insert them either. -/
def produceBlock (env : NodeEnv K) (mock : Int → TransactionList) : NodeCall Unit := do
  match ← onChain (generateBlock env mock) with
  | none => return ()
  | some newBlock =>
      if env.broadcastCreatedBlock then
        modify fun n => { n with producedBlocks := n.producedBlocks + 1 }
        let _ ← onChain (insert env.toEnv newBlock)
        broadcastMessage env []

/-! ## Receiving a block -/

def discard : NodeCall Bool := do
  modify fun n => { n with discardedBlocks := n.discardedBlocks + 1 }
  return false

def forwardBlock (env : NodeEnv K) (block : Block) (peerId : Bytes) : NodeCall Unit := do
  if env.broadcastReceivedBlock then broadcastMessage env [peerId, block.ownerPubkey]

/-- The end of `handle_new_block`: the block is forwarded and inserted. -/
def insertNewBlock (env : NodeEnv K) (block : Block) (peerId : Bytes) : NodeCall Bool := do
  forwardBlock env block peerId
  if !(← onChain (insert env.toEnv block)) then
    modify fun n => { n with missedBlocks := n.missedBlocks ++ [(block, peerId)] }
    return ← discard
  modify fun n => { n with insertedBlocks := n.insertedBlocks + 1 }
  return true

def handleNewBlock (env : NodeEnv K) (block : Block) (peerId : Bytes) : NodeCall Bool := do
  let round := (← get).bc.currentRound
  let tolerance := env.parameters.tolerance
  if !(round ≤ block.round && block.round < round + tolerance + 1) then return ← discard
  if block.ownerPubkey = env.publicKey then return ← discard
  if ← onChain (blockInBlockchain block) then return ← discard
  if (← get).missedBlocks.any fun missed => hex missed.1.hash = hex block.hash then
    return ← discard
  insertNewBlock env block peerId

/-! ## Resynchronizing -/

/-- The block a `ResyncResponse` to a request for `blockIndex` carries. -/
def resyncAnswer (blockIndex : Int) : Call (Option Block) := do
  if (← numberOfBlocks) > |blockIndex| then return some (← blockByIndex blockIndex)
  else return none

def endResync : NodeCall Unit :=
  modify fun n => { n with
    state := .listening
    receivedResyncBlocks := []
    bc := { n.bc with forkDetected := false } }

/-- `self.bc.merge(self.received_resync_blocks)`, which works on the
node's own list. A merge that raises ends the loop, and what it leaves of
the list is left out. -/
def mergeReceived (env : NodeEnv K) : NodeCall Bool := do
  let (merged, foreignBlocks) ← onChain (merge env.toEnv (← get).receivedResyncBlocks)
  modify fun n => { n with receivedResyncBlocks := foreignBlocks }
  return merged

/-- Asks the peer that sent `missed` for its block at `requestIndex`. -/
def sendRequest (env : NodeEnv K) : NodeCall Bool := do
  match (← get).missed with
  | none => throw .unboundLocalError
  | some (_, peerId) => sendMessage env peerId

/-- `random.choice` of a missed block, which leaves the list, and the
first index to ask its sender for. -/
def chooseMissed (env : NodeEnv K) (n : Node) : Node :=
  let length := n.missedBlocks.length
  match n.missedBlocks[env.choose length n.choices % length]? with
  | none => n
  | some missed =>
      { n with
        missed := some missed
        missedBlocks := n.missedBlocks.erase missed
        choices := n.choices + 1
        requestIndex := some (-1) }

/-- Chooses missed blocks until a request to the sender of one goes out;
each choice shortens the list. -/
def findResyncPeer (env : NodeEnv K) : Nat → NodeCall Bool
  | 0 => return false
  | turns + 1 => do
      modify (chooseMissed env)
      if ← sendRequest env then return true
      findResyncPeer env turns

/-- The start of a resync, at the top of the loop. -/
def startResync (env : NodeEnv K) : NodeCall Unit := do
  let n ← get
  if n.state = .listening ∧ n.bc.forkDetected ∧ n.missedBlocks ≠ [] then
    if ← findResyncPeer env n.missedBlocks.length then
      modify fun n => { n with state := .resyncing, resyncs := n.resyncs + 1 }

/-- The resync was successful. -/
def completeResync : NodeCall Unit := do
  endResync
  modify fun n => { n with
    missedBlocks := []
    successfullResyncs := n.successfullResyncs + 1 }

/-- Asks for the block before the one asked for last. -/
def requestOlder (env : NodeEnv K) : NodeCall Unit := do
  match (← get).requestIndex with
  | none => throw .unboundLocalError
  | some requestIndex =>
      modify fun n => { n with requestIndex := some (requestIndex - 1) }
      let _ ← sendRequest env

/-- The treatment of a `ResyncResponse` by a resyncing node. -/
def handleResyncResponse (env : NodeEnv K) (blockReceived : Option Block) : NodeCall Unit := do
  match blockReceived with
  | none =>
      modify fun n => { n with receivedResyncBlocks := [] }
      if (← get).missedBlocks ≠ [] then
        modify (chooseMissed env)
        let _ ← sendRequest env
      else
        endResync
  | some block =>
      modify fun n => { n with receivedResyncBlocks := block :: n.receivedResyncBlocks }
      if ← mergeReceived env then completeResync else requestOlder env

end Cpos
