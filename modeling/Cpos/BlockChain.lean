import Mathlib.Data.List.Sort
import Cpos.Block
import Cpos.Sortition

/-!
# The block chain of a node

`cpos/core/blockchain.py` over the table of `cpos/db/localBlockchain.sql`.

The table is a list of rows in insertion order. Each SQL statement the
code issues is one small definition: `SELECT` filters (and sorts, where
the query does), `UPDATE` maps, `DELETE` filters, `INSERT` appends after
the checks of the server in strict mode: a value outside its column's
range is a `DataError` (also where the connector fails on it before the
server does), a second row with the same `(id, block_index)` an
`IntegrityError`. The readings of the clock are those that `arrive_time`
can hold (`Clock`). The counts in `numSuc` are not bounded: a count leaves
its column after 2³¹ blocks counted on one unconfirmed row.

All statements go through one connection and every write is committed by
the method that makes it, so the rows a raising method leaves behind are
those written so far. How long a statement the server takes is a matter of
its settings and not limited here.

A method is a `Call`: it reads and changes the object's attributes and
the table, and returns or raises. What is logged is left out, but not that
a block whose round or index has too many digits cannot be printed, at
which the log lines of `insert` and `merge` raise, and the query of
`has_correct_parent`. The other queries name positions of the table.
-/

namespace Cpos

open Python ByteString

/-! ## The table -/

/-- A row of `localChains`, the columns in the table's order. Hashes and
keys are hexadecimal text. -/
structure Row where
  blockIndex : Int
  id : List Char
  round : Int
  parentHash : List Char
  hash : List Char
  ownerPubkey : List Char
  signedNodeHash : List Char
  merkleRoot : List Char
  ticketNumber : Int
  transactions : String
  arriveTime : Int
  fork : Int
  confirmed : Int
  subuser : Int
  proofHash : List Char
  numSuc : Int
  roundStable : Int
deriving DecidableEq

/-- The range of an `INTEGER` column. -/
def fitsInteger (n : Int) : Bool := -2 ^ 31 ≤ n && n < 2 ^ 31

/-- `VARCHAR(255)`. -/
def fitsVarchar (t : List Char) : Bool := t.length ≤ 255

def fitsLongtext (t : String) : Bool := t.utf8ByteSize < 2 ^ 32

/-- Every value that comes from a block or from the clock is in the range
of its column. The other columns hold flags, and a count that is zero or
was in the table before. -/
def Row.fits (r : Row) : Bool :=
  fitsInteger r.blockIndex && fitsVarchar r.id && fitsInteger r.round && fitsVarchar r.parentHash
    && fitsVarchar r.hash && fitsVarchar r.ownerPubkey && fitsVarchar r.signedNodeHash
    && fitsVarchar r.merkleRoot && fitsInteger r.ticketNumber && fitsLongtext r.transactions
    && fitsInteger r.arriveTime && fitsVarchar r.proofHash

/-! ## The object and its surroundings -/

structure BlockChainParameters (K : Type) where
  roundTime : K
  tolerance : Int
  tau : Int
  totalStake : Int

/-- A clock: `reading k` is what the `k`-th call of `time()` returns. Its
readings are those of a clock before the year 2038. -/
structure Clock (K : Type) [PyNum K] where
  reading : Nat → K
  fits : ∀ k, fitsInteger (PyNum.column (reading k)) = true

instance (K : Type) [PyNum K] : CoeFun (Clock K) fun _ => Nat → K := ⟨Clock.reading⟩

/-- What a node's block chain is set up with and does not change: the
parameters, the genesis timestamp, the clock and the Ed25519
implementation.
`fromPublicBytes` tells whether `from_public_bytes` accepts a key, which
needs 32 bytes; `verify key signature message` whether `verify` returns
without `InvalidSignature`. -/
structure Env (K : Type) [PyNum K] where
  parameters : BlockChainParameters K
  genesisTimestamp : K
  time : Clock K
  fromPublicBytes : Bytes → Bool
  fromPublicBytes_length : ∀ key, fromPublicBytes key = true → key.length = 32
  verify : Bytes → Bytes → Bytes → Bool

/-- The attributes of a `BlockChain` that change, with its table. `clock`
counts the readings of the clock so far. -/
structure BlockChain where
  localChains : List Row
  lastConfirmationDelay : Int
  forkDetected : Bool
  forksDetected : Nat
  currentRound : Int
  confirmationDelays : List (Bytes × Int × Int)
  clock : Nat
deriving DecidableEq

abbrev Call (α : Type) := EStateM PyErr BlockChain α

variable {K : Type} [PyNum K]

def time (env : Env K) : Call K := do
  let s ← get
  set { s with clock := s.clock + 1 }
  return env.time s.clock

/-! ## Statements -/

def selectWhere (p : Row → Bool) : Call (List Row) := do
  return (← get).localChains.filter p

/-- `ORDER BY block_index ASC`. -/
def orderByAsc (rows : List Row) : List Row :=
  rows.insertionSort fun r r' => r.blockIndex ≤ r'.blockIndex

/-- `ORDER BY block_index DESC`. -/
def orderByDesc (rows : List Row) : List Row :=
  rows.insertionSort fun r r' => r'.blockIndex ≤ r.blockIndex

/-- `cursor.fetchone()[0]`, or unpacking what `fetchone` returns: a
`TypeError` when there is no row. -/
def fetchone (rows : List Row) : Call Row :=
  match rows.head? with
  | some r => return r
  | none => throw .typeError

/-- `bytes.fromhex(t)`. -/
def bytesFromHex (t : List Char) : Call Bytes :=
  match fromhex t with
  | some bs => return bs
  | none => throw (.valueError "non-hexadecimal number found in fromhex() arg")

/-- `INSERT INTO localChains (...) VALUES (...)`. -/
def insertRow (r : Row) : Call Unit := do
  let s ← get
  if !r.fits then throw .dataError
  if s.localChains.any fun r' => r'.id = r.id && r'.blockIndex = r.blockIndex then
    throw .integrityError
  set { s with localChains := s.localChains ++ [r] }

/-! ## Queries of the class -/

def blockInBlockchain (block : Block) : Call Bool := do
  let rows ← selectWhere fun r => r.id = hex block.hash
  return rows.head?.isSome

def numberOfBlocks : Call Int := do
  return (← get).localChains.length

def hasCorrectParent (block : Block) : Call Bool := do
  let _ ← eval (strInt (block.index - 1))
  let row ← fetchone (← selectWhere fun r => r.blockIndex = block.index - 1)
  let hash ← bytesFromHex row.hash
  return hash = block.parentHash

def deleteBlocksSince (index : Int) : Call Unit :=
  modify fun s => { s with localChains := s.localChains.filter fun r => !(r.blockIndex ≥ index) }

def lastConfirmedBlockInfo : Call (Int × Bytes × Int) := do
  let row ← fetchone (orderByDesc (← selectWhere fun r => r.confirmed = 1))
  return (row.blockIndex, ← bytesFromHex row.id, row.round)

def lastBlockId : Call Bytes := do
  let row ← fetchone (orderByDesc (← selectWhere fun _ => true))
  bytesFromHex row.id

def oldestUnconfirmedBlock : Call (Int × Bytes × Int × Int) := do
  let row ← fetchone (orderByAsc (← selectWhere fun r => r.confirmed = 0))
  return (row.blockIndex, ← bytesFromHex row.id, row.numSuc, row.round)

/-- The `UPDATE` of `confirm_block` on one row. -/
def Row.confirm (id : Bytes) (r : Row) : Row :=
  if r.id = hex id then { r with confirmed := 1 } else r

def confirmBlock (id : Bytes) : Call Unit :=
  modify fun s => { s with localChains := s.localChains.map (Row.confirm id) }

/-- The `UPDATE` of `update_successfull_sortition` on one row. -/
def Row.count (index winningTickets : Int) (r : Row) : Row :=
  if r.blockIndex < index ∧ r.confirmed = 0 then { r with numSuc := r.numSuc + winningTickets }
  else r

def updateSuccessfullSortition (index winningTickets : Int) : Call Unit :=
  modify fun s => { s with localChains := s.localChains.map (Row.count index winningTickets) }

def getProofHashOfBlock (index : Int) : Call Bytes := do
  let row ← fetchone (← selectWhere fun r => r.blockIndex = index)
  bytesFromHex row.proofHash

def getRoundOfBlock (index : Int) : Call Int := do
  let row ← fetchone (← selectWhere fun r => r.blockIndex = index)
  return row.round

def getLastBlockHash : Call Bytes := do
  let row ← fetchone (orderByDesc (← selectWhere fun _ => true))
  bytesFromHex row.hash

/-- `[id, block_index]`, or `None`. -/
def blockOfHash (hash : Bytes) : Call (Option (Bytes × Int)) := do
  let rows := orderByAsc (← selectWhere fun r => r.hash = hex hash)
  match rows.head? with
  | some row => return some (← bytesFromHex row.id, row.blockIndex)
  | none => return none

def blocksSinceIndex (index : Int) : Call (List Row) := do
  return orderByAsc (← selectWhere fun r => r.blockIndex ≥ index)

/-- One `INSERT` for each saved row, then one commit. -/
def reintroduceBlocks : List Row → Call Unit
  | [] => return ()
  | row :: rows => do
      insertRow row
      reintroduceBlocks rows

/-! ## Rows and blocks -/

/-- The row `insert_block` writes. -/
def Block.toRow (block : Block) (arriveTime confirmed : Int) : Row where
  blockIndex := block.index
  id := hex block.hash
  round := block.round
  parentHash := hex block.parentHash
  hash := hex block.hash
  ownerPubkey := hex block.ownerPubkey
  signedNodeHash := hex block.signedNodeHash
  merkleRoot := hex block.transactionHash
  ticketNumber := block.ticketNumber
  transactions := block.transactions
  arriveTime
  fork := 0
  confirmed
  subuser := 0
  proofHash := hex block.proofHash
  numSuc := 0
  roundStable := 0

def insertBlock (block : Block) (arriveTime : K) (confirmed : Int) : Call Unit :=
  insertRow (block.toRow (PyNum.column arriveTime) confirmed)

/-- The row of the genesis block, as `BlockChain.__init__` inserts it. -/
def genesisRow : Row := genesisBlock.toRow 0 1

/-- Rebuilds a block from a row: columns 3, 5, 6, 2, 0, 8 and 9 of
`SELECT *`, through the constructor. -/
def composeBlock (row : Row) : Call Block := do
  let transactionList := TransactionList.new.setTransactions row.transactions
  let parentHash ← bytesFromHex row.parentHash
  let ownerPubkey ← bytesFromHex row.ownerPubkey
  let signedNodeHash ← bytesFromHex row.signedNodeHash
  eval (Block.init parentHash transactionList ownerPubkey signedNodeHash row.round row.blockIndex
    row.ticketNumber)

def blockByIndex (blockIndex : Int) : Call Block := do
  let numberOfBlocks ← numberOfBlocks
  let blockIndex := if blockIndex < 0 then numberOfBlocks + blockIndex else blockIndex
  let row ← fetchone (← selectWhere fun r => r.blockIndex = blockIndex)
  composeBlock row

/-- The first `n` blocks, rebuilt from their rows. -/
def lastNBlocks (n : Int) : Call (List Block) := do
  let rows := (orderByAsc (← selectWhere fun _ => true)).take n.toNat
  rows.mapM composeBlock

/-! ## Validation -/

def lookupNodeStake (_nodeId : Bytes) : Int := 1

def lookupTotalStake (env : Env K) : Int := env.parameters.totalStake

/-- `validate_block` for a node of the given stake: `None`, or the
winning tickets. -/
def validateBlockOfStake (env : Env K) (stake : Int) (block : Block) :
    Except PyErr (Option Int) := do
  if !env.fromPublicBytes block.ownerPubkey then return none
  if !env.verify block.ownerPubkey block.signedNodeHash block.nodeHash then return none
  let totalStake := lookupTotalStake env
  let successProbability ←
    PyNum.truediv (PyNum.ofInt env.parameters.tau : K) (PyNum.ofInt totalStake)
  let winningTickets ← runSortition block.signedNodeHash stake successProbability
  if winningTickets = 0 ∨ winningTickets < block.ticketNumber then return none
  return some winningTickets

def validateBlock (env : Env K) (block : Block) : Except PyErr (Option Int) :=
  validateBlockOfStake env (lookupNodeStake block.ownerPubkey) block

/-! ## Insertion -/

/-- The end of `insert`: the round rule, the log line, and the replacement
of the suffix. -/
def insertAtIndex (env : Env K) (block : Block) : Call Bool := do
  let parentIdx := block.index - 1
  if block.round ≤ (← getRoundOfBlock parentIdx) then return false
  let _ ← eval block.str
  deleteBlocksSince block.index
  insertBlock block (← time env) 0
  return true

/-- What `insert` does once the block is counted; at an occupied index
the proof hashes are compared first. -/
def insertCounted (env : Env K) (block : Block) : Call Bool := do
  if (← numberOfBlocks) > block.index then
    if block.proofHash ≥ (← getProofHashOfBlock block.index) then return false
  insertAtIndex env block

def insert (env : Env K) (block : Block) : Call Bool := do
  if ← blockInBlockchain block then return false
  if block.index = 0 then return false
  if block.index > (← numberOfBlocks) then return false
  if !(← hasCorrectParent block) then return false
  match ← eval (validateBlock env block) with
  | none => return false
  | some winningTickets =>
      if winningTickets = 0 then return false
      updateSuccessfullSortition block.index winningTickets
      insertCounted env block

/-! ## Merging -/

/-- `for block in foreign_blocks: if not self.insert(block): break`. -/
def insertUntilRejected (env : Env K) : List Block → Call Unit
  | [] => return ()
  | block :: blocks => do
      if ← insert env block then insertUntilRejected env blocks

/-- `f"{blocks}"`. -/
def strBlocks (blocks : List Block) : Except PyErr String := do
  return strList (← blocks.mapM Block.str)

/-- Returns the result with the caller's list as the call leaves it:
`pop(0)` takes the head off once an ancestor is found. -/
def merge (env : Env K) (foreignBlocks : List Block) : Call (Bool × List Block) := do
  let _ ← eval (strBlocks foreignBlocks)
  match foreignBlocks with
  | [] => throw .indexError
  | first :: rest =>
      match ← blockOfHash first.parentHash with
      | none => return (false, first :: rest)
      | some (_, idx) =>
          let originalLocalSubchain ← blocksSinceIndex (idx + 1)
          deleteBlocksSince (idx + 1)
          if !(← insert env first) then
            reintroduceBlocks originalLocalSubchain
            return (false, rest)
          insertUntilRejected env rest
          return (true, rest)

/-! ## Rounds -/

/-- The locals of `update_round` that outlive an iteration of its loop. -/
structure RoundLocals (K : Type) where
  oldestIndex : Int
  deltaR : Int
  successfulAvg : Option K

/-- `while block_confirmed: ...`. -/
def confirmLoop (env : Env K) (round lastConfirmedBlockRound : Int) (thresholdFuel : Nat)
    (successfulAvg : Option K) : Nat → Call (RoundLocals K)
  | 0 => throw .outOfFuel
  | fuel + 1 => do
      let (oldestIndex, oldestId, oldestNumSuc, oldestRound) ← oldestUnconfirmedBlock
      let deltaR := round - oldestRound - 1
      if deltaR > 0 ∧ oldestIndex > 0 then
        let avg ← eval (PyNum.truediv (PyNum.ofInt oldestNumSuc : K) (PyNum.ofInt deltaR))
        let confThresh ← eval (confirmationThreshold thresholdFuel env.parameters.totalStake
          env.parameters.tau deltaR (PyNum.literal 1 1000000 : K))
        if PyNum.lt (PyNum.ofInt confThresh) avg then
          confirmBlock oldestId
          modify fun s => { s with
            confirmationDelays := s.confirmationDelays
              ++ [(oldestId, oldestIndex, s.currentRound - oldestRound)]
            lastConfirmationDelay := s.currentRound - lastConfirmedBlockRound }
          confirmLoop env round lastConfirmedBlockRound thresholdFuel (some avg) fuel
        else
          return ⟨oldestIndex, deltaR, some avg⟩
      else
        return ⟨oldestIndex, deltaR, successfulAvg⟩

/-- The fork check after the loop. -/
def detectFork (env : Env K) (thresholdFuel : Nat) (locals : RoundLocals K) : Call Unit := do
  if locals.deltaR > 0 ∧ locals.oldestIndex > 0 then
    let forkThresh ← eval (forkThreshold thresholdFuel env.parameters.totalStake
      env.parameters.tau locals.deltaR (PyNum.literal 95 100 : K))
    match locals.successfulAvg with
    | none => throw .unboundLocalError
    | some avg =>
        if PyNum.lt avg (PyNum.ofInt forkThresh) then
          modify fun s => { s with forkDetected := true, forksDetected := s.forksDetected + 1 }

/-- `update_round`, each of its loops with the given fuel. -/
def updateRound (env : Env K) (fuel : Nat) : Call Unit := do
  let currentTime ← time env
  let deltaT := PyNum.sub currentTime env.genesisTimestamp
  let quotient ← eval (PyNum.truediv deltaT env.parameters.roundTime)
  let round ← eval (PyNum.trunc quotient)
  if (← get).currentRound = round then return ()
  modify fun s => { s with currentRound := round }
  let (_, lastConfirmedBlockId, lastConfirmedBlockRound) ← lastConfirmedBlockInfo
  if lastConfirmedBlockId = (← lastBlockId) then return ()
  let locals ← confirmLoop env round lastConfirmedBlockRound fuel none fuel
  detectFork env fuel locals

end Cpos
