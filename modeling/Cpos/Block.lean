import Cpos.Python
import Cpos.Sha256

/-!
# Blocks and transaction lists

`cpos/core/block.py`, `cpos/core/transactions.py` and the part of
`Node` that signs a block.

A `Block` carries eleven fields; the last three are hashes derived from
the others. `Block.update` computes them and `Block.init` is the
constructor, but a block received from the network is unpickled field by
field, so the derived fields of a value of type `Block` are arbitrary.
`Block.Bound` says that they are the ones `update` computes.

The encodings of `round` and `ticket_number` are partial (four bytes,
unsigned), and so is the constructor.
-/

namespace Cpos

open Python ByteString Sha256

/-! ## Transaction lists -/

/-- The two attributes a block takes from its transaction list. -/
structure TransactionList where
  transactions : String
  transactionsHash : Bytes
deriving DecidableEq

namespace TransactionList

/-- `TransactionList()`: no transactions, and an empty hash. -/
def new : TransactionList where
  transactions := strList []
  transactionsHash := []

/-- Leaves the hash as it is. -/
def setTransactions (t : TransactionList) (transactions : String) : TransactionList :=
  { t with transactions }

end TransactionList

/-- `str.encode()`. -/
def encode (s : String) : Bytes := s.toUTF8.data.toList

/-- `MockTransactionList.get_hash`. -/
def mockGetHash (transactions : String) : Bytes :=
  if transactions = "" then [0] else sha256 (encode transactions)

/-- `MockTransactionList()` when its queries succeed and choose the rows
that print as `rows`. -/
def mockTransactionList (rows : List String) : TransactionList where
  transactions := strList rows
  transactionsHash := mockGetHash (strList rows)

theorem mockGetHash_ne_nil (transactions : String) : mockGetHash transactions ≠ [] := by
  unfold mockGetHash
  split
  · simp
  · exact sha256_ne_nil _

/-! ## Blocks -/

structure Block where
  parentHash : Bytes
  ownerPubkey : Bytes
  signedNodeHash : Bytes
  round : Int
  index : Int
  transactions : String
  transactionHash : Bytes
  ticketNumber : Int
  nodeHash : Bytes
  proofHash : Bytes
  hash : Bytes
deriving DecidableEq

/-- `n.to_bytes(4, "little", signed=False)`. -/
def toBytes4 (n : Int) : Except PyErr Bytes :=
  match toBytesLE 4 n with
  | some bs => .ok bs
  | none => .error .overflowError

namespace Block

def calculateNodeHash (b : Block) : Except PyErr Bytes := do
  return sha256 (b.ownerPubkey ++ (← toBytes4 b.round) ++ b.parentHash)

def calculateProofHash (b : Block) : Except PyErr Bytes := do
  return sha256 (b.nodeHash ++ (← toBytes4 b.ticketNumber))

def calculateHash (b : Block) : Bytes :=
  sha256 (b.proofHash ++ b.parentHash ++ b.transactionHash)

def update (b : Block) : Except PyErr Block := do
  let b := { b with nodeHash := ← b.calculateNodeHash }
  let b := { b with proofHash := ← b.calculateProofHash }
  return { b with hash := b.calculateHash }

/-- `Block(...)`. -/
def init (parentHash : Bytes) (transactionlist : TransactionList)
    (ownerPubkey signedNodeHash : Bytes) (round index ticketNumber : Int) :
    Except PyErr Block :=
  update
    { parentHash, ownerPubkey, signedNodeHash, round, index
      transactions := transactionlist.transactions
      transactionHash := transactionlist.transactionsHash
      ticketNumber
      nodeHash := [], proofHash := [], hash := [] }

/-- `Node.sign_block`, with `sign` for the node's private key. -/
def sign (sign : Bytes → Bytes) (b : Block) : Except PyErr Block :=
  update { b with signedNodeHash := sign b.nodeHash }

/-- `x.hex()[0:8]`. -/
def hexPrefix (x : Bytes) : String := String.ofList ((hex x).take 8)

/-- `__str__`, and `__repr__`. -/
def str (b : Block) : Except PyErr String := do
  let round ← strInt b.round
  let index ← strInt b.index
  return "Block(hash=" ++ hexPrefix b.hash ++ ", parent=" ++ hexPrefix b.parentHash ++ ", owner="
    ++ hexPrefix b.ownerPubkey ++ ", round=" ++ round ++ ", index=" ++ index ++ ", proof_hash="
    ++ hexPrefix b.proofHash ++ ")"

/-- `__str__` returns. -/
def Printable (b : Block) : Prop := b.round.natAbs < strLimit ∧ b.index.natAbs < strLimit

instance (b : Block) : Decidable b.Printable := inferInstanceAs (Decidable (_ ∧ _))

theorem Printable.str_ok {b : Block} (h : b.Printable) : ∃ text, b.str = .ok text := by
  rw [str, strInt_ok h.1, strInt_ok h.2]
  exact ⟨_, rfl⟩

theorem str_error {b : Block} (h : ¬b.Printable) : b.str = .error intTooLong := by
  rw [str]
  by_cases hround : b.round.natAbs < strLimit
  · rw [strInt_ok hround, strInt_error fun hindex => h ⟨hround, hindex⟩]
    rfl
  · rw [strInt_error hround]
    rfl

/-- `b` is what the constructor makes of a transaction list and some
arguments, signed. -/
def BuiltFrom (t : TransactionList) (b : Block) : Prop :=
  ∃ parentHash ownerPubkey signedNodeHash round index ticketNumber key b₀,
    init parentHash t ownerPubkey signedNodeHash round index ticketNumber = .ok b₀
      ∧ b₀.sign key = .ok b

/-- The derived fields are those of the block's own contents. -/
def Bound (b : Block) : Prop := b.update = .ok b

instance (b : Block) : Decidable b.Bound := inferInstanceAs (Decidable (_ = _))

end Block

/-- `GenesisBlock()`. It has no `node_hash` and no `transactions`; the
second is `str([])`, which is what its row stores. -/
def genesisBlock : Block where
  parentHash := [0]
  ownerPubkey := [0]
  signedNodeHash := [0]
  round := 0
  index := 0
  transactions := strList []
  transactionHash := [0]
  ticketNumber := 0
  nodeHash := []
  proofHash := [0]
  hash := [0]

/-! ## What the constructor computes -/

theorem toBytes4_eq_ok {n : Int} {bs : Bytes} (h : toBytes4 n = .ok bs) :
    toBytesLE 4 n = some bs := by
  unfold toBytes4 at h
  split at h
  · next bs' heq => rw [heq, Except.ok.inj h]
  · cases h

namespace Block

/-- `update` writes the three derived fields and nothing else; each is
the hash of the fields it is derived from. -/
theorem update_eq_ok {b b' : Block} (h : b.update = .ok b') :
    ∃ r t, toBytesLE 4 b.round = some r ∧ toBytesLE 4 b.ticketNumber = some t
      ∧ b' = { b with
          nodeHash := sha256 (b.ownerPubkey ++ r ++ b.parentHash)
          proofHash := sha256 (sha256 (b.ownerPubkey ++ r ++ b.parentHash) ++ t)
          hash := sha256 (sha256 (sha256 (b.ownerPubkey ++ r ++ b.parentHash) ++ t)
            ++ b.parentHash ++ b.transactionHash) } := by
  simp only [update, calculateNodeHash, calculateProofHash, calculateHash] at h
  cases hr : toBytes4 b.round with
  | error e => rw [hr] at h; cases h
  | ok r =>
      cases ht : toBytes4 b.ticketNumber with
      | error e => rw [hr, ht] at h; cases h
      | ok t =>
          rw [hr, ht] at h
          exact ⟨r, t, toBytes4_eq_ok hr, toBytes4_eq_ok ht, (Except.ok.inj h).symm⟩

/-- What `update` returns depends on the eight contents only. -/
theorem update_congr {b b' : Block} (nodeHash proofHash hash : Bytes)
    (h : b' = { b with nodeHash, proofHash, hash }) : b'.update = b.update := by
  subst h; rfl

/-- Updating twice is updating once. -/
theorem Bound.of_update {b b' : Block} (h : b.update = .ok b') : b'.Bound := by
  obtain ⟨r, t, -, -, hb'⟩ := update_eq_ok h
  exact (update_congr _ _ _ hb').trans h

theorem BuiltFrom.bound {t : TransactionList} {b : Block} (h : BuiltFrom t b) : b.Bound := by
  obtain ⟨_, _, _, _, _, _, key, b₀, -, hsign⟩ := h
  exact Bound.of_update hsign

theorem BuiltFrom.transactions {t : TransactionList} {b : Block} (h : BuiltFrom t b) :
    b.transactions = t.transactions ∧ b.transactionHash = t.transactionsHash := by
  obtain ⟨_, _, _, _, _, _, key, b₀, hinit, hsign⟩ := h
  obtain ⟨_, _, -, -, rfl⟩ := update_eq_ok hsign
  obtain ⟨_, _, -, -, rfl⟩ := update_eq_ok hinit
  exact ⟨rfl, rfl⟩

/-- The blocks of the constructor are the bound ones. -/
theorem builtFrom_iff {t : TransactionList} {b : Block} :
    b.BuiltFrom t ↔
      b.Bound ∧ b.transactions = t.transactions ∧ b.transactionHash = t.transactionsHash := by
  refine ⟨fun h => ⟨h.bound, h.transactions⟩, fun ⟨hbound, htx, hhash⟩ => ?_⟩
  have hinit : init b.parentHash t b.ownerPubkey b.signedNodeHash b.round b.index b.ticketNumber
      = .ok b := by
    rw [init, ← htx, ← hhash]
    exact (update_congr [] [] [] rfl).trans hbound
  exact ⟨_, _, _, _, _, _, fun _ => b.signedNodeHash, b, hinit, hbound⟩

end Block

end Cpos
