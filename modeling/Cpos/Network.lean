import Mathlib.Logic.Function.Basic
import Cpos.ByteString
import Cpos.Python

/-!
# The peers of a node

`cpos/p2p/network.py` without its sockets: the list of known peers and
the count of failed messages for each. Whether the socket takes a message
is up to the surroundings: `delivers k` is the outcome of the `k`-th
attempt.
-/

namespace Cpos

open Python ByteString

/-- `peerFailedMsgCount` is the dictionary; `attempts` counts the calls of
`send_multipart` so far. -/
structure Network where
  knownPeers : List Bytes
  peerFailedMsgCount : Bytes → Option Nat
  attempts : Nat

namespace Network

abbrev Call (α : Type) := EStateM PyErr Network α

def setFailedMsgCount (network : Network) (peerId : Bytes) (count : Option Nat) : Network :=
  { network with
    peerFailedMsgCount := Function.update network.peerFailedMsgCount peerId count }

/-- The first occurrence in the list goes, and the count; a peer that is
not in the list raises a `ValueError`, which is caught. -/
def forgetPeer (peerId : Bytes) (network : Network) : Network :=
  if peerId ∈ network.knownPeers then
    { network.setFailedMsgCount peerId none with
      knownPeers := network.knownPeers.erase peerId }
  else network

/-- A message is lost when the peer is unknown or the socket refuses it;
the third refusal in a row makes the network forget the peer. -/
def send (delivers : Nat → Bool) (peerId : Bytes) : Call Bool := do
  let network ← get
  if peerId ∈ network.knownPeers then
    set { network with attempts := network.attempts + 1 }
    if delivers network.attempts then
      modify fun network => network.setFailedMsgCount peerId (some 0)
      return true
    else
      match network.peerFailedMsgCount peerId with
      | none => throw .keyError
      | some count =>
          modify fun network => network.setFailedMsgCount peerId (some (count + 1))
          if count + 1 ≥ 3 then modify (forgetPeer peerId)
          return false
  else return false

/-- A message to a known peer that the socket takes. -/
theorem run_send_delivered {delivers : Nat → Bool} {peerId : Bytes} {network : Network}
    (hpeer : peerId ∈ network.knownPeers) (hdelivers : delivers network.attempts = true) :
    send delivers peerId network
      = .ok true ({ network with attempts := network.attempts + 1 }.setFailedMsgCount
          peerId (some 0)) := by
  show (if _ then _ else _ : Call Bool) network = _
  rw [if_pos hpeer]
  show (if _ then _ else _ : Call Bool) _ = _
  rw [if_pos hdelivers]
  rfl

theorem run_send_unknown {delivers : Nat → Bool} {peerId : Bytes} {network : Network}
    (hpeer : peerId ∉ network.knownPeers) : send delivers peerId network = .ok false network := by
  show (if _ then _ else _ : Call Bool) network = _
  rw [if_neg hpeer]
  rfl

end Network

end Cpos
