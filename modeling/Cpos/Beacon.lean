import Cpos.ByteString
import Cpos.Python
import Cpos.Registry

/-!
# The beacon

`cpos/p2p/discovery/beacon.py` without its socket and its log: the list
of peers, a flag for each that says whether it was heard from, and the
queue of replies. Peers are equal if their ids are.

The list and the dictionary of flags are written in different orders by
the branches for `Hello` and `NotifyBeacon`, and by the sweep that drops
peers. Each keeps the ids without duplicates and the flags for exactly
those ids (`Consistent.call`), so **no sweep fails to find a flag**
(`beacon_consistent`). A run of the listening loop is a run of messages
and sweeps (`listen_ops`).
-/

namespace Cpos

open Python ByteString Registry

/-! ## Peers and messages -/

structure Peer where
  ip : String
  port : Int
  id : Bytes

/-- `Peer.__eq__`. -/
instance : BEq Peer := ⟨fun self peer => self.id == peer.id⟩

inductive BeaconMessage where
  | hello (port : Int) (id : Bytes) (ip : String)
  | peerList (peers : List Peer)
  | peerListRequest (requesterId : Bytes)
  | notifyBeacon (port : Int) (id : Bytes) (ip : String)

/-- A message and the address it came from. -/
structure Datagram where
  msg : BeaconMessage
  addr : String
  port : Int

/-- A list of `count` peers, picked at random, to an address. -/
structure Reply where
  addr : String
  port : Int
  count : Int
deriving DecidableEq

/-! ## The beacon -/

structure Beacon where
  peers : List Peer
  peersStillAliveFlags : Bytes → Option Nat
  currentRound : Int
  replyQueue : List (String × Int)

namespace Beacon

abbrev Call (α : Type) := EStateM PyErr Beacon α

/-- `Beacon(...)`. -/
def init : Beacon where
  peers := []
  peersStillAliveFlags := fun _ => none
  currentRound := 0
  replyQueue := []

def ids (b : Beacon) : List Bytes := b.peers.map Peer.id

def setFlag (id : Bytes) (flag : Option Nat) (b : Beacon) : Beacon :=
  { b with peersStillAliveFlags := Function.update b.peersStillAliveFlags id flag }

def append (peer : Peer) (b : Beacon) : Beacon := { b with peers := b.peers ++ [peer] }

def queue (addr : String) (port : Int) (b : Beacon) : Beacon :=
  { b with replyQueue := b.replyQueue ++ [(addr, port)] }

/-- The branch for `Hello`. -/
def greet (peer : Peer) : Call Unit := do
  if ¬(← get).peers.contains peer then
    modify (append peer)
    modify (setFlag peer.id (some 1))

/-- The branch for `NotifyBeacon`. -/
def keep (peer : Peer) : Call Unit := do
  modify (setFlag peer.id (some 1))
  if ¬(← get).peers.contains peer then modify (append peer)

/-- `random.sample` raises if `NUM_PEERS_SEND` is negative. -/
def answer (numPeersSend : Int) (addr : String) (port : Int) : Call (Option Reply) := do
  let count := min numPeersSend (← get).peers.length
  if count < 0 then throw (.valueError "Sample larger than population or is negative")
  return some ⟨addr, port, count⟩

/-- What `listen` does with a message. A `Hello` is answered at the
address it names. -/
def handle (numPeersSend : Int) (datagram : Datagram) : Call (Option Reply) := do
  match datagram.msg with
  | .hello port id ip =>
      greet ⟨ip, port, id⟩
      answer numPeersSend ip datagram.port
  | .peerListRequest _ => answer numPeersSend datagram.addr datagram.port
  | .notifyBeacon port id ip =>
      modify (queue datagram.addr datagram.port)
      keep ⟨ip, port, id⟩
      return none
  | .peerList _ =>
      modify (queue datagram.addr datagram.port)
      return none

/-- One peer of the sweep. -/
def sweepPeer (newPeerlist : List Peer) (peer : Peer) : Call (List Peer) := do
  match (← get).peersStillAliveFlags peer.id with
  | none => throw .keyError
  | some flag =>
      if flag = 0 then
        modify (setFlag peer.id none)
        return newPeerlist
      else
        modify (setFlag peer.id (some 0))
        return newPeerlist ++ [peer]

def managePeerForgetting : Call Unit := do
  let newPeerlist ← (← get).peers.foldlM sweepPeer []
  modify fun b => { b with peers := newPeerlist }

def setRound (round : Int) (b : Beacon) : Beacon := { b with currentRound := round }

/-- `round` is read off the clock. -/
def updateRound (round : Int) : Call Unit := do
  if (← get).currentRound = round then return
  modify (setRound round)
  if round % 3 = 0 then managePeerForgetting

/-- The read times out, or yields no message. -/
def receive (numPeersSend : Int) : Option Datagram → Call (Option Reply)
  | none => return none
  | some datagram => handle numPeersSend datagram

/-- A turn of `listen`. -/
def listenTurn (numPeersSend : Int) (round : Int) (received : Option Datagram) :
    Call (Option Reply) := do
  updateRound round
  receive numPeersSend received

end Beacon

/-! ## Runs -/

/-- What happens to a beacon. `newRound` is the assignment in
`update_round`. -/
inductive BeaconOp where
  | message (datagram : Datagram)
  | newRound (round : Int)
  | sweep

def BeaconOp.call (numPeersSend : Int) : BeaconOp → Beacon.Call Unit
  | .message datagram => do let _ ← Beacon.handle numPeersSend datagram
  | .newRound round => modify (Beacon.setRound round)
  | .sweep => Beacon.managePeerForgetting

def beaconRun (numPeersSend : Int) : List BeaconOp → Beacon.Call Unit
  | [] => return ()
  | op :: ops => do
      op.call numPeersSend
      beaconRun numPeersSend ops

/-- `listen`, with what it reads off the clock and from the socket in each
turn. -/
def listen (numPeersSend : Int) : List (Int × Option Datagram) → Beacon.Call Unit
  | [] => return ()
  | (round, received) :: turns => do
      let _ ← Beacon.listenTurn numPeersSend round received
      listen numPeersSend turns

section Runs

variable {numPeersSend : Int}

theorem beaconRun_append (ops ops' : List BeaconOp) :
    beaconRun numPeersSend (ops ++ ops')
      = (beaconRun numPeersSend ops >>= fun _ => beaconRun numPeersSend ops' :
          Beacon.Call Unit) := by
  induction ops with
  | nil => rw [List.nil_append, beaconRun, pure_bind]
  | cons op ops ih => rw [List.cons_append, beaconRun, ih, beaconRun, bind_assoc]

theorem updateRound_ops (numPeersSend round : Int) (b : Beacon) :
    ∃ ops, Beacon.updateRound round b = beaconRun numPeersSend ops b := by
  by_cases hsame : b.currentRound = round
  · refine ⟨[], ?_⟩
    show (if _ then _ else _ : Beacon.Call Unit) b = _
    rw [if_pos hsame]
    rfl
  have hset : Beacon.updateRound round b
      = (if round % 3 = 0 then Beacon.managePeerForgetting else pure () : Beacon.Call Unit)
          (b.setRound round) := by
    show (if _ then _ else _ : Beacon.Call Unit) b = _
    rw [if_neg hsame]
    rfl
  rw [hset]
  by_cases hthird : round % 3 = 0
  · have hrun : beaconRun numPeersSend [.newRound round, .sweep] b
        = (Beacon.managePeerForgetting >>= fun _ => pure () : Beacon.Call Unit)
            (b.setRound round) := rfl
    refine ⟨[.newRound round, .sweep], ?_⟩
    rw [if_pos hthird, hrun, bind_pure_unit]
  · rw [if_neg hthird]
    exact ⟨[.newRound round], rfl⟩

theorem receive_ops (numPeersSend : Int) (received : Option Datagram) :
    ∃ ops, (Beacon.receive numPeersSend received >>= fun _ => pure () : Beacon.Call Unit)
      = beaconRun numPeersSend ops := by
  cases received with
  | none => exact ⟨[], rfl⟩
  | some datagram => exact ⟨[.message datagram], bind_pure_unit.symm⟩

/-- The loop of the beacon is a run of messages and sweeps. -/
theorem listen_ops (numPeersSend : Int) (turns : List (Int × Option Datagram)) :
    ∀ b, ∃ ops, listen numPeersSend turns b = beaconRun numPeersSend ops b := by
  induction turns with
  | nil => exact fun b => ⟨[], rfl⟩
  | cons turn turns ih =>
      intro b
      obtain ⟨round, received⟩ := turn
      obtain ⟨ops₁, hround⟩ := updateRound_ops numPeersSend round b
      obtain ⟨ops₂, hreceive⟩ := receive_ops numPeersSend received
      have hturn : listen numPeersSend ((round, received) :: turns)
          = (Beacon.updateRound round >>= fun _ =>
              (Beacon.receive numPeersSend received >>= fun _ => pure ()) >>= fun _ =>
                listen numPeersSend turns) := by
        rw [listen, Beacon.listenTurn]
        simp only [bind_assoc, pure_bind]
      rw [hturn, hreceive]
      cases hrun : beaconRun numPeersSend ops₁ b with
      | error e b₁ =>
          refine ⟨ops₁, ?_⟩
          rw [bind_error (hround.trans hrun), hrun]
      | ok a b₁ =>
          rw [bind_ok (hround.trans hrun)]
          cases hrun₂ : beaconRun numPeersSend ops₂ b₁ with
          | error e b₂ =>
              refine ⟨ops₁ ++ ops₂, ?_⟩
              rw [bind_error hrun₂, beaconRun_append, bind_ok hrun, hrun₂]
          | ok a b₂ =>
              obtain ⟨ops, hrest⟩ := ih b₂
              refine ⟨ops₁ ++ (ops₂ ++ ops), ?_⟩
              rw [bind_ok hrun₂, hrest, beaconRun_append, bind_ok hrun, beaconRun_append,
                bind_ok hrun₂]

end Runs

/-! ## What the calls do -/

namespace Beacon

variable {b : Beacon} {peer : Peer}

theorem contains_iff : b.peers.contains peer = true ↔ peer.id ∈ b.ids := by
  rw [List.contains_iff_exists_mem_beq, ids, List.mem_map]
  refine exists_congr fun p => and_congr_right fun _ => ?_
  show (peer.id == p.id) = true ↔ p.id = peer.id
  rw [beq_iff_eq, eq_comm]

/-- A peer that is listed is not touched. -/
def greeted (peer : Peer) (b : Beacon) : Beacon :=
  if peer.id ∈ b.ids then b else (b.append peer).setFlag peer.id (some 1)

/-- A peer that is listed only gets its flag. -/
def kept (peer : Peer) (b : Beacon) : Beacon :=
  if peer.id ∈ b.ids then b.setFlag peer.id (some 1)
  else (b.append peer).setFlag peer.id (some 1)

theorem run_greet (peer : Peer) (b : Beacon) : greet peer b = .ok () (greeted peer b) := by
  unfold greeted
  by_cases hlisted : peer.id ∈ b.ids
  · rw [if_pos hlisted]
    show (if _ then _ else _ : Call Unit) b = _
    rw [if_neg (not_not.mpr (contains_iff.mpr hlisted))]
    rfl
  · rw [if_neg hlisted]
    show (if _ then _ else _ : Call Unit) b = _
    rw [if_pos (fun h => hlisted (contains_iff.mp h))]
    rfl

theorem run_keep (peer : Peer) (b : Beacon) : keep peer b = .ok () (kept peer b) := by
  have hcontains : (b.setFlag peer.id (some 1)).peers.contains peer = true ↔ peer.id ∈ b.ids :=
    contains_iff (b := b.setFlag peer.id (some 1))
  unfold kept
  by_cases hlisted : peer.id ∈ b.ids
  · rw [if_pos hlisted]
    show (if _ then _ else _ : Call Unit) (b.setFlag peer.id (some 1)) = _
    rw [if_neg (not_not.mpr (hcontains.mpr hlisted))]
    rfl
  · rw [if_neg hlisted]
    show (if _ then _ else _ : Call Unit) (b.setFlag peer.id (some 1)) = _
    rw [if_pos (fun h => hlisted (hcontains.mp h))]
    rfl

/-- A peer is dropped if its flag was not set since the last sweep. -/
def alive (b : Beacon) (peer : Peer) : Bool := b.peersStillAliveFlags peer.id != some 0

/-- What becomes of a flag. -/
def sweptFlag (b : Beacon) (id : Bytes) : Option Nat :=
  if b.peersStillAliveFlags id = some 0 then none else some 0

/-- The flags after these peers were swept. -/
def sweptFlags (b : Beacon) (peers : List Peer) (id : Bytes) : Option Nat :=
  if id ∈ peers.map Peer.id then b.sweptFlag id else b.peersStillAliveFlags id

theorem run_sweepPeer (newPeerlist : List Peer) (h : (b.peersStillAliveFlags peer.id).isSome) :
    sweepPeer newPeerlist peer b
      = .ok (newPeerlist ++ [peer].filter b.alive) (b.setFlag peer.id (b.sweptFlag peer.id)) := by
  obtain ⟨flag, hflag⟩ := Option.isSome_iff_exists.mp h
  have hrun : sweepPeer newPeerlist peer b
      = (if flag = 0 then modify (setFlag peer.id none) >>= fun _ => pure newPeerlist
          else modify (setFlag peer.id (some 0)) >>= fun _ => pure (newPeerlist ++ [peer]) :
          Call (List Peer)) b := by
    show (match b.peersStillAliveFlags peer.id with | none => _ | some flag => _ :
      Call (List Peer)) b = _
    rw [hflag]
  rw [hrun]
  by_cases hzero : flag = 0
  · rw [if_pos hzero, List.filter_cons_of_neg (by simp [alive, hflag, hzero]), List.filter_nil,
      List.append_nil, sweptFlag, if_pos (hflag.trans (congrArg some hzero))]
    rfl
  · rw [if_neg hzero, List.filter_cons_of_pos (by simp [alive, hflag, hzero]), List.filter_nil,
      sweptFlag, if_neg (by simp [hflag, hzero])]
    rfl

theorem run_sweepPeers (peers : List Peer) :
    ∀ (newPeerlist : List Peer) (b : Beacon), (peers.map Peer.id).Nodup →
      (∀ peer ∈ peers, (b.peersStillAliveFlags peer.id).isSome) →
      peers.foldlM sweepPeer newPeerlist b
        = .ok (newPeerlist ++ peers.filter b.alive)
            { b with peersStillAliveFlags := b.sweptFlags peers } := by
  induction peers with
  | nil =>
      intro newPeerlist b _ _
      rw [List.foldlM_nil, List.filter_nil, List.append_nil]
      rfl
  | cons peer peers ih =>
      intro newPeerlist b hnodup hflags
      obtain ⟨hpeer, hpeers⟩ := List.nodup_cons.mp hnodup
      -- the flags of the other peers are as they were
      have hothers (id : Bytes) (hid : id ≠ peer.id) :
          (b.setFlag peer.id (b.sweptFlag peer.id)).peersStillAliveFlags id
            = b.peersStillAliveFlags id := Function.update_of_ne hid _ _
      have hne (p : Peer) (hp : p ∈ peers) : p.id ≠ peer.id := fun heq =>
        hpeer (heq ▸ List.mem_map_of_mem hp)
      have halive : peers.filter (b.setFlag peer.id (b.sweptFlag peer.id)).alive
          = peers.filter b.alive :=
        List.filter_congr fun p hp => by rw [alive, hothers _ (hne p hp), alive]
      have hswept : (b.setFlag peer.id (b.sweptFlag peer.id)).sweptFlags peers
          = b.sweptFlags (peer :: peers) := by
        funext id
        unfold sweptFlags
        rcases eq_or_ne id peer.id with rfl | hid
        · have hmem : peer.id ∈ (peer :: peers).map Peer.id := List.mem_cons_self
          rw [if_neg hpeer, if_pos hmem]
          exact Function.update_self _ _ _
        · rw [hothers id hid, sweptFlag, hothers id hid, ← sweptFlag]
          exact if_congr (List.mem_cons.trans (or_iff_right hid)).symm rfl rfl
      rw [List.foldlM_cons, bind_ok (run_sweepPeer newPeerlist (hflags peer List.mem_cons_self)),
        ih _ _ hpeers fun p hp => ?_, halive, hswept, List.append_assoc, ← List.filter_append]
      · rfl
      · rw [hothers _ (hne p hp)]
        exact hflags p (List.mem_cons_of_mem peer hp)

/-! ## The list and the flags -/

/-- The flags are those of the listed ids, each of which is listed once. -/
def Consistent (b : Beacon) : Prop := InStep b.ids b.peersStillAliveFlags

/-- The beacon after a sweep. -/
def swept (b : Beacon) : Beacon :=
  { b with
    peers := b.peers.filter b.alive
    peersStillAliveFlags := b.sweptFlags b.peers }

theorem Consistent.run_sweep (h : b.Consistent) : managePeerForgetting b = .ok () b.swept := by
  have hpeers := run_sweepPeers b.peers [] b h.nodup fun peer hpeer =>
    (h.isSome_iff peer.id).mpr (List.mem_map_of_mem hpeer)
  show (b.peers.foldlM sweepPeer [] >>= _) b = _
  rw [bind_ok hpeers]
  rfl

theorem consistent_init : init.Consistent := inStep_nil

theorem Consistent.appended (h : b.Consistent) (hnew : peer.id ∉ b.ids) :
    ((b.append peer).setFlag peer.id (some 1)).Consistent := by
  have hids : ((b.append peer).setFlag peer.id (some 1)).ids = b.ids ++ [peer.id] :=
    List.map_append
  rw [Consistent, hids]
  exact InStep.add h hnew 1

theorem Consistent.greeted (h : b.Consistent) (peer : Peer) : (greeted peer b).Consistent := by
  unfold Beacon.greeted
  split
  · exact h
  · next hnew => exact h.appended hnew

theorem Consistent.kept (h : b.Consistent) (peer : Peer) : (kept peer b).Consistent := by
  unfold Beacon.kept
  split
  · next hlisted => exact InStep.set h hlisted 1
  · next hnew => exact h.appended hnew

theorem sweptFlags_of_mem {id : Bytes} (hid : id ∈ b.ids) :
    b.sweptFlags b.peers id = b.sweptFlag id := if_pos hid

theorem Consistent.sweptFlags_of_not_mem (h : b.Consistent) {id : Bytes} (hid : id ∉ b.ids) :
    b.sweptFlags b.peers id = none := by
  have hflag : b.sweptFlags b.peers id = b.peersStillAliveFlags id := if_neg hid
  rw [hflag, ← Option.not_isSome_iff_eq_none, h.isSome_iff]
  exact hid

theorem mem_ids_swept {id : Bytes} :
    id ∈ b.swept.ids ↔ id ∈ b.ids ∧ b.peersStillAliveFlags id ≠ some 0 := by
  have halive (peer : Peer) : b.alive peer = true ↔ b.peersStillAliveFlags peer.id ≠ some 0 :=
    bne_iff_ne
  simp only [ids, swept, List.mem_map, List.mem_filter, halive]
  constructor
  · rintro ⟨peer, ⟨hpeer, hflag⟩, rfl⟩
    exact ⟨⟨peer, hpeer, rfl⟩, hflag⟩
  · rintro ⟨⟨peer, hpeer, rfl⟩, hflag⟩
    exact ⟨peer, ⟨hpeer, hflag⟩, rfl⟩

theorem Consistent.swept (h : b.Consistent) : b.swept.Consistent where
  nodup := h.nodup.sublist (List.filter_sublist.map _)
  isSome_iff id := by
    rw [mem_ids_swept]
    show (b.sweptFlags b.peers id).isSome ↔ _
    by_cases hid : id ∈ b.ids
    · rw [sweptFlags_of_mem hid, sweptFlag, and_iff_right hid]
      split
      · next hzero => exact iff_of_false (by simp) fun hne => hne hzero
      · next hne => exact iff_of_true rfl hne
    · rw [h.sweptFlags_of_not_mem hid]
      exact iff_of_false (by simp) fun hmem => hid hmem.1

theorem run_answer (numPeersSend : Int) (addr : String) (port : Int) (b : Beacon) :
    (∃ reply, answer numPeersSend addr port b = .ok reply b) ∨
      answer numPeersSend addr port b
        = .error (.valueError "Sample larger than population or is negative") b := by
  by_cases hnegative : min numPeersSend b.peers.length < 0
  · right
    show (if _ then _ else _ : Call (Option Reply)) b = _
    rw [if_pos hnegative]
    rfl
  · left
    refine ⟨some ⟨addr, port, min numPeersSend b.peers.length⟩, ?_⟩
    show (if _ then _ else _ : Call (Option Reply)) b = _
    rw [if_neg hnegative]
    rfl

end Beacon

/-! ## Every run is consistent -/

/-- The beacon after an operation. -/
def BeaconOp.next : BeaconOp → Beacon → Beacon
  | .message datagram, b =>
      match datagram.msg with
      | .hello port id ip => b.greeted ⟨ip, port, id⟩
      | .peerListRequest _ => b
      | .notifyBeacon port id ip => (b.queue datagram.addr datagram.port).kept ⟨ip, port, id⟩
      | .peerList _ => b.queue datagram.addr datagram.port
  | .newRound round, b => b.setRound round
  | .sweep, b => b.swept

/-- An operation returns, or a reply of a negative number of peers
raises. -/
inductive Ends (x : Beacon.Call Unit) (b b' : Beacon) : Prop
  | returns (h : x b = .ok () b')
  | raises (message : String) (h : x b = .error (.valueError message) b')

namespace Beacon

variable {numPeersSend : Int} {b : Beacon}

theorem answer_ends (numPeersSend : Int) (addr : String) (port : Int) (b : Beacon) :
    Ends (answer numPeersSend addr port >>= fun _ => pure ()) b b := by
  rcases run_answer numPeersSend addr port b with ⟨reply, hrun⟩ | hrun
  · exact .returns (bind_ok hrun)
  · exact .raises _ (bind_error hrun)

/-- The spec of an operation. -/
theorem Consistent.call (h : b.Consistent) (numPeersSend : Int) (op : BeaconOp) :
    Ends (op.call numPeersSend) b (op.next b) ∧ (op.next b).Consistent := by
  cases op with
  | newRound round => exact ⟨.returns rfl, h⟩
  | sweep => exact ⟨.returns h.run_sweep, h.swept⟩
  | message datagram =>
      obtain ⟨msg, addr, port'⟩ := datagram
      cases msg with
      | hello port id ip =>
          refine ⟨?_, h.greeted _⟩
          have hanswer := answer_ends numPeersSend ip port' (b.greeted ⟨ip, port, id⟩)
          have hcall : BeaconOp.call numPeersSend (.message ⟨.hello port id ip, addr, port'⟩) b
              = (answer numPeersSend ip port' >>= fun _ => pure () : Call Unit)
                  (b.greeted ⟨ip, port, id⟩) := by
            show ((greet ⟨ip, port, id⟩ >>= fun _ => _) >>= _ : Call Unit) b = _
            rw [bind_assoc, bind_ok (run_greet _ b)]
          cases hanswer with
          | returns hrun => exact .returns (hcall.trans hrun)
          | raises message hrun => exact .raises message (hcall.trans hrun)
      | peerListRequest requesterId => exact ⟨answer_ends numPeersSend addr port' b, h⟩
      | notifyBeacon port id ip =>
          refine ⟨.returns ?_, Consistent.kept (b := b.queue addr port') h _⟩
          show ((keep ⟨ip, port, id⟩ >>= fun _ => _) >>= _ : Call Unit) (b.queue addr port') = _
          rw [bind_assoc, bind_ok (run_keep _ _)]
          rfl
      | peerList peers => exact ⟨.returns rfl, h⟩

theorem Consistent.run (numPeersSend : Int) (ops : List BeaconOp) :
    ∀ {b : Beacon}, b.Consistent →
      (after (beaconRun numPeersSend ops) b).Consistent ∧
      raised (beaconRun numPeersSend ops) b ≠ some .keyError := by
  induction ops with
  | nil => exact fun h => ⟨h, by simp [raised, beaconRun, pure, EStateM.pure]⟩
  | cons op ops ih =>
      intro b h
      obtain ⟨hends, hnext⟩ := h.call numPeersSend op
      cases hends with
      | returns hcall =>
          have hrun : beaconRun numPeersSend (op :: ops) b
              = beaconRun numPeersSend ops (op.next b) := bind_ok hcall
          rw [after, raised, hrun]
          exact ih hnext
      | raises message hcall =>
          have hrun : beaconRun numPeersSend (op :: ops) b
              = .error (.valueError message) (op.next b) := bind_error hcall
          rw [after, raised, hrun]
          exact ⟨hnext, by simp⟩

end Beacon

/-- So it is while the loop runs. -/
theorem listen_consistent (numPeersSend : Int) (turns : List (Int × Option Datagram)) :
    (after (listen numPeersSend turns) .init).Consistent ∧
      raised (listen numPeersSend turns) .init ≠ some .keyError := by
  obtain ⟨ops, hops⟩ := listen_ops numPeersSend turns .init
  rw [after, raised, hops]
  exact Beacon.consistent_init.run numPeersSend ops

/-- **The registry of the beacon is consistent.** Whatever it has received
and whenever it has swept, no id is listed twice, the flags are those of
the listed ids, and the next sweep does not raise; nor did any before. -/
theorem beacon_consistent (numPeersSend : Int) (ops : List BeaconOp) :
    let b := after (beaconRun numPeersSend ops) .init
    b.ids.Nodup ∧
    (∀ id, (b.peersStillAliveFlags id).isSome ↔ id ∈ b.ids) ∧
    (∃ b', Beacon.managePeerForgetting b = .ok () b') ∧
    raised (beaconRun numPeersSend ops) .init ≠ some .keyError := by
  obtain ⟨h, hraised⟩ := Beacon.consistent_init.run numPeersSend ops
  exact ⟨h.nodup, h.isSome_iff, ⟨_, h.run_sweep⟩, hraised⟩

end Cpos
