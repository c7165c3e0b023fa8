import Cpos.Beacon
import Cpos.Lease

/-!
# Which peers a sweep keeps

To each id the beacon is a `Lease`: a `Hello` offers a peer, a
`NotifyBeacon` renews it, a sweep is an expiry, and messages with other
ids do nothing to it (`view_next`). So a sweep keeps the ids that were
notified of since the sweep before, or greeted while they were not listed
(`mem_ids_sweep_iff`), each with the address it was listed with.

**What a sweep keeps** (`beacon_sweep`) leaves open whether a `Hello` of a
listed id keeps it. It does not, and a node that comes back under another
address is listed with the old one (`beacon_sweep_drops`).
-/

namespace Cpos

open Python ByteString Registry

/-! ## One id -/

/-- The peer that a `Hello` names. -/
def BeaconOp.greets : BeaconOp → Option Peer
  | .message ⟨.hello port id ip, _, _⟩ => some ⟨ip, port, id⟩
  | _ => none

/-- The peer that a `NotifyBeacon` names. -/
def BeaconOp.notifies : BeaconOp → Option Peer
  | .message ⟨.notifyBeacon port id ip, _, _⟩ => some ⟨ip, port, id⟩
  | _ => none

/-- What an operation is to an id. -/
def BeaconOp.event (id : Bytes) : BeaconOp → Lease.Event Peer
  | .message ⟨.hello port id' ip, _, _⟩ => if id' = id then .offer ⟨ip, port, id'⟩ else .other
  | .message ⟨.notifyBeacon port id' ip, _, _⟩ =>
      if id' = id then .renew ⟨ip, port, id'⟩ else .other
  | .sweep => .expire
  | _ => .other

namespace Beacon

variable {b : Beacon} {peer : Peer} {id : Bytes}

/-- What the beacon holds for an id. -/
def view (id : Bytes) (b : Beacon) : Lease.State Peer :=
  (b.peers.find? fun peer => peer.id == id).map fun peer =>
    (peer, b.peersStillAliveFlags id != some 0)

theorem view_isSome : (view id b).isSome ↔ id ∈ b.ids := by
  simp [view, ids, List.find?_isSome]

theorem view_eq_none : view id b = none ↔ id ∉ b.ids := by
  rw [← view_isSome, Option.not_isSome_iff_eq_none]

/-- Writes for another id. -/
theorem view_setFlag_of_ne {id' : Bytes} (hne : id ≠ id') (flag : Option Nat) :
    view id (b.setFlag id' flag) = view id b := by
  have hflag : (b.setFlag id' flag).peersStillAliveFlags id = b.peersStillAliveFlags id :=
    Function.update_of_ne hne _ _
  rw [view, hflag]
  rfl

theorem view_append_of_ne (hne : id ≠ peer.id) : view id (b.append peer) = view id b := by
  have hpeer : (peer.id == id) = false := by simpa using hne.symm
  simp [view, append, List.find?_append, hpeer]

theorem view_appended (hnew : peer.id ∉ b.ids) :
    view peer.id ((b.append peer).setFlag peer.id (some 1)) = some (peer, true) := by
  have hnone : (b.peers.find? fun p => p.id == peer.id) = none := by
    simpa [ids] using hnew
  simp [view, append, setFlag, List.find?_append, hnone]

theorem view_of_mem (hlisted : id ∈ b.ids) :
    ∃ peer ∈ b.peers, peer.id = id ∧
      view id b = some (peer, b.peersStillAliveFlags id != some 0) := by
  obtain ⟨⟨peer, fresh⟩, hview⟩ := Option.isSome_iff_exists.mp (view_isSome.mpr hlisted)
  obtain ⟨found, hfind, heq⟩ := Option.map_eq_some_iff.mp hview
  refine ⟨found, List.mem_of_find?_eq_some hfind, ?_, ?_⟩
  · simpa using List.find?_some hfind
  · rw [view, hfind]
    rfl

theorem step_other (s : Lease.State Peer) : Lease.step s .other = s := by
  rcases s with _ | ⟨peer, fresh⟩ <;> rfl

theorem view_added (hne : peer.id ≠ id) :
    view id ((b.append peer).setFlag peer.id (some 1)) = view id b := by
  rw [view_setFlag_of_ne hne.symm, view_append_of_ne hne.symm]

theorem view_greeted (peer : Peer) (b : Beacon) :
    view id (b.greeted peer) = Lease.step (view id b)
      (if peer.id = id then .offer peer else .other) := by
  unfold greeted
  by_cases hid : peer.id = id
  · subst hid
    rw [if_pos rfl]
    by_cases hlisted : peer.id ∈ b.ids
    · obtain ⟨found, -, -, hview⟩ := view_of_mem hlisted
      rw [if_pos hlisted, hview]
      rfl
    · rw [if_neg hlisted, view_appended hlisted, view_eq_none.mpr hlisted]
      rfl
  · rw [if_neg hid, step_other]
    split
    · rfl
    · exact view_added hid

theorem view_kept (peer : Peer) (b : Beacon) :
    view id (b.kept peer) = Lease.step (view id b)
      (if peer.id = id then .renew peer else .other) := by
  unfold kept
  by_cases hid : peer.id = id
  · subst hid
    rw [if_pos rfl]
    by_cases hlisted : peer.id ∈ b.ids
    · obtain ⟨found, -, -, hview⟩ := view_of_mem hlisted
      have hset : view peer.id (b.setFlag peer.id (some 1))
          = (view peer.id b).map fun held => (held.1, true) := by
        rw [view, view, Option.map_map]
        simp only [setFlag, Function.update_self]
        rfl
      rw [if_pos hlisted, hset, hview]
      rfl
    · rw [if_neg hlisted, view_appended hlisted, view_eq_none.mpr hlisted]
      rfl
  · rw [if_neg hid, step_other]
    split
    · exact view_setFlag_of_ne (Ne.symm hid) _
    · exact view_added hid

theorem view_swept (b : Beacon) : view id b.swept = Lease.step (view id b) .expire := by
  by_cases hkept : id ∈ b.swept.ids
  · obtain ⟨hlisted, hflag⟩ := mem_ids_swept.mp hkept
    obtain ⟨peer, -, -, hview⟩ := view_of_mem hlisted
    have hfind : (b.peers.filter b.alive).find? (fun peer => peer.id == id)
        = b.peers.find? fun peer => peer.id == id := by
      rw [List.find?_filter]
      refine congrArg (fun p => b.peers.find? p) (funext fun peer => ?_)
      rcases eq_or_ne peer.id id with rfl | hne
      · simp [alive, hflag]
      · simp [hne]
    have hswept : view id b.swept = (view id b).map fun held => (held.1, false) := by
      rw [view, view, swept, hfind]
      simp only [sweptFlags_of_mem hlisted, sweptFlag, if_neg hflag]
      simp [Function.comp_def]
    rw [hswept, hview, bne_iff_ne.mpr hflag]
    rfl
  · rw [view_eq_none.mpr hkept]
    by_cases hlisted : id ∈ b.ids
    · obtain ⟨peer, -, -, hview⟩ := view_of_mem hlisted
      have hflag : b.peersStillAliveFlags id = some 0 := by
        by_contra hne
        exact hkept (mem_ids_swept.mpr ⟨hlisted, hne⟩)
      rw [hview, hflag]
      rfl
    · rw [view_eq_none.mpr hlisted]
      rfl

/-- The beacon refines the lease of each id. -/
theorem view_next (op : BeaconOp) (b : Beacon) :
    view id (op.next b) = Lease.step (view id b) (op.event id) := by
  cases op with
  | sweep => exact view_swept b
  | newRound round => exact (step_other _).symm
  | message datagram =>
      obtain ⟨msg, addr, port⟩ := datagram
      cases msg with
      | hello port ip id' => exact view_greeted _ b
      | peerListRequest requesterId => exact (step_other _).symm
      | notifyBeacon port ip id' => exact view_kept _ _
      | peerList peers => exact (step_other _).symm

end Beacon

namespace BeaconOp

variable {op : BeaconOp} {id : Bytes} {peer : Peer}

theorem event_eq_offer_iff : op.event id = .offer peer ↔ op.greets = some peer ∧ peer.id = id := by
  rcases op with ⟨⟨_ | _ | _ | _, _, _⟩⟩ | _ | _
  case message.hello port id' ip =>
    by_cases hid : id' = id
    · rw [event, if_pos hid, greets, Lease.Event.offer.injEq, Option.some.injEq]
      exact ⟨fun heq => ⟨heq, heq ▸ hid⟩, And.left⟩
    · rw [event, if_neg hid, greets, Option.some.injEq]
      exact iff_of_false (by simp) fun ⟨heq, hpeer⟩ => hid ((congrArg Peer.id heq).trans hpeer)
  case message.notifyBeacon => simp only [event, greets]; split <;> simp
  all_goals simp [event, greets]

theorem event_eq_renew_iff :
    op.event id = .renew peer ↔ op.notifies = some peer ∧ peer.id = id := by
  rcases op with ⟨⟨_ | _ | _ | _, _, _⟩⟩ | _ | _
  case message.notifyBeacon port id' ip =>
    by_cases hid : id' = id
    · rw [event, if_pos hid, notifies, Lease.Event.renew.injEq, Option.some.injEq]
      exact ⟨fun heq => ⟨heq, heq ▸ hid⟩, And.left⟩
    · rw [event, if_neg hid, notifies, Option.some.injEq]
      exact iff_of_false (by simp) fun ⟨heq, hpeer⟩ => hid ((congrArg Peer.id heq).trans hpeer)
  case message.hello => simp only [event, notifies]; split <;> simp
  all_goals simp [event, notifies]

theorem event_eq_expire_iff : op.event id = .expire ↔ op = .sweep := by
  rcases op with ⟨⟨_ | _ | _ | _, _, _⟩⟩ | _ | _ <;> simp only [event, reduceCtorEq]
  all_goals split <;> simp

end BeaconOp

/-! ## Runs -/

section Runs

variable {numPeersSend : Int} {ops : List BeaconOp} {b : Beacon} {id : Bytes}

/-- A run that returns is that of the operations. -/
theorem Beacon.Consistent.run_ok (ops : List BeaconOp) :
    ∀ {b b' : Beacon}, b.Consistent → beaconRun numPeersSend ops b = .ok () b' →
      b' = ops.foldl (fun b op => op.next b) b := by
  induction ops with
  | nil =>
      intro b b' _ hrun
      cases hrun
      rfl
  | cons op ops ih =>
      intro b b' h hrun
      obtain ⟨_, b₁, hcall, hrest⟩ := bind_eq_ok hrun
      obtain ⟨hends, hnext⟩ := h.call numPeersSend op
      cases hends with
      | returns hok =>
          rw [hok] at hcall
          cases hcall
          exact ih hnext hrest
      | raises message herror =>
          rw [herror] at hcall
          cases hcall

/-- The lease of an id after a run that returned. -/
theorem view_run (hrun : beaconRun numPeersSend ops .init = .ok () b) :
    b.view id = Lease.run (BeaconOp.event id) ops := by
  rw [Beacon.consistent_init.run_ok ops hrun]
  exact (List.foldl_hom (Beacon.view id) fun b op => (Beacon.view_next op b).symm).symm

/-- The operations in front return too. -/
theorem run_front {pre suf : List BeaconOp}
    (hrun : beaconRun numPeersSend (pre ++ suf) .init = .ok () b) :
    beaconRun numPeersSend pre .init = .ok () (after (beaconRun numPeersSend pre) .init) := by
  rw [beaconRun_append] at hrun
  obtain ⟨_, b', hpre, -⟩ := bind_eq_ok hrun
  rw [hpre, after_ok hpre]

/-! ## The sweep -/

/-- `op` was handled after `pre`, and no sweep since. -/
def SinceSweep (ops pre : List BeaconOp) (op : BeaconOp) : Prop :=
  ∃ suf, ops = pre ++ op :: suf ∧ ∀ o ∈ suf, o ≠ .sweep

def idsAfter (numPeersSend : Int) (ops : List BeaconOp) : List Bytes :=
  (after (beaconRun numPeersSend ops) .init).ids

/-- Since the last sweep there was a `NotifyBeacon` with the id, or a
`Hello` while it was not listed. -/
def Refreshed (numPeersSend : Int) (ops : List BeaconOp) (id : Bytes) : Prop :=
  ∃ pre op peer, SinceSweep ops pre op ∧ peer.id = id ∧
    (op.notifies = some peer ∨ op.greets = some peer ∧ id ∉ idsAfter numPeersSend pre)

/-- Since the last sweep there was any such message with the id. -/
def HeardFrom (ops : List BeaconOp) (id : Bytes) : Prop :=
  ∃ pre op peer, SinceSweep ops pre op ∧ peer.id = id ∧
    (op.notifies = some peer ∨ op.greets = some peer)

/-- The peer was listed by a message that named it, when its id was not
listed, and has been listed since. -/
def ListedBy (numPeersSend : Int) (ops : List BeaconOp) (peer : Peer) : Prop :=
  ∃ pre op suf, ops = pre ++ op :: suf ∧ (op.greets = some peer ∨ op.notifies = some peer) ∧
    peer.id ∉ idsAfter numPeersSend pre ∧
    ∀ suf', suf' <+: suf → peer.id ∈ idsAfter numPeersSend (pre ++ op :: suf')

theorem Refreshed.heardFrom (h : Refreshed numPeersSend ops id) : HeardFrom ops id := by
  obtain ⟨pre, op, peer, hsince, hid, hop | ⟨hop, -⟩⟩ := h
  · exact ⟨pre, op, peer, hsince, hid, .inl hop⟩
  · exact ⟨pre, op, peer, hsince, hid, .inr hop⟩

/-- The ids listed after a prefix of a run. -/
theorem mem_idsAfter {pre suf : List BeaconOp}
    (hrun : beaconRun numPeersSend (pre ++ suf) .init = .ok () b) :
    id ∈ idsAfter numPeersSend pre ↔ (Lease.run (BeaconOp.event id) pre).isSome := by
  rw [← view_run (run_front hrun), Beacon.view_isSome, idsAfter]

theorem renewed_iff (hrun : beaconRun numPeersSend ops .init = .ok () b) :
    Lease.Renewed (BeaconOp.event id) ops ↔ Refreshed numPeersSend ops id := by
  constructor
  · rintro ⟨pre, op, suf, rfl, hsuf, hop⟩
    have hsince : SinceSweep (pre ++ op :: suf) pre op :=
      ⟨suf, rfl, fun o ho hsweep => hsuf o ho (BeaconOp.event_eq_expire_iff.mpr hsweep)⟩
    rcases hop with ⟨peer, hrenew⟩ | ⟨⟨peer, hoffer⟩, hnone⟩
    · obtain ⟨hnotifies, hid⟩ := BeaconOp.event_eq_renew_iff.mp hrenew
      exact ⟨pre, op, peer, hsince, hid, .inl hnotifies⟩
    · obtain ⟨hgreets, hid⟩ := BeaconOp.event_eq_offer_iff.mp hoffer
      refine ⟨pre, op, peer, hsince, hid, .inr ⟨hgreets, ?_⟩⟩
      rw [mem_idsAfter hrun, hnone]
      simp
  · rintro ⟨pre, op, peer, ⟨suf, rfl, hsuf⟩, hid, hop⟩
    refine ⟨pre, op, suf, rfl, fun o ho hexpire =>
      hsuf o ho (BeaconOp.event_eq_expire_iff.mp hexpire), ?_⟩
    rcases hop with hnotifies | ⟨hgreets, hunlisted⟩
    · exact .inl ⟨peer, BeaconOp.event_eq_renew_iff.mpr ⟨hnotifies, hid⟩⟩
    · rw [mem_idsAfter hrun, Option.not_isSome_iff_eq_none] at hunlisted
      exact .inr ⟨⟨peer, BeaconOp.event_eq_offer_iff.mpr ⟨hgreets, hid⟩⟩, hunlisted⟩

theorem listedBy_of_granted {peer : Peer} (hrun : beaconRun numPeersSend ops .init = .ok () b)
    (h : Lease.Granted (BeaconOp.event peer.id) ops peer) : ListedBy numPeersSend ops peer := by
  obtain ⟨pre, op, suf, rfl, hop, hnone, hheld⟩ := h
  refine ⟨pre, op, suf, rfl, ?_, ?_, fun suf' hsuf' => ?_⟩
  · rcases hop with hoffer | hrenew
    · exact .inl (BeaconOp.event_eq_offer_iff.mp hoffer).1
    · exact .inr (BeaconOp.event_eq_renew_iff.mp hrenew).1
  · rw [mem_idsAfter hrun, hnone]
    simp
  · obtain ⟨rest, rfl⟩ := hsuf'
    have hsplit : pre ++ op :: (suf' ++ rest) = (pre ++ op :: suf') ++ rest := by simp
    rw [hsplit] at hrun
    exact (mem_idsAfter hrun).mpr (hheld suf' ⟨rest, rfl⟩)

/-- Exactly the ids that were refreshed since the sweep before. -/
theorem mem_ids_sweep_iff
    (hrun : beaconRun numPeersSend (ops ++ [.sweep]) .init = .ok () b) :
    id ∈ b.ids ↔ Refreshed numPeersSend ops id := by
  rw [← Beacon.view_isSome, view_run hrun, Lease.isSome_expired rfl, renewed_iff (run_front hrun)]

/-- **What a sweep keeps.** Right after a sweep the beacon lists every id
that was refreshed since the sweep before, and none that was not heard
from; each with the address of the message that listed it. -/
theorem beacon_sweep (hrun : beaconRun numPeersSend (ops ++ [.sweep]) .init = .ok () b) :
    (∀ id, Refreshed numPeersSend ops id → id ∈ b.ids) ∧
    (∀ id ∈ b.ids, HeardFrom ops id) ∧
    ∀ peer ∈ b.peers, ListedBy numPeersSend ops peer := by
  refine ⟨fun id => (mem_ids_sweep_iff hrun).mpr,
    fun id hid => ((mem_ids_sweep_iff hrun).mp hid).heardFrom, fun peer hpeer => ?_⟩
  have hconsistent : b.Consistent := by
    have h := (Beacon.consistent_init.run numPeersSend (ops ++ [.sweep])).1
    rwa [after_ok hrun] at h
  obtain ⟨found, hfound, hid, hview⟩ := Beacon.view_of_mem (b := b) (List.mem_map_of_mem hpeer)
  obtain rfl : found = peer := List.inj_on_of_nodup_map hconsistent.nodup hfound hpeer hid
  rw [view_run hrun, Lease.run_concat] at hview
  -- what the sweep left was there, and fresh, before it
  have hbefore : Lease.run (BeaconOp.event found.id) ops = some (found, true) := by
    rcases hheld : Lease.run (BeaconOp.event found.id) ops with _ | ⟨held, _ | _⟩ <;>
      rw [hheld] at hview <;> simp [Lease.step, BeaconOp.event] at hview
    rw [hview.1]
  exact listedBy_of_granted (run_front hrun) (Lease.granted_of_run hbefore)

end Runs

/-! ## Samples -/

def hello (ip : String) : BeaconOp := .message ⟨.hello 8888 [7] ip, ip, 40000⟩

def notify (ip : String) : BeaconOp := .message ⟨.notifyBeacon 8888 [7] ip, ip, 40000⟩

theorem beacon_sweep_sample :
    let ops := [hello "10.0.0.2", .sweep, notify "10.0.0.2"]
    let b := after (beaconRun 5 (ops ++ [.sweep])) .init
    (∀ id, Refreshed 5 ops id → id ∈ b.ids) ∧ (∀ id ∈ b.ids, HeardFrom ops id) ∧
      ∀ peer ∈ b.peers, ListedBy 5 ops peer :=
  beacon_sweep (ok_of_returned (by decide +kernel))

/-- A node that greets again is dropped. One that notifies from another
address is listed with the old one. -/
theorem beacon_sweep_drops :
    (HeardFrom [hello "10.0.0.2", .sweep, hello "10.0.0.2"] [7] ∧
      (after (beaconRun 5 ([hello "10.0.0.2", .sweep, hello "10.0.0.2"] ++ [.sweep])) .init).ids
        = []) ∧
    (after (beaconRun 5 ([hello "10.0.0.2", notify "10.0.0.7"] ++ [.sweep])) .init).peers.map
      Peer.ip = ["10.0.0.2"] := by
  refine ⟨⟨⟨[hello "10.0.0.2", .sweep], hello "10.0.0.2", ⟨"10.0.0.2", 8888, [7]⟩,
    ⟨[], rfl, by simp⟩, rfl, .inr rfl⟩, ?_⟩, ?_⟩ <;> decide +kernel

end Cpos
