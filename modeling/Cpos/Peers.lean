import Cpos.Loop
import Cpos.Registry

/-!
# The table of known peers

A node keeps its peers in the list `known_peers` and, beside it, the
dictionary of failed messages. `connect`, `read`, `send` and
`forget_peer` each write both, and `send` calls `forget_peer` from its
exception handler. They keep the two in step and every count below three,
so no lookup fails (`Consistent.call`).

The loop that trims the table sends to a peer that the send may already
have forgotten. Either way the peer is gone afterwards and the others are
not, so each turn shortens the list by one (`Consistent.trim`), and **the
loop ends with at most `maximum_num_peers`** (`peer_table`).
-/

namespace Cpos

open Python ByteString Registry

namespace Network

variable {delivers : Nat → Bool} {peerId : Bytes} {network network' : Network}

/-! ## What a send does -/

/-- The network after the message was handed to the socket. -/
def attempted (network : Network) : Network := { network with attempts := network.attempts + 1 }

/-- How `send` ends: at most one count changes, and the third refusal in
a row forgets the peer. -/
inductive Sent (delivers : Nat → Bool) (peerId : Bytes) (network : Network) :
    Bool → Network → Prop
  | unknown (h : peerId ∉ network.knownPeers) : Sent delivers peerId network false network
  | delivered (h : peerId ∈ network.knownPeers) (hdelivers : delivers network.attempts = true) :
      Sent delivers peerId network true (network.attempted.setFailedMsgCount peerId (some 0))
  | refused {count : Nat} (h : peerId ∈ network.knownPeers)
      (hdelivers : delivers network.attempts = false)
      (hcount : network.peerFailedMsgCount peerId = some count) (hfew : count + 1 < 3) :
      Sent delivers peerId network false
        (network.attempted.setFailedMsgCount peerId (some (count + 1)))
  | forgotten {count : Nat} (h : peerId ∈ network.knownPeers)
      (hdelivers : delivers network.attempts = false)
      (hcount : network.peerFailedMsgCount peerId = some count) (hthird : 3 ≤ count + 1) :
      Sent delivers peerId network false
        (forgetPeer peerId (network.attempted.setFailedMsgCount peerId (some (count + 1))))

/-- The spec of `send`: with a count for the peer it does not raise. -/
theorem run_send (delivers : Nat → Bool) (hlookup : peerId ∈ network.knownPeers →
      ∃ count, network.peerFailedMsgCount peerId = some count) :
    ∃ sent network', send delivers peerId network = .ok sent network' ∧
      Sent delivers peerId network sent network' := by
  by_cases hpeer : peerId ∈ network.knownPeers
  swap
  · exact ⟨false, network, run_send_unknown hpeer, .unknown hpeer⟩
  by_cases hdelivers : delivers network.attempts = true
  · exact ⟨true, _, run_send_delivered hpeer hdelivers, .delivered hpeer hdelivers⟩
  rw [Bool.not_eq_true] at hdelivers
  obtain ⟨count, hcount⟩ := hlookup hpeer
  have hrun : send delivers peerId network
      = (if count + 1 ≥ 3 then modify (forgetPeer peerId) >>= fun _ => pure false
          else pure false : Call Bool)
          (network.attempted.setFailedMsgCount peerId (some (count + 1))) := by
    show (if _ then _ else _ : Call Bool) network = _
    rw [if_pos hpeer]
    show (if _ then _ else _ : Call Bool) network.attempted = _
    rw [if_neg (by rw [hdelivers]; simp)]
    simp only [hcount]
    rfl
  rw [hrun]
  by_cases hthird : count + 1 ≥ 3
  · rw [if_pos hthird]
    exact ⟨false, _, rfl, .forgotten hpeer hdelivers hcount hthird⟩
  · rw [if_neg hthird]
    exact ⟨false, _, rfl, .refused hpeer hdelivers hcount (by omega)⟩

/-! ## Consistent tables -/

/-- The keys of the dictionary are the known peers, and no count has
reached three. -/
structure Consistent (network : Network) : Prop where
  inStep : InStep network.knownPeers network.peerFailedMsgCount
  few : Values (· < 3) network.peerFailedMsgCount

/-- `Network(...)`. -/
def init : Network where
  knownPeers := []
  peerFailedMsgCount := fun _ => none
  attempts := 0

theorem consistent_init : init.Consistent := ⟨inStep_nil, fun _ _ h => by cases h⟩

theorem Consistent.connect (h : network.Consistent) (hnew : peerId ∉ network.knownPeers) :
    (network.connect peerId).Consistent :=
  ⟨h.inStep.add hnew 0, h.few.set (by decide)⟩

/-- `_init_network`: a connection to each peer that the beacon names, but
the node itself. -/
def initNetwork (id : Bytes) (peerlist : Option (List Bytes)) : Network :=
  (peerlist.getD []).foldl (fun network peerId =>
    if peerId = id then network else network.connect peerId) init

/-- The beacon does not name a peer twice. -/
theorem consistent_initNetwork (id : Bytes) {peerlist : Option (List Bytes)}
    (h : (peerlist.getD []).Nodup) : (initNetwork id peerlist).Consistent := by
  have hall (peers : List Bytes) : ∀ {network : Network}, network.Consistent → peers.Nodup →
      (∀ peer ∈ peers, peer ∉ network.knownPeers) →
      (peers.foldl (fun network peerId =>
        if peerId = id then network else network.connect peerId) network).Consistent := by
    induction peers with
    | nil => exact fun hnetwork _ _ => hnetwork
    | cons peer peers ih =>
        intro network hnetwork hnodup hnew
        obtain ⟨hpeer, hnodup⟩ := List.nodup_cons.mp hnodup
        obtain ⟨hnewPeer, hnew⟩ := List.forall_mem_cons.mp hnew
        rw [List.foldl_cons]
        split
        · exact ih hnetwork hnodup hnew
        · refine ih (hnetwork.connect hnewPeer) hnodup fun other hother hmem => ?_
          rcases List.mem_append.mp hmem with hmem | hmem
          · exact hnew other hother hmem
          · exact hpeer (List.mem_singleton.mp hmem ▸ hother)
  exact hall _ consistent_init h fun _ _ hmem => nomatch hmem

theorem not_mem_initNetwork (id : Bytes) (peerlist : Option (List Bytes)) :
    id ∉ (initNetwork id peerlist).knownPeers := by
  have hall (peers : List Bytes) : ∀ {network : Network}, id ∉ network.knownPeers →
      id ∉ (peers.foldl (fun network peerId =>
        if peerId = id then network else network.connect peerId) network).knownPeers := by
    induction peers with
    | nil => exact fun h => h
    | cons peer peers ih =>
        intro network h
        rw [List.foldl_cons]
        refine ih ?_
        split
        · exact h
        · next hne =>
          show id ∉ network.knownPeers ++ [peer]
          rw [List.mem_append, List.mem_singleton, not_or]
          exact ⟨h, fun hid => hne hid.symm⟩
  exact hall _ fun hmem => nomatch hmem

theorem Consistent.read (h : network.Consistent) (sender : Bytes) :
    (network.read sender).Consistent := by
  unfold Network.read
  split
  · exact h
  · next hnew => exact h.connect hnew

theorem Consistent.connectAll (peers : List Bytes) : ∀ {network : Network}, network.Consistent →
    ∀ id, (network.connectAll id peers).Consistent := by
  induction peers with
  | nil => exact fun h _ => h
  | cons peer peers ih =>
      intro network h id
      show (Network.connectAll id peers (if peer = id ∨ peer ∈ network.knownPeers
        then network else network.connect peer)).Consistent
      refine ih ?_ id
      split
      · exact h
      · next hnew =>
        rw [not_or] at hnew
        exact h.connect hnew.2

theorem Consistent.forgetPeer (h : network.Consistent) (peerId : Bytes) :
    (Network.forgetPeer peerId network).Consistent := by
  unfold Network.forgetPeer
  split
  · exact ⟨h.inStep.remove peerId, h.few.remove⟩
  · exact h

theorem Consistent.set (h : network.Consistent) (hpeer : peerId ∈ network.knownPeers) {count : Nat}
    (hfew : count < 3) : (network.attempted.setFailedMsgCount peerId (some count)).Consistent :=
  ⟨h.inStep.set hpeer count, h.few.set hfew⟩

/-- A peer that is forgotten may have had any count. -/
theorem forgetPeer_setFailedMsgCount (network : Network) (hpeer : peerId ∈ network.knownPeers)
    (count : Option Nat) :
    forgetPeer peerId (network.setFailedMsgCount peerId count) = forgetPeer peerId network := by
  rw [forgetPeer, if_pos (show peerId ∈ (network.setFailedMsgCount peerId count).knownPeers
    from hpeer), forgetPeer, if_pos hpeer]
  simp only [setFailedMsgCount, Function.update_idem]

theorem knownPeers_forgetPeer (peerId : Bytes) (network : Network) :
    (forgetPeer peerId network).knownPeers = network.knownPeers.erase peerId := by
  unfold forgetPeer
  split
  · rfl
  · next hpeer => exact (List.erase_of_not_mem hpeer).symm

theorem Consistent.sent (h : network.Consistent) {sent : Bool}
    (hsent : Sent delivers peerId network sent network') : network'.Consistent := by
  cases hsent with
  | unknown _ => exact h
  | delivered hpeer _ => exact h.set hpeer (by decide)
  | refused hpeer _ _ hfew => exact h.set hpeer hfew
  | forgotten hpeer _ _ _ =>
      have hattempted : network.attempted.Consistent := ⟨h.inStep, h.few⟩
      rw [forgetPeer_setFailedMsgCount network.attempted hpeer]
      exact hattempted.forgetPeer peerId

theorem Consistent.run_send (h : network.Consistent) (delivers : Nat → Bool) (peerId : Bytes) :
    ∃ sent network', send delivers peerId network = .ok sent network' ∧
      Sent delivers peerId network sent network' :=
  Network.run_send delivers fun hpeer => h.inStep.lookup hpeer

end Network

/-- The node's network is as `_init_network` leaves it, and the beacon has
named no peer twice. -/
def Node.Connected (id : Bytes) (n : Node) : Prop :=
  ∃ peerlist : Option (List Bytes), (peerlist.getD []).Nodup ∧
    n.network = Network.initNetwork id peerlist

theorem Node.Connected.consistent {id : Bytes} {n : Node} (h : n.Connected id) :
    n.network.Consistent := by
  obtain ⟨peerlist, hnodup, hnetwork⟩ := h
  rw [hnetwork]
  exact Network.consistent_initNetwork id hnodup

theorem Node.Connected.stranger {id : Bytes} {n : Node} (h : n.Connected id) :
    id ∉ n.network.knownPeers := by
  obtain ⟨peerlist, -, hnetwork⟩ := h
  rw [hnetwork]
  exact Network.not_mem_initNetwork id peerlist

/-! ## Runs -/

inductive NetworkOp where
  | connect (peerId : Bytes)
  | read (sender : Bytes)
  | send (peerId : Bytes)
  | forgetPeer (peerId : Bytes)

/-- `_init_network` and `control_number_of_peers` connect to peers that
are not known. -/
def NetworkOp.Admissible (network : Network) : NetworkOp → Prop
  | .connect peerId => peerId ∉ network.knownPeers
  | _ => True

instance (network : Network) : ∀ op : NetworkOp, Decidable (op.Admissible network)
  | .connect _ => inferInstanceAs (Decidable (_ ∉ _))
  | .read _ => inferInstanceAs (Decidable True)
  | .send _ => inferInstanceAs (Decidable True)
  | .forgetPeer _ => inferInstanceAs (Decidable True)

def NetworkOp.call (delivers : Nat → Bool) : NetworkOp → Network.Call Unit
  | .connect peerId => modify (Network.connect peerId)
  | .read sender => modify (Network.read sender)
  | .send peerId => do let _ ← Network.send delivers peerId
  | .forgetPeer peerId => modify (Network.forgetPeer peerId)

/-- The calls one after another. -/
def networkRun (delivers : Nat → Bool) : List NetworkOp → Network.Call Unit
  | [] => return ()
  | op :: ops => do
      op.call delivers
      networkRun delivers ops

/-- Each call is admissible where it is made. -/
def AllAdmissible (delivers : Nat → Bool) : Network → List NetworkOp → Prop
  | _, [] => True
  | network, op :: ops =>
      op.Admissible network ∧ AllAdmissible delivers (after (op.call delivers) network) ops

instance instDecidableAllAdmissible (delivers : Nat → Bool) :
    ∀ (network : Network) (ops : List NetworkOp), Decidable (AllAdmissible delivers network ops)
  | _, [] => inferInstanceAs (Decidable True)
  | network, op :: ops =>
      have := instDecidableAllAdmissible delivers (after (op.call delivers) network) ops
      inferInstanceAs (Decidable (_ ∧ _))

section Runs

variable {delivers : Nat → Bool} {network network' : Network}

/-- One call: it does not raise, and leaves a consistent table. -/
theorem Network.Consistent.call (h : network.Consistent) (delivers : Nat → Bool) (op : NetworkOp)
    (hadmissible : op.Admissible network) :
    ∃ network', op.call delivers network = .ok () network' ∧ network'.Consistent := by
  cases op with
  | connect peerId => exact ⟨_, rfl, h.connect hadmissible⟩
  | read sender => exact ⟨_, rfl, h.read sender⟩
  | send peerId =>
      obtain ⟨sent, network', hrun, hsent⟩ := h.run_send delivers peerId
      refine ⟨network', ?_, h.sent hsent⟩
      rw [NetworkOp.call, bind_ok hrun]
      rfl
  | forgetPeer peerId => exact ⟨_, rfl, h.forgetPeer peerId⟩

theorem Network.Consistent.run (ops : List NetworkOp) :
    ∀ {network : Network}, network.Consistent → AllAdmissible delivers network ops →
      ∃ network', networkRun delivers ops network = .ok () network' ∧ network'.Consistent := by
  induction ops with
  | nil => exact fun h _ => ⟨_, rfl, h⟩
  | cons op ops ih =>
      rintro network h ⟨hop, hops⟩
      obtain ⟨network₁, hcall, h₁⟩ := h.call delivers op hop
      rw [after_ok hcall] at hops
      obtain ⟨network', hrun, h'⟩ := ih h₁ hops
      exact ⟨network', by rw [networkRun, bind_ok hcall, hrun], h'⟩

end Runs

/-! ## Trimming -/

section Trim

variable {K : Type} [PyNum K] {env : LoopEnv K} {n : Node}

/-- A turn of the trimming loop: whatever becomes of the message, the
picked peer is gone, and the others are not. -/
theorem Network.Consistent.trim {delivers : Nat → Bool} {network network' : Network}
    {peerId : Bytes} {sent : Bool} (h : network.Consistent)
    (hsent : Network.Sent delivers peerId network sent network') :
    (Network.forgetPeer peerId network').knownPeers = network.knownPeers.erase peerId := by
  rw [Network.knownPeers_forgetPeer]
  cases hsent with
  | unknown _ => rfl
  | delivered _ _ => rfl
  | refused _ _ _ _ => rfl
  | forgotten hpeer _ _ _ =>
      rw [Network.knownPeers_forgetPeer]
      exact List.erase_of_not_mem (h.inStep.nodup.not_mem_erase)

theorem run_forgetSurplus (hmaximum : 0 ≤ env.maximumNumPeers) (pick : Nat → Nat) (turns : Nat) :
    ∀ {n : Node}, n.network.Consistent → n.network.knownPeers.length ≤ turns →
      ∃ n', forgetSurplus env pick turns n = .ok () n' ∧ n'.network.Consistent ∧
        n'.network.knownPeers.length ≤ env.maximumNumPeers := by
  induction turns with
  | zero =>
      intro n h hturns
      exact ⟨n, rfl, h, by omega⟩
  | succ turns ih =>
      intro n h hturns
      by_cases hmany : n.network.knownPeers.length > env.maximumNumPeers
      swap
      · refine ⟨n, ?_, h, by omega⟩
        show (if _ then _ else _ : NodeCall Unit) n = _
        rw [if_neg hmany]
        rfl
      have hpick : pick n.network.knownPeers.length % n.network.knownPeers.length
          < n.network.knownPeers.length := Nat.mod_lt _ (by omega)
      have hpeer := List.getElem?_eq_getElem hpick
      generalize n.network.knownPeers[pick n.network.knownPeers.length
        % n.network.knownPeers.length] = peerId at hpeer
      obtain ⟨sent, network', hrun, hsent⟩ := h.run_send env.delivers peerId
      have hforgotten := h.trim hsent
      have hlength := List.length_erase_of_mem (List.mem_of_getElem? hpeer)
      obtain ⟨n', hrest, h', hle⟩ := ih (n := { n with
          network := Network.forgetPeer peerId network' }) ((h.sent hsent).forgetPeer peerId) (by
        rw [hforgotten, hlength]
        omega)
      refine ⟨n', ?_, h', hle⟩
      show (if _ then _ else _ : NodeCall Unit) n = _
      rw [if_pos hmany]
      simp only [hpeer]
      rw [sendMessage, bind_ok (onNetwork_ok hrun), ← hrest]
      rfl

end Trim

/-- **The peer table stays consistent and bounded.** After every sequence
of calls it is consistent, none of them has raised, and trimming it ends
with at most `maximum_num_peers`. -/
theorem peer_table {delivers : Nat → Bool} {ops : List NetworkOp}
    (hops : AllAdmissible delivers .init ops) :
    ∃ network, networkRun delivers ops .init = .ok () network ∧
      network.knownPeers.Nodup ∧
      (∀ peerId, (network.peerFailedMsgCount peerId).isSome ↔ peerId ∈ network.knownPeers) ∧
      (∀ peerId count, network.peerFailedMsgCount peerId = some count → count < 3) ∧
      ∀ {K : Type} [PyNum K] (env : LoopEnv K) (pick : Nat → Nat) (n : Node) (turns : Nat),
        0 ≤ env.maximumNumPeers → n.network = network → network.knownPeers.length ≤ turns →
          ∃ n', forgetSurplus env pick turns n = .ok () n' ∧
            n'.network.knownPeers.length ≤ env.maximumNumPeers := by
  obtain ⟨network, hrun, h⟩ := Network.Consistent.run ops Network.consistent_init hops
  refine ⟨network, hrun, h.inStep.nodup, h.inStep.isSome_iff, h.few, ?_⟩
  intro K _ env pick n turns hmaximum hnetwork hturns
  obtain ⟨n', hn', -, hle⟩ :=
    run_forgetSurplus hmaximum pick turns (hnetwork ▸ h) (hnetwork ▸ hturns)
  exact ⟨n', hn', hle⟩

/-- `bob` cannot be reached; he is forgotten after the third message, and
connected to again. -/
def unreachableBob : List NetworkOp :=
  [.connect bob, .send bob, .read alice, .send bob, .send bob, .send bob, .connect bob,
    .forgetPeer alice, .forgetPeer alice]

theorem peer_table_sample :
    ∃ network, networkRun (fun _ => false) unreachableBob .init = .ok () network ∧
      network.knownPeers.Nodup ∧
      (∀ peerId, (network.peerFailedMsgCount peerId).isSome ↔ peerId ∈ network.knownPeers) ∧
      (∀ peerId count, network.peerFailedMsgCount peerId = some count → count < 3) ∧
      ∀ {K : Type} [PyNum K] (env : LoopEnv K) (pick : Nat → Nat) (n : Node) (turns : Nat),
        0 ≤ env.maximumNumPeers → n.network = network → network.knownPeers.length ≤ turns →
          ∃ n', forgetSurplus env pick turns n = .ok () n' ∧
            n'.network.knownPeers.length ≤ env.maximumNumPeers :=
  peer_table (by decide +kernel)

end Cpos
