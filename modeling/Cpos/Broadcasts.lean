import Cpos.LiveList
import Cpos.Peers

/-!
# Whom a broadcast reaches

`broadcast_message` walks `known_peers` while `send` may remove the peer
it is at: the third failure in a row forgets the peer, and the walk
passes the next one over. So **a broadcast reaches every peer** that is
not excluded exactly if no peer is forgotten right in front of another
one to be sent to (`broadcast_reaches_iff`).

The walk over the list of the node is the walk of `LiveList`
(`broadcastCalls_eq`), where a peer is `gone` if its message is refused
and it has failed twice before.
-/

namespace Cpos

open Python ByteString Registry

/-! ## The calls of a broadcast -/

section Calls

variable {K : Type} [PyNum K]

/-- The body of the loop for a peer that is not excluded. -/
def broadcastTo (env : NodeEnv K) (peer : Bytes) : NodeCall Unit := do
  modify fun n => { n with sentBlocks := n.sentBlocks + 1 }
  let _ ← sendMessage env peer

/-- The peers that `broadcastFrom` calls `send_message` for, in order. -/
def broadcastCalls (env : NodeEnv K) (invalidPeers : List Bytes) : Nat → Nat → Node → List Bytes
  | 0, _, _ => []
  | turns + 1, i, n =>
      match n.network.knownPeers[i]? with
      | none => []
      | some peer =>
          if peer ∉ invalidPeers then
            match broadcastTo env peer n with
            | .ok _ n' => peer :: broadcastCalls env invalidPeers turns (i + 1) n'
            | .error _ _ => [peer]
          else broadcastCalls env invalidPeers turns (i + 1) n

theorem broadcastFrom_end {env : NodeEnv K} {invalidPeers : List Bytes} {turns i : Nat} {n : Node}
    (h : n.network.knownPeers[i]? = none) :
    broadcastFrom env invalidPeers (turns + 1) i n = .ok () n := by
  show (match n.network.knownPeers[i]? with | none => _ | some peer => _ : NodeCall Unit) n = _
  rw [h]
  rfl

/-- A turn of the loop. -/
theorem broadcastFrom_peer {env : NodeEnv K} {invalidPeers : List Bytes} {turns i : Nat} {n : Node}
    {peer : Bytes} (h : n.network.knownPeers[i]? = some peer) :
    broadcastFrom env invalidPeers (turns + 1) i n
      = if peer ∉ invalidPeers then
          (broadcastTo env peer >>= fun _ => broadcastFrom env invalidPeers turns (i + 1)) n
        else broadcastFrom env invalidPeers turns (i + 1) n := by
  show (match n.network.knownPeers[i]? with | none => _ | some peer => _ : NodeCall Unit) n = _
  rw [h]
  by_cases hvalid : peer ∉ invalidPeers
  · have hbody : broadcastTo env peer >>= (fun _ => broadcastFrom env invalidPeers turns (i + 1))
        = (do
            modify fun n => { n with sentBlocks := n.sentBlocks + 1 }
            let _ ← sendMessage env peer
            broadcastFrom env invalidPeers turns (i + 1)) := by
      rw [broadcastTo]
      simp only [bind_assoc, pure_bind]
    rw [if_pos hvalid, hbody]
    show (if _ then _ else _ : NodeCall Unit) n = _
    rw [if_pos hvalid]
  · rw [if_neg hvalid]
    show (if _ then _ else _ : NodeCall Unit) n = _
    rw [if_neg hvalid]

/-- The broadcast is the sequence of these calls. -/
theorem broadcastFrom_eq (env : NodeEnv K) (invalidPeers : List Bytes) (turns : Nat) :
    ∀ i n, broadcastFrom env invalidPeers turns i n
      = (broadcastCalls env invalidPeers turns i n).forM (broadcastTo env) n := by
  induction turns with
  | zero => exact fun _ _ => rfl
  | succ turns ih =>
      intro i n
      rw [broadcastCalls]
      cases h : n.network.knownPeers[i]? with
      | none => exact broadcastFrom_end h
      | some peer =>
          rw [broadcastFrom_peer h]
          by_cases hvalid : peer ∉ invalidPeers
          swap
          · simp only [if_neg hvalid]
            exact ih (i + 1) n
          simp only [if_pos hvalid]
          cases hrun : broadcastTo env peer n with
          | ok a n' =>
              rw [bind_ok hrun, ih]
              simp only [List.forM_eq_forM, List.forM_cons]
              rw [bind_ok hrun]
          | error e n' =>
              rw [bind_error hrun]
              simp only [List.forM_eq_forM, List.forM_cons]
              rw [bind_error hrun]

end Calls

/-! ## One peer -/

namespace Network

variable {delivers : Nat → Bool} {invalidPeers : List Bytes} {peer : Bytes} {network : Network}

/-- What the loop's body does to the network. -/
def visit (delivers : Nat → Bool) (invalidPeers : List Bytes) (peer : Bytes) (network : Network) :
    Network :=
  if peer ∉ invalidPeers then after (send delivers peer) network else network

/-- The body sends to the peer, which has failed twice before and fails
again: it is forgotten. -/
def gone (delivers : Nat → Bool) (invalidPeers : List Bytes) (peer : Bytes) (network : Network) :
    Bool :=
  decide (peer ∉ invalidPeers)
    && (!delivers network.attempts && (network.peerFailedMsgCount peer).any (2 ≤ ·))

theorem visit_excluded (delivers : Nat → Bool) (network : Network)
    (h : decide (peer ∉ invalidPeers) = false) :
    visit delivers invalidPeers peer network = network ∧
      gone delivers invalidPeers peer network = false :=
  ⟨if_neg (of_decide_eq_false h), by rw [gone, h, Bool.false_and]⟩

theorem gone_eq_true_iff : gone delivers invalidPeers peer network = true ↔
    peer ∉ invalidPeers ∧ delivers network.attempts = false ∧
      ∃ count, network.peerFailedMsgCount peer = some count ∧ 2 ≤ count := by
  simp [gone, Option.any_eq_true]

/-- What a visit to a known peer leaves of the table. -/
structure Visited (delivers : Nat → Bool) (invalidPeers : List Bytes) (peer : Bytes)
    (network network' : Network) : Prop where
  inStep : InStep network'.knownPeers network'.peerFailedMsgCount
  attempts : network'.attempts
    = network.attempts + ([peer].filter fun p => decide (p ∉ invalidPeers)).length
  knownPeers : network'.knownPeers = if gone delivers invalidPeers peer network
    then network.knownPeers.erase peer else network.knownPeers
  others : ∀ q, q ≠ peer → network'.peerFailedMsgCount q = network.peerFailedMsgCount q

theorem Sent.visited {network' : Network} {sent : Bool}
    (h : InStep network.knownPeers network.peerFailedMsgCount) (hpeer : peer ∈ network.knownPeers)
    (hvalid : peer ∉ invalidPeers) (hsent : Sent delivers peer network sent network') :
    Visited delivers invalidPeers peer network network' := by
  have hothers (count : Option Nat) (q : Bytes) (hq : q ≠ peer) :
      Function.update network.peerFailedMsgCount peer count q = network.peerFailedMsgCount q :=
    Function.update_of_ne hq _ _
  have hone : network.attempts + 1
      = network.attempts + ([peer].filter fun p => decide (p ∉ invalidPeers)).length := by
    rw [List.filter_singleton, decide_eq_true hvalid]
    rfl
  cases hsent with
  | unknown hno => exact absurd hpeer hno
  | delivered _ hdelivers =>
      refine ⟨h.set hpeer 0, hone, ?_, hothers _⟩
      rw [if_neg (by simp [gone, hdelivers])]
      rfl
  | refused _ _ hcount hfew =>
      refine ⟨h.set hpeer _, hone, ?_, hothers _⟩
      rw [if_neg (by simp [gone, hcount]; omega)]
      rfl
  | forgotten _ hdelivers hcount hthird =>
      rw [forgetPeer_setFailedMsgCount network.attempted hpeer, forgetPeer,
        if_pos (show peer ∈ network.attempted.knownPeers from hpeer)]
      refine ⟨h.remove peer, hone, ?_, hothers _⟩
      rw [if_pos (by simp [gone, hvalid, hdelivers, hcount]; omega)]
      rfl

theorem visited_visit (delivers : Nat → Bool) (invalidPeers : List Bytes)
    (h : InStep network.knownPeers network.peerFailedMsgCount) (hpeer : peer ∈ network.knownPeers) :
    Visited delivers invalidPeers peer network (visit delivers invalidPeers peer network) := by
  by_cases hvalid : peer ∉ invalidPeers
  · obtain ⟨sent, network', hrun, hsent⟩ := run_send delivers fun hmem => h.lookup hmem
    rw [visit, if_pos hvalid, after_ok hrun]
    exact hsent.visited h hpeer hvalid
  · obtain ⟨hvisit, hgone⟩ := visit_excluded delivers network (decide_eq_false hvalid)
    rw [hvisit]
    refine ⟨h, ?_, by simp [hgone], fun _ _ => rfl⟩
    rw [List.filter_singleton, decide_eq_false hvalid]
    rfl

/-- The peers after this one are as they were. -/
theorem Visited.mem {network' : Network} (h : InStep network.knownPeers network.peerFailedMsgCount)
    (hvisited : Visited delivers invalidPeers peer network network') {q : Bytes} (hq : q ≠ peer) :
    q ∈ network'.knownPeers ↔ q ∈ network.knownPeers := by
  rw [← hvisited.inStep.isSome_iff, ← h.isSome_iff, hvisited.others q hq]

theorem Visited.length_le {network' : Network}
    (hvisited : Visited delivers invalidPeers peer network network') :
    network'.knownPeers.length ≤ network.knownPeers.length := by
  rw [hvisited.knownPeers]
  split
  · exact List.erase_sublist.length_le
  · exact le_refl _

/-- The list from the next position on. -/
theorem Visited.drop {network' : Network} (h : InStep network.knownPeers network.peerFailedMsgCount)
    {i : Nat} (hi : network.knownPeers[i]? = some peer)
    (hvisited : Visited delivers invalidPeers peer network network') :
    network'.knownPeers.drop (i + 1) = if gone delivers invalidPeers peer network
      then (network.knownPeers.drop (i + 1)).tail else network.knownPeers.drop (i + 1) := by
  rw [hvisited.knownPeers]
  split
  swap
  · rfl
  obtain ⟨hlt, rfl⟩ := List.getElem?_eq_some_iff.mp hi
  rw [h.nodup.erase_getElem i hlt, List.tail_drop, List.eraseIdx_eq_take_drop_succ, List.drop_append,
    List.length_take, min_eq_left hlt.le]
  simp

end Network

/-! ## The broadcast -/

section Broadcast

variable {K : Type} [PyNum K] {env : NodeEnv K} {invalidPeers : List Bytes} {n : Node}

theorem run_broadcastTo (env : NodeEnv K) (peer : Bytes)
    (h : InStep n.network.knownPeers n.network.peerFailedMsgCount) :
    ∃ n', broadcastTo env peer n = .ok () n' ∧
      n'.network = after (Network.send env.delivers peer) n.network := by
  obtain ⟨sent, network', hrun, -⟩ :=
    Network.run_send env.delivers fun hmem => h.lookup hmem
  refine ⟨{ n with sentBlocks := n.sentBlocks + 1, network := network' }, ?_, (after_ok hrun).symm⟩
  have hsend : sendMessage env peer { n with sentBlocks := n.sentBlocks + 1 }
      = .ok sent { n with sentBlocks := n.sentBlocks + 1, network := network' } :=
    onNetwork_ok hrun
  show (sendMessage env peer >>= fun _ => pure ()) { n with sentBlocks := n.sentBlocks + 1 } = _
  rw [bind_ok hsend]
  rfl

/-- The broadcast walks the list of known peers, and passes over the peer
after one that it forgets. -/
theorem broadcastCalls_eq (turns : Nat) :
    ∀ i (n : Node), InStep n.network.knownPeers n.network.peerFailedMsgCount →
      n.network.knownPeers.length ≤ i + turns →
      broadcastCalls env invalidPeers turns i n
        = (LiveList.walk (Network.visit env.delivers invalidPeers)
            (Network.gone env.delivers invalidPeers) false (n.network.knownPeers.drop i)
            n.network).filter fun peer => decide (peer ∉ invalidPeers) := by
  induction turns with
  | zero =>
      intro i n h hturns
      rw [List.drop_eq_nil_of_le (by omega)]
      rfl
  | succ turns ih =>
      intro i n h hturns
      rw [broadcastCalls]
      cases hi : n.network.knownPeers[i]? with
      | none =>
          rw [List.drop_eq_nil_of_le (List.getElem?_eq_none_iff.mp hi)]
          rfl
      | some peer =>
          obtain ⟨hlt, hpeer⟩ := List.getElem?_eq_some_iff.mp hi
          have hvisited := Network.visited_visit env.delivers invalidPeers h
            (List.mem_of_getElem? hi)
          have hdrop := hvisited.drop h hi
          rw [List.drop_eq_getElem_cons hlt, hpeer, LiveList.walk]
          by_cases hvalid : peer ∉ invalidPeers
          swap
          · obtain ⟨hvisit, hgone⟩ :=
              Network.visit_excluded env.delivers n.network (decide_eq_false hvalid)
            rw [List.filter_cons_of_neg (by simp [hvalid]), hvisit, hgone]
            simp only [if_neg hvalid]
            exact ih (i + 1) n h (by omega)
          obtain ⟨n', hrun, hnetwork⟩ := run_broadcastTo env peer h
          have hvisit : Network.visit env.delivers invalidPeers peer n.network = n'.network :=
            (if_pos hvalid).trans hnetwork.symm
          rw [hvisit] at hvisited hdrop ⊢
          have hlength := hvisited.length_le
          rw [List.filter_cons_of_pos (by simp [hvalid]), LiveList.walk_skip, ← hdrop]
          simp only [if_pos hvalid, hrun]
          rw [ih (i + 1) n' hvisited.inStep (by omega)]

/-! ## Where it loses a peer -/

/-- Of the peers `xs`, none that is to be sent to comes right after one
that has failed twice and fails again. -/
def NoThirdFailure (delivers : Nat → Bool) (invalidPeers : List Bytes) (xs : List Bytes)
    (network : Network) : Prop :=
  ∀ i p q, xs[i]? = some p → xs[i + 1]? = some q → p ∉ invalidPeers → q ∉ invalidPeers →
    (∃ count, network.peerFailedMsgCount p = some count ∧ 2 ≤ count) →
      delivers (network.attempts
        + ((xs.take i).filter fun peer => decide (peer ∉ invalidPeers)).length) = true

/-- The first of the peers, and the others after it was visited. -/
theorem noThirdFailure_cons {delivers : Nat → Bool} {peer : Bytes} {xs : List Bytes}
    {network network' : Network} (hpeer : peer ∉ xs)
    (hvisited : Network.Visited delivers invalidPeers peer network network') :
    NoThirdFailure delivers invalidPeers (peer :: xs) network ↔
      (Network.gone delivers invalidPeers peer network = true →
        ∀ q ∈ xs.head?, decide (q ∉ invalidPeers) = false) ∧
      NoThirdFailure delivers invalidPeers xs network' := by
  unfold NoThirdFailure
  rw [← Nat.and_forall_add_one]
  refine and_congr ⟨fun h hgone q hq => ?_, fun h p q hp hq hvalid hq' hcount => ?_⟩ ?_
  · obtain ⟨hvalid, hrefused, hcount⟩ := Network.gone_eq_true_iff.mp hgone
    rw [decide_eq_false_iff_not]
    intro hq'
    have hsent := h peer q rfl (List.head?_eq_getElem? ▸ hq) hvalid hq' hcount
    exact absurd hsent (by simp [hrefused])
  · obtain rfl : peer = p := Option.some.inj hp
    by_contra hrefused
    have hgone : Network.gone delivers invalidPeers peer network = true :=
      Network.gone_eq_true_iff.mpr ⟨hvalid, by simpa using hrefused, hcount⟩
    exact of_decide_eq_false (h hgone q (List.head?_eq_getElem?.trans hq)) hq'
  · refine forall_congr' fun i => forall_congr' fun p => forall_congr' fun q => ?_
    rw [List.getElem?_cons_succ, List.getElem?_cons_succ]
    refine imp_congr_right fun hp => ?_
    have hne : p ≠ peer := ne_of_mem_of_not_mem (List.mem_of_getElem? hp) hpeer
    have hcalls : ((peer :: xs).take (i + 1)).filter (fun peer => decide (peer ∉ invalidPeers))
        = [peer].filter (fun peer => decide (peer ∉ invalidPeers))
          ++ (xs.take i).filter fun peer => decide (peer ∉ invalidPeers) :=
      List.filter_append [peer] (xs.take i)
    rw [hvisited.others p hne, hvisited.attempts, hcalls, List.length_append, Nat.add_assoc]

theorem noLoss_iff (xs : List Bytes) :
    ∀ network : Network, InStep network.knownPeers network.peerFailedMsgCount → xs.Nodup →
      (∀ peer ∈ xs, peer ∈ network.knownPeers) →
      (LiveList.NoLoss (Network.visit env.delivers invalidPeers)
          (Network.gone env.delivers invalidPeers) (fun peer => decide (peer ∉ invalidPeers))
          xs network ↔
        NoThirdFailure env.delivers invalidPeers xs network) := by
  induction xs with
  | nil =>
      intro network _ _ _
      exact iff_of_true trivial fun i p q hp => by cases hp
  | cons peer xs ih =>
      intro network h hnodup hsub
      obtain ⟨hpeer, hxs⟩ := List.nodup_cons.mp hnodup
      have hvisited := Network.visited_visit env.delivers invalidPeers h
        (hsub peer List.mem_cons_self)
      rw [LiveList.NoLoss, noThirdFailure_cons hpeer hvisited,
        ih _ hvisited.inStep hxs fun q hq => ?_]
      exact (hvisited.mem h (ne_of_mem_of_not_mem hq hpeer)).mpr
        (hsub q (List.mem_cons_of_mem peer hq))

/-- **Whom a broadcast reaches.** The calls of `send_message` that make up
the broadcast hold each peer known at the start and not excluded exactly
once, if and only if none of them comes right after one that the
broadcast forgets. -/
theorem broadcast_reaches_iff (env : NodeEnv K) (invalidPeers : List Bytes) {n : Node}
    (h : InStep n.network.knownPeers n.network.peerFailedMsgCount) :
    broadcastMessage env invalidPeers n
      = (broadcastCalls env invalidPeers n.network.knownPeers.length 0 n).forM
          (broadcastTo env) n ∧
    ((∀ peer ∈ n.network.knownPeers, peer ∉ invalidPeers →
        (broadcastCalls env invalidPeers n.network.knownPeers.length 0 n).count peer = 1) ↔
      NoThirdFailure env.delivers invalidPeers n.network.knownPeers n.network) := by
  refine ⟨broadcastFrom_eq env invalidPeers _ 0 n, ?_⟩
  rw [broadcastCalls_eq _ 0 n h (by omega), List.drop_zero,
    ← noLoss_iff _ _ h h.nodup fun _ hpeer => hpeer,
    ← LiveList.walk_filter_eq_iff fun _ _ => Network.visit_excluded _ _,
    LiveList.eq_iff_count ((LiveList.walk_sublist _ false _).filter _) (h.nodup.filter _)]
  exact forall_congr' fun peer => by
    rw [List.mem_filter, and_imp, decide_eq_true_iff]

end Broadcast

/-! ## Samples -/

/-- A node that knows `alice`, who has failed twice, and `bob`. -/
def failingAlice : Node :=
  { sampleNode with
    network := after (networkRun (fun _ => false)
      [.connect alice, .connect bob, .send alice, .send alice]) .init }

theorem failingAlice_inStep :
    InStep failingAlice.network.knownPeers failingAlice.network.peerFailedMsgCount := by
  have hops : AllAdmissible (fun _ => false) .init
      [.connect alice, .connect bob, .send alice, .send alice] := by decide +kernel
  obtain ⟨network, hrun, h⟩ := Network.Consistent.run _ Network.consistent_init hops
  have hnetwork : failingAlice.network = network := after_ok hrun
  exact hnetwork ▸ h.inStep

/-- The third message to `alice` goes through. -/
theorem broadcast_reaches_sample :
    bob ∈ failingAlice.network.knownPeers ∧
    ∀ peer ∈ failingAlice.network.knownPeers, peer ∉ [] →
      (broadcastCalls { sampleNodeEnv with delivers := fun _ => true } []
        failingAlice.network.knownPeers.length 0 failingAlice).count peer = 1 :=
  ⟨by decide +kernel,
    (broadcast_reaches_iff { sampleNodeEnv with delivers := fun _ => true } []
      failingAlice_inStep).2.mpr fun _ _ _ _ _ _ _ _ => rfl⟩

/-- When it is refused, nothing is sent to `bob`. -/
theorem broadcast_misses :
    AllAdmissible (fun _ => false) .init
      [.connect alice, .connect bob, .send alice, .send alice] ∧
    bob ∈ failingAlice.network.knownPeers ∧
    (broadcastCalls { sampleNodeEnv with delivers := fun _ => false } []
      failingAlice.network.knownPeers.length 0 failingAlice).count bob = 0 := by
  decide +kernel

end Cpos
