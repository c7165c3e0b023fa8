import Cpos.Outstanding
import Cpos.Tolerance

/-!
# What the counters say

A node counts the blocks it makes, receives, inserts and discards, the
forks it finds and the resyncs it starts and completes; its statistics are
made of these. Every act enters on both sides of the books (`Entered`), so
they agree in every run (`tallied`): a block received has been inserted or
discarded, once; a block produced has been handed on; a resync is started
for a fork that has been found since the last one.

Across the nodes, an announcement is counted where it is sent, and again
at most once, where it is received (`received_le_sent`).
-/

namespace Cpos

open Python ByteString LinkedChain BlockChain Actors

variable {ι K : Type} [PyNum K]

/-! ## Forks -/

/-- No fork is found. -/
structure SameForks (s s' : BlockChain) : Prop where
  forkDetected : s'.forkDetected = s.forkDetected
  forksDetected : s'.forksDetected = s.forksDetected

instance : Std.Refl SameForks where
  refl _ := ⟨rfl, rfl⟩

instance : IsTrans BlockChain SameForks where
  trans _ _ _ h h' :=
    ⟨h'.forkDetected.trans h.forkDetected, h'.forksDetected.trans h.forksDetected⟩

section Store

variable {env : Env K} {s s' : BlockChain} {c : Chain (rules env)}

theorem insert_sameForks (h : Represents env s c) (b : Block) :
    SameForks s (after (insert env b) s) := by
  refine after_insert_cases h b (refl_of SameForks s) ?counted ?stored ?unfit
  case counted => exact fun _ _ _ => ⟨rfl, rfl⟩
  case stored => exact fun _ _ _ _ => ⟨rfl, rfl⟩
  case unfit => exact fun _ _ _ => ⟨rfl, rfl⟩

theorem merge_sameForks (h : Represents env s c) (bs : List Block) :
    SameForks s (after (merge env bs) s) := by
  have hstart : SameForks s s := refl_of SameForks s
  refine merge_keeps (P := SameForks s) ?_ ?_ ?_ bs h hstart
  · exact fun i _ hs => ⟨hs.forkDetected, hs.forksDetected⟩
  · exact fun _ _ hs => ⟨hs.forkDetected, hs.forksDetected⟩
  · exact fun b h' hs => trans_of SameForks hs (insert_sameForks h' b)

theorem confirmLoop_sameForks (round last : Int) (thresholdFuel fuel : Nat) :
    ∀ avg : Option K, Keeps SameForks (confirmLoop env round last thresholdFuel avg fuel) := by
  induction fuel with
  | zero => exact fun _ => keeps_throw _
  | succ fuel ih =>
      intro avg
      rw [confirmLoop]
      refine keeps_bind keeps_oldestUnconfirmedBlock fun row => ?_
      simp only
      split
      · refine keeps_bind (keeps_eval _) fun avg => keeps_bind (keeps_eval _) fun thresh => ?_
        split
        · exact keeps_bind (fun _ => ⟨rfl, rfl⟩) fun _ =>
            keeps_bind (fun _ => ⟨rfl, rfl⟩) fun _ => ih _
        · exact keeps_pure _
      · exact keeps_pure _

/-- The forks seen have been counted. -/
structure CountsForks (s s' : BlockChain) : Prop where
  le : s.forksDetected ≤ s'.forksDetected
  lt : s'.forkDetected = true → s.forkDetected = true ∨ s.forksDetected < s'.forksDetected

instance : Std.Refl CountsForks where
  refl _ := ⟨le_refl _, .inl⟩

instance : IsTrans BlockChain CountsForks where
  trans _ _ _ h h' := by
    refine ⟨h.le.trans h'.le, fun hdetected => ?_⟩
    rcases h'.lt hdetected with hbefore | hlt
    · exact (h.lt hbefore).imp_right fun hlt => hlt.trans_le h'.le
    · exact .inr (h.le.trans_lt hlt)

theorem SameForks.countsForks (h : SameForks s s') : CountsForks s s' :=
  ⟨le_of_eq h.forksDetected.symm, fun hdetected => .inl (h.forkDetected ▸ hdetected)⟩

theorem detectFork_countsForks (thresholdFuel : Nat) (locals : RoundLocals K) :
    Keeps CountsForks (detectFork env thresholdFuel locals) := by
  unfold detectFork
  split
  · refine keeps_bind (keeps_eval _) fun thresh => ?_
    split
    · exact keeps_throw _
    · split
      · exact fun s => ⟨Nat.le_succ _, fun _ => .inr (Nat.lt_succ_self _)⟩
      · exact keeps_pure _
  · exact keeps_pure _

theorem updateRound_countsForks (fuel : Nat) : Keeps CountsForks (updateRound env fuel) := by
  have hsame (f : BlockChain → BlockChain) (hf : ∀ s, SameForks s (f s)) :
      Keeps CountsForks (modify f : Call Unit) := fun s => (hf s).countsForks
  unfold updateRound
  refine keeps_bind (fun s => ⟨le_refl _, .inl⟩) fun now => keeps_bind (keeps_eval _) fun q =>
    keeps_bind (keeps_eval _) fun round => keeps_bind keeps_get fun s => ?_
  split
  · exact keeps_pure _
  refine keeps_bind (hsame _ fun _ => ⟨rfl, rfl⟩) fun _ =>
    keeps_bind keeps_lastConfirmedBlockInfo fun ⟨_, _, _⟩ =>
      keeps_bind keeps_lastBlockId fun _ => ?_
  split
  · exact keeps_pure _
  · exact keeps_bind (fun s => (confirmLoop_sameForks _ _ _ _ _ s).countsForks) fun _ =>
      detectFork_countsForks _ _

end Store

/-! ## Entries -/

/-- A fork is seen that no resync has begun for. -/
def Node.pending (n : Node) : Nat := if n.state = .listening ∧ n.bc.forkDetected then 1 else 0

/-- What is entered from `n` to `n'`, while so many announcements are
handled, blocks made and announcements sent. -/
structure Entered (handled made sent : Nat) (n n' : Node) : Prop where
  handled : n'.insertedBlocks + n'.discardedBlocks
    = n.insertedBlocks + n.discardedBlocks + handled
  made : n'.producedBlocks = n.producedBlocks + made
  sent : n.sentBlocks + sent ≤ n'.sentBlocks
  missed : n'.missedBlocks.length + n.discardedBlocks
    ≤ n.missedBlocks.length + n'.discardedBlocks
  resyncs : n'.successfullResyncs + n'.due + n.resyncs
    ≤ n.successfullResyncs + n.due + n'.resyncs
  forks : n'.resyncs + n'.pending + n.bc.forksDetected
    ≤ n.resyncs + n.pending + n'.bc.forksDetected

theorem Entered.trans {handled made sent handled' made' sent' : Nat} {n n₁ n' : Node}
    (h : Entered handled made sent n n₁) (h' : Entered handled' made' sent' n₁ n') :
    Entered (handled + handled') (made + made') (sent + sent') n n' where
  handled := by have := h.handled; have := h'.handled; omega
  made := by have := h.made; have := h'.made; omega
  sent := by have := h.sent; have := h'.sent; omega
  missed := by have := h.missed; have := h'.missed; omega
  resyncs := by have := h.resyncs; have := h'.resyncs; omega
  forks := by have := h.forks; have := h'.forks; omega

/-- The counters of the node are the same. -/
structure SameCounters (n n' : Node) : Prop where
  producedBlocks : n'.producedBlocks = n.producedBlocks
  discardedBlocks : n'.discardedBlocks = n.discardedBlocks
  insertedBlocks : n'.insertedBlocks = n.insertedBlocks
  sentBlocks : n'.sentBlocks = n.sentBlocks
  resyncs : n'.resyncs = n.resyncs
  successfullResyncs : n'.successfullResyncs = n.successfullResyncs

instance : Std.Refl SameCounters where
  refl _ := ⟨rfl, rfl, rfl, rfl, rfl, rfl⟩

instance : IsTrans Node SameCounters where
  trans _ _ _ h h' :=
    ⟨h'.producedBlocks.trans h.producedBlocks, h'.discardedBlocks.trans h.discardedBlocks,
      h'.insertedBlocks.trans h.insertedBlocks, h'.sentBlocks.trans h.sentBlocks,
      h'.resyncs.trans h.resyncs, h'.successfullResyncs.trans h.successfullResyncs⟩

theorem Node.pending_le {n n' : Node} (hstate : n'.state = n.state)
    (hforks : CountsForks n.bc n'.bc) :
    n'.pending + n.bc.forksDetected ≤ n.pending + n'.bc.forksDetected := by
  have hle := hforks.le
  rw [pending, pending, hstate]
  by_cases hpending : n.state = .listening ∧ n'.bc.forkDetected
  swap
  · rw [if_neg hpending]
    omega
  rw [if_pos hpending]
  rcases hforks.lt hpending.2 with hdetected | hlt
  · rw [if_pos ⟨hpending.1, hdetected⟩]
    omega
  · omega

/-- No resync is started or ended, and nothing announced. -/
theorem Entered.of_state {handled made : Nat} {n n' : Node} (hstate : n'.state = n.state)
    (hforks : CountsForks n.bc n'.bc)
    (hhandled : n'.insertedBlocks + n'.discardedBlocks
      = n.insertedBlocks + n.discardedBlocks + handled)
    (hmade : n'.producedBlocks = n.producedBlocks + made) (hsent : n'.sentBlocks = n.sentBlocks)
    (hmissed : n'.missedBlocks.length + n.discardedBlocks
      ≤ n.missedBlocks.length + n'.discardedBlocks)
    (hresyncs : n'.resyncs = n.resyncs)
    (hsuccessfull : n'.successfullResyncs = n.successfullResyncs) :
    Entered handled made 0 n n' where
  handled := hhandled
  made := hmade
  sent := le_of_eq hsent.symm
  missed := hmissed
  resyncs := by
    have hdue : n'.due = n.due := by rw [Node.due, Node.due, hstate]
    rw [hsuccessfull, hresyncs, hdue]
  forks := by
    have hle := Node.pending_le hstate hforks
    rw [hresyncs]
    omega

theorem SameCounters.entered {n n' : Node} (h : SameCounters n n') (hstate : n'.state = n.state)
    (hmissed : n'.missedBlocks.length ≤ n.missedBlocks.length)
    (hforks : CountsForks n.bc n'.bc) : Entered 0 0 0 n n' := by
  refine .of_state hstate hforks ?_ h.producedBlocks h.sentBlocks ?_ h.resyncs h.successfullResyncs
  · rw [h.insertedBlocks, h.discardedBlocks, Nat.add_zero]
  · rw [h.discardedBlocks]
    exact Nat.add_le_add_right hmissed _

/-! ## Announcements -/

def Message.announces : Message → Nat
  | .blockBroadcast _ _ => 1
  | _ => 0

/-- Announcements of blocks are counted. -/
def announces (e : Envelope Bytes Message) : Nat := e.msg.announces

theorem announces_le_one (e : Envelope Bytes Message) : announces e ≤ 1 := by
  unfold announces Message.announces
  split <;> omega

section Broadcast

variable {env : NodeEnv K} {invalidPeers : List Bytes} {n m m' : Node}

theorem messagesSent_length_le (msg : Message) : ∀ (peers : List Bytes) (n : Node),
    (messagesSent env msg peers n).length ≤ peers.length
  | [], _ => le_refl _
  | peer :: peers, n => by
      have hone : (messageSent env n peer msg).length ≤ 1 := messageSent_length_le peer msg
      have hrest := messagesSent_length_le msg peers (after (broadcastTo env peer) n)
      rw [messagesSent, List.length_append, List.length_cons]
      omega

theorem broadcastTo_eq_ok {peer : Bytes} (h : broadcastTo env peer m = .ok () m') :
    ∃ sent network, Network.send env.delivers peer m.network = .ok sent network ∧
      m' = { m with sentBlocks := m.sentBlocks + 1, network } := by
  obtain ⟨_, m₁, hcount, h₁⟩ := bind_eq_ok h
  cases hcount
  obtain ⟨sent, m₂, hsend, h₂⟩ := bind_eq_ok h₁
  cases h₂
  have hrun : onNetwork (Network.send env.delivers peer) { m with sentBlocks := m.sentBlocks + 1 }
      = .ok sent m' := hsend
  obtain ⟨network, hnetwork, rfl⟩ := focus_eq_ok hrun
  exact ⟨sent, network, hnetwork, rfl⟩

theorem broadcastTo_of_send {peer : Bytes} {sent : Bool} {network : Network}
    (h : Network.send env.delivers peer n.network = .ok sent network) :
    broadcastTo env peer n = .ok () { n with sentBlocks := n.sentBlocks + 1, network } := by
  have hsend : sendMessage env peer { n with sentBlocks := n.sentBlocks + 1 }
      = .ok sent { n with sentBlocks := n.sentBlocks + 1, network } := onNetwork_ok h
  show (sendMessage env peer >>= fun _ => pure ()) { n with sentBlocks := n.sentBlocks + 1 } = _
  rw [bind_ok hsend]
  rfl

/-- Every call of a broadcast is counted. The calls are those that the
network leads to. -/
theorem broadcastFrom_counts (turns : Nat) : ∀ {i : Nat} {n m : Node}, n.network = m.network →
    broadcastFrom env invalidPeers turns i m = .ok () m' →
      m'.sentBlocks = m.sentBlocks + (broadcastCalls env invalidPeers turns i n).length := by
  induction turns with
  | zero =>
      intro i n m _ h
      cases h
      rfl
  | succ turns ih =>
      intro i n m hnetwork h
      rw [broadcastCalls]
      cases hi : n.network.knownPeers[i]? with
      | none =>
          rw [broadcastFrom_end (hnetwork ▸ hi)] at h
          cases h
          rfl
      | some peer =>
          rw [broadcastFrom_peer (hnetwork ▸ hi)] at h
          by_cases hvalid : peer ∉ invalidPeers
          swap
          · rw [if_neg hvalid] at h
            simp only [if_neg hvalid]
            exact ih hnetwork h
          rw [if_pos hvalid] at h
          obtain ⟨_, m₁, hto, hrest⟩ := bind_eq_ok h
          obtain ⟨sent, network, hsend, rfl⟩ := broadcastTo_eq_ok hto
          have hto' := broadcastTo_of_send (hnetwork ▸ hsend)
          have hsame : ({ n with sentBlocks := n.sentBlocks + 1, network } : Node).network
              = ({ m with sentBlocks := m.sentBlocks + 1, network } : Node).network := rfl
          have hlength := ih hsame hrest
          simp only [if_pos hvalid, hto', List.length_cons]
          rw [hlength]
          show m.sentBlocks + 1 + _ = m.sentBlocks + (_ + 1)
          omega

theorem broadcastMessage_entered (hnetwork : n.network = m.network)
    (h : broadcastMessage env invalidPeers m = .ok () m') (id : Bytes) (msg : Message) :
    Entered 0 0 (charge announces (posted id (broadcastSent env n invalidPeers msg))) m m' := by
  have hcalls : broadcastFrom env invalidPeers n.network.knownPeers.length 0 m = .ok () m' := by
    rw [hnetwork]
    exact h
  have hsent := broadcastFrom_counts _ hnetwork hcalls
  have hle := charge_le_length announces_le_one
    (posted id (broadcastSent env n invalidPeers msg))
  rw [posted_length, broadcastSent] at hle
  have hlength := hle.trans (messagesSent_length_le msg _ n)
  obtain ⟨network, sentBlocks, rfl⟩ := (broadcastMessage_sends invalidPeers).of_ok h
  refine ⟨rfl, rfl, ?_, le_refl _, le_refl _, le_refl _⟩
  have hsent : sentBlocks = m.sentBlocks + _ := hsent
  rw [broadcastSent]
  show m.sentBlocks + _ ≤ sentBlocks
  omega

end Broadcast

/-! ## Acts -/

/-- Only the network has changed. -/
def Networked (n n' : Node) : Prop := ∃ network, n' = { n with network }

instance : Std.Refl Networked where
  refl n := ⟨n.network, rfl⟩

instance : IsTrans Node Networked where
  trans := by
    rintro n _ _ ⟨_, rfl⟩ ⟨network, rfl⟩
    exact ⟨network, rfl⟩

theorem Networked.sameCounters {n n' : Node} (h : Networked n n') : SameCounters n n' := by
  obtain ⟨network, rfl⟩ := h
  exact ⟨rfl, rfl, rfl, rfl, rfl, rfl⟩

theorem Networked.entered {n n' : Node} (h : Networked n n') : Entered 0 0 0 n n' := by
  obtain ⟨network, rfl⟩ := h
  exact ⟨rfl, rfl, le_refl _, le_refl _, le_refl _, le_refl _⟩

theorem onNetwork_networked {α : Type} (x : Network.Call α) : Keeps Networked (onNetwork x) :=
  fun n => by
    rw [onNetwork, after_focus]
    exact ⟨_, rfl⟩

section Acts

variable {env : LoopEnv K} {n n' : Node} {a : Act}

theorem forgetSurplus_networked (pick : Nat → Nat) :
    ∀ turns, Keeps Networked (forgetSurplus env pick turns)
  | 0 => keeps_pure _
  | turns + 1 => by
      rw [forgetSurplus]
      refine keeps_bind keeps_get fun n => ?_
      simp only
      split
      · split
        · exact keeps_throw _
        · exact keeps_bind (onNetwork_networked _) fun _ =>
            keeps_bind (onNetwork_networked _) fun _ => forgetSurplus_networked pick turns
      · exact keeps_pure _

theorem controlNumberOfPeers_networked (additionalPeers : Option (List Bytes)) (pick : Nat → Nat) :
    Keeps Networked (controlNumberOfPeers env additionalPeers pick) := by
  unfold controlNumberOfPeers
  refine keeps_bind keeps_get fun n => ?_
  split
  · exact keeps_bind (onNetwork_networked _) fun _ =>
      keeps_bind keeps_get fun _ => forgetSurplus_networked pick _
  · exact keeps_bind keeps_get fun _ => forgetSurplus_networked pick _

theorem answerRequest_networked {peerId : Bytes} {blockIndex : Int}
    (h : answerRequest env.toNodeEnv peerId blockIndex n = .ok () n') : Networked n n' := by
  obtain ⟨answer, n₁, hanswer, h₁⟩ := bind_eq_ok h
  obtain ⟨sent, n₂, hsend, h₂⟩ := bind_eq_ok h₁
  cases h₂
  obtain ⟨bc, hbc, rfl⟩ := focus_eq_ok hanswer
  obtain rfl : n.bc = bc := (keeps_resyncAnswer blockIndex).of_ok hbc
  exact (onNetwork_networked _).of_ok hsend

theorem chooseMissed_counters (env : NodeEnv K) (n : Node) :
    SameCounters n (chooseMissed env n) ∧
      (chooseMissed env n).missedBlocks.length ≤ n.missedBlocks.length := by
  unfold chooseMissed
  simp only
  split
  · exact ⟨refl_of SameCounters _, le_refl _⟩
  · exact ⟨⟨rfl, rfl, rfl, rfl, rfl, rfl⟩, List.length_erase_le⟩

/-- The search for a peer changes no counter and chooses missed blocks. -/
theorem findResyncPeer_counters {found : Bool} (turns : Nat) : ∀ {n : Node},
    findResyncPeer env.toNodeEnv turns n = .ok found n' →
      SameCounters n n' ∧ n'.missedBlocks.length ≤ n.missedBlocks.length := by
  induction turns with
  | zero =>
      intro n h
      cases h
      exact ⟨refl_of SameCounters _, le_refl _⟩
  | succ turns ih =>
      intro n h
      obtain ⟨sent, n₁, hsend, hrest⟩ := findResyncPeer_succ_ok h
      have hnetworked : Networked _ n₁ := sendRequest_network hsend
      obtain ⟨hchosen, hlength⟩ := chooseMissed_counters env.toNodeEnv n
      have hsame := trans_of SameCounters hchosen hnetworked.sameCounters
      obtain ⟨network, rfl⟩ := hnetworked
      cases sent with
      | true =>
          obtain ⟨-, rfl⟩ := hrest
          exact ⟨hsame, hlength⟩
      | false =>
          obtain ⟨hsame', hle⟩ := ih hrest
          exact ⟨trans_of SameCounters hsame hsame', hle.trans hlength⟩

/-- A resync is started for the fork that was seen. -/
theorem startResync_entered (h : startResync env.toNodeEnv n = .ok () n') :
    Entered 0 0 0 n n' := by
  rcases startResync_ok h with ⟨-, rfl⟩ | ⟨⟨hlistening, hdetected, -⟩, found, n₁, hfind, rfl⟩
  · exact (refl_of Networked n').entered
  obtain ⟨hsame, hmissed⟩ := findResyncPeer_counters _ hfind
  obtain ⟨hbc, -⟩ := findResyncPeer_frame _ hfind
  obtain ⟨hstate, -⟩ := findResyncPeer_asks _ (le_refl _) hfind
  have hentered : Entered 0 0 0 n n₁ := by
    refine hsame.entered hstate hmissed ?_
    rw [hbc]
    exact refl_of CountsForks _
  cases found with
  | false => exact hentered
  | true =>
      have hlistening' : n₁.state = .listening := hstate.trans hlistening
      have hdetected' : n₁.bc.forkDetected = true := hbc ▸ hdetected
      have hpending : n₁.pending = 1 := if_pos ⟨hlistening', hdetected'⟩
      have hdue : n₁.due = 0 := by
        rw [Node.due, hlistening']
        rfl
      have hbegun :
          Entered 0 0 0 n₁ { n₁ with state := .resyncing, resyncs := n₁.resyncs + 1 } := by
        refine ⟨rfl, rfl, le_refl _, le_refl _, ?_, ?_⟩
        · show n₁.successfullResyncs + 1 + n₁.resyncs
            ≤ n₁.successfullResyncs + n₁.due + (n₁.resyncs + 1)
          omega
        · show n₁.resyncs + 1 + 0 + n₁.bc.forksDetected
            ≤ n₁.resyncs + n₁.pending + n₁.bc.forksDetected
          omega
      exact hentered.trans hbegun

/-- The resync that ends had been counted. -/
theorem response_entered {block : Option Block} (hc : ∃ c, Represents env.toEnv n.bc c)
    (hresyncing : n.state = .resyncing)
    (h : handleResyncResponse env.toNodeEnv block n = .ok () n') : Entered 0 0 0 n n' := by
  have hdue : n.due = 1 := if_pos hresyncing
  cases block with
  | none =>
      rcases response_none_ok h with ⟨-, sent, hsend⟩ | ⟨-, rfl⟩
      · have hnetworked : Networked _ n' := sendRequest_network hsend
        let n₁ : Node := { n with receivedResyncBlocks := [] }
        obtain ⟨hchosen, hlength⟩ := chooseMissed_counters env.toNodeEnv n₁
        obtain ⟨hbc, hstate, -⟩ := chooseMissed_frame env.toNodeEnv n₁
        have hsame : SameCounters n (chooseMissed env.toNodeEnv n₁) :=
          ⟨hchosen.1, hchosen.2, hchosen.3, hchosen.4, hchosen.5, hchosen.6⟩
        refine (hsame.entered hstate hlength ?_).trans hnetworked.entered
        rw [hbc]
        exact refl_of CountsForks _
      · refine ⟨rfl, rfl, le_refl _, le_refl _, ?_, ?_⟩
        · show n.successfullResyncs + 0 + n.resyncs ≤ n.successfullResyncs + n.due + n.resyncs
          omega
        · show n.resyncs + 0 + n.bc.forksDetected ≤ n.resyncs + n.pending + n.bc.forksDetected
          omega
  | some block =>
      obtain ⟨merged, n₁, hmerge, hrest⟩ := response_some_ok h
      obtain ⟨left, bc, hrun, rfl⟩ := mergeReceived_ok hmerge
      obtain ⟨c, hc⟩ := hc
      have hforks : SameForks n.bc bc := by
        rw [← after_ok hrun]
        exact merge_sameForks hc _
      cases merged with
      | true =>
          obtain rfl : n' = _ := hrest
          have hcount := hforks.forksDetected
          refine ⟨rfl, rfl, le_refl _, Nat.add_le_add_right (Nat.zero_le _) _, ?_, ?_⟩
          · show n.successfullResyncs + 1 + 0 + n.resyncs
              ≤ n.successfullResyncs + n.due + n.resyncs
            omega
          · show n.resyncs + 0 + n.bc.forksDetected ≤ n.resyncs + n.pending + bc.forksDetected
            omega
      | false =>
          obtain ⟨sent, hsend⟩ := hrest
          have hnetworked : Networked _ n' := sendRequest_network hsend
          let n₂ : Node := { n with
            bc
            receivedResyncBlocks := left
            requestIndex := n.requestIndex.map fun index => index - 1 }
          have hsame : SameCounters n n₂ := ⟨rfl, rfl, rfl, rfl, rfl, rfl⟩
          exact (hsame.entered rfl (le_refl _) hforks.countsForks).trans hnetworked.entered

theorem produceBlock_entered {mock : Int → TransactionList}
    (hc : ∃ c, Represents env.toEnv n.bc c) (h : produceBlock env.toNodeEnv mock n = .ok () n') :
    Entered 0 ((Act.produce mock).made env n).length
      (charge announces (posted env.id ((Act.produce mock).posts env n))) n n' := by
  obtain ⟨r, n₁, hgenerate, h₁⟩ := bind_eq_ok h
  obtain ⟨bc, hbc, rfl⟩ := focus_eq_ok hgenerate
  obtain rfl : n.bc = bc := (generateBlock_keeps mock).of_ok hbc
  have hreturned : returned (generateBlock env.toNodeEnv mock) n.bc = some r := returned_ok hbc
  have hnothing (hmade : (Act.produce mock).made env n = []) (hn : n' = n) :
      Entered 0 ((Act.produce mock).made env n).length
        (charge announces (posted env.id ((Act.produce mock).posts env n))) n n' := by
    rw [Act.posts, hmade, hn]
    exact (refl_of Networked n).entered
  cases r with
  | none =>
      cases h₁
      refine hnothing ?_ rfl
      rw [Act.made, hreturned]
      exact ite_self []
  | some newBlock =>
      have h₂ : (if env.broadcastCreatedBlock then _ else pure () : NodeCall Unit) n
          = .ok () n' := h₁
      by_cases hcreated : env.broadcastCreatedBlock = true
      swap
      · rw [if_neg hcreated] at h₂
        cases h₂
        exact hnothing (if_neg hcreated) rfl
      rw [if_pos hcreated] at h₂
      obtain ⟨_, n₂, hcount, h₃⟩ := bind_eq_ok h₂
      cases hcount
      obtain ⟨stored, n₃, hinsert, h₄⟩ := bind_eq_ok h₃
      obtain ⟨bc', hbc', rfl⟩ := focus_eq_ok hinsert
      obtain ⟨c, hc⟩ := hc
      have hforks : SameForks n.bc bc' := by
        rw [← after_ok hbc']
        exact insert_sameForks hc _
      have hmade : (Act.produce mock).made env n = [newBlock] := by
        rw [Act.made, if_pos hcreated, hreturned]
        rfl
      have hposts : (Act.produce mock).posts env n
          = broadcastSent env.toNodeEnv n [] (.blockBroadcast newBlock env.id) := by
        rw [Act.posts, hmade, List.flatMap_singleton, returned_ok hbc']
        rfl
      have hproduced : Entered 0 1 0 n
          { n with producedBlocks := n.producedBlocks + 1, bc := bc' } :=
        .of_state rfl hforks.countsForks rfl rfl rfl (le_refl _) rfl rfl
      have hnetwork : n.network
          = ({ n with producedBlocks := n.producedBlocks + 1, bc := bc' } : Node).network := rfl
      have hsent := hproduced.trans
        (broadcastMessage_entered hnetwork h₄ env.id (.blockBroadcast newBlock env.id))
      rw [hmade, hposts]
      rwa [Nat.zero_add, Nat.add_zero, Nat.zero_add] at hsent

/-- A block that is handled is inserted or discarded. -/
theorem handleNewBlock_entered {block : Block} {peerId : Bytes} {r : Bool}
    (hc : ∃ c, Represents env.toEnv n.bc c) (hlistening : n.state = .listening)
    (h : handleNewBlock env.toNodeEnv block peerId n = .ok r n') :
    Entered 1 0 (charge announces (posted env.id
      ((Act.handle (.blockBroadcast block peerId)).posts env n))) n n' := by
  have hposts : (Act.handle (.blockBroadcast block peerId)).posts env n
      = if admits env.toNodeEnv n block ∧ env.broadcastReceivedBlock then
          broadcastSent env.toNodeEnv n [peerId, block.ownerPubkey] (.blockBroadcast block env.id)
        else [] := by
    simp only [Act.posts, handleSent, hlistening]
  rw [run_handleNewBlock] at h
  rw [hposts]
  by_cases hadmits : admits env.toNodeEnv n block = true
  swap
  · rw [if_neg hadmits] at h
    cases h
    rw [if_neg fun hboth => hadmits hboth.1]
    exact ⟨rfl, rfl, le_refl _, Nat.add_le_add_left (Nat.le_succ _) _, le_refl _, le_refl _⟩
  rw [if_pos hadmits] at h
  have h' : (forwardBlock env.toNodeEnv block peerId >>= _ : NodeCall Bool) n = .ok r n' := h
  obtain ⟨_, n₁, hforward, -⟩ := bind_eq_ok h'
  have hsent : Entered 0 0 (charge announces (posted env.id
      (if admits env.toNodeEnv n block ∧ env.broadcastReceivedBlock then
        broadcastSent env.toNodeEnv n [peerId, block.ownerPubkey] (.blockBroadcast block env.id)
      else []))) n n₁ := by
    have hrun : (if env.broadcastReceivedBlock then
        broadcastMessage env.toNodeEnv [peerId, block.ownerPubkey] else pure () : NodeCall Unit) n
        = .ok () n₁ := hforward
    by_cases hreceived : env.broadcastReceivedBlock = true
    · rw [if_pos hreceived] at hrun
      rw [if_pos ⟨hadmits, hreceived⟩]
      exact broadcastMessage_entered rfl hrun env.id _
    · rw [if_neg hreceived] at hrun
      cases hrun
      rw [if_neg fun hboth => hreceived hboth.2]
      exact (refl_of Networked n).entered
  have hsame : n₁.bc = n.bc := ((forwardBlock_sameStore block peerId).of_ok hforward).1
  obtain ⟨c, hc⟩ := hc
  rw [run_insertNewBlock hforward] at h
  cases hrun : insert env.toEnv block n₁.bc with
  | error e bc =>
      simp only [hrun] at h
      cases h
  | ok stored bc =>
      have hforks : SameForks n₁.bc bc := by
        rw [← after_ok hrun]
        exact insert_sameForks (hsame ▸ hc) block
      simp only [hrun] at h
      cases stored with
      | true =>
          cases h
          have hinserted : Entered 1 0 0 n₁
              { n₁ with bc, insertedBlocks := n₁.insertedBlocks + 1 } :=
            .of_state rfl hforks.countsForks (Nat.add_right_comm ..) rfl rfl (le_refl _) rfl rfl
          have hboth := hsent.trans hinserted
          rwa [Nat.zero_add, Nat.add_zero] at hboth
      | false =>
          cases h
          have hdiscarded : Entered 1 0 0 n₁ { n₁ with
              bc
              missedBlocks := n₁.missedBlocks ++ [(block, peerId)]
              discardedBlocks := n₁.discardedBlocks + 1 } := by
            refine .of_state rfl hforks.countsForks rfl rfl rfl ?_ rfl rfl
            show (n₁.missedBlocks ++ [(block, peerId)]).length + n₁.discardedBlocks
              ≤ n₁.missedBlocks.length + (n₁.discardedBlocks + 1)
            rw [List.length_append, List.length_singleton]
            omega
          have hboth := hsent.trans hdiscarded
          rwa [Nat.zero_add, Nat.add_zero] at hboth

/-- The announcements that an act handles. -/
def Act.handled (n : Node) : Act → Nat
  | .handle (.blockBroadcast _ _) => if n.state = .listening then 1 else 0
  | _ => 0

/-- The acts that announce nothing. -/
theorem announces_of_posts (h : a.Leads env n n') (hproduce : ∀ mock, a ≠ .produce mock)
    (hblock : ∀ block peerId, a ≠ .handle (.blockBroadcast block peerId)) :
    charge announces (posted env.id (a.posts env n)) = 0 := by
  refine charge_of_free fun e he => ?_
  obtain ⟨-, hpost⟩ := mem_posted.mp he
  obtain ⟨sender, dest, msg⟩ := e
  cases h.posts hpost with
  | asks _ hasks =>
      obtain ⟨missed, requestIndex, -, -, hp⟩ := hasks.request
      obtain ⟨rfl, rfl⟩ := Prod.mk.inj hp
      rfl
  | answers _ => rfl
  | forwards _ => exact absurd rfl (hblock _ _)
  | announces _ => exact absurd rfl (hproduce _)
  | parts => rfl

/-- What every act enters. -/
theorem Act.Leads.entered (h : a.Leads env n n') (hc : ∃ c, Represents env.toEnv n.bc c) :
    Entered (a.handled n) (a.made env n).length
      (charge announces (Actors.posted env.id (a.posts env n))) n n' := by
  by_cases hproduce : ∃ mock, a = .produce mock
  · obtain ⟨mock, rfl⟩ := hproduce
    exact produceBlock_entered hc h
  have hmade : a.made env n = [] := by
    cases a with
    | produce mock => exact absurd ⟨mock, rfl⟩ hproduce
    | _ => rfl
  rw [hmade]
  by_cases hblock : ∃ block peerId, a = .handle (.blockBroadcast block peerId)
  · obtain ⟨block, peerId, rfl⟩ := hblock
    have hrun : handleMessage env.toNodeEnv (.blockBroadcast block peerId) n = .ok () n' := h
    cases hstate : n.state with
    | listening =>
        rw [run_handleMessage_broadcast hstate] at hrun
        obtain ⟨r, n₁, hhandle, hrest⟩ := bind_eq_ok hrun
        cases hrest
        rw [Act.handled, if_pos hstate]
        exact handleNewBlock_entered hc hstate hhandle
    | resyncing =>
        rw [handleMessage, bind_ok (get_ok n), hstate] at hrun
        cases hrun
        have hposts : (Act.handle (.blockBroadcast block peerId)).posts env n = [] := by
          simp only [Act.posts, handleSent, hstate]
        rw [Act.handled, if_neg (by simp [hstate]), hposts]
        exact (refl_of Networked n).entered
  have hblock' (block : Block) (peerId : Bytes) :
      a ≠ .handle (.blockBroadcast block peerId) := fun ha => hblock ⟨block, peerId, ha⟩
  rw [announces_of_posts h (not_exists.mp hproduce) hblock']
  cases a with
  | startResync => exact startResync_entered h
  | updateRound fuel =>
      have hrun : onChain (Cpos.updateRound env.toEnv fuel) n = .ok () n' := h
      obtain ⟨bc, hbc, rfl⟩ := focus_eq_ok hrun
      have hforks : CountsForks n.bc bc := (updateRound_countsForks fuel).of_ok hbc
      have hsame : SameCounters n { n with bc } := ⟨rfl, rfl, rfl, rfl, rfl, rfl⟩
      exact hsame.entered rfl (le_refl _) hforks
  | produce mock => exact absurd ⟨mock, rfl⟩ hproduce
  | read sender => exact ((onNetwork_networked _).of_ok h).entered
  | controlPeers additionalPeers pick =>
      exact ((controlNumberOfPeers_networked additionalPeers pick).of_ok h).entered
  | handle msg =>
      have hrun : handleMessage env.toNodeEnv msg n = .ok () n' := h
      rw [handleMessage, bind_ok (get_ok n)] at hrun
      cases hstate : n.state with
      | listening =>
          rw [hstate] at hrun
          cases msg with
          | blockBroadcast block peerId => exact absurd rfl (hblock' block peerId)
          | peerForgetRequest peerId => exact ((onNetwork_networked _).of_ok hrun).entered
          | resyncRequest peerId blockIndex => exact (answerRequest_networked hrun).entered
          | _ =>
              cases hrun
              exact (refl_of Networked n).entered
      | resyncing =>
          rw [hstate] at hrun
          cases msg with
          | blockBroadcast block peerId => exact absurd rfl (hblock' block peerId)
          | resyncResponse block => exact response_entered hc hstate hrun
          | resyncRequest peerId blockIndex => exact (answerRequest_networked hrun).entered
          | _ =>
              cases hrun
              exact (refl_of Networked n).entered

/-! ## Runs and moves -/

def handledOf (env : LoopEnv K) : Node → List Act → Nat
  | _, [] => 0
  | n, a :: acts => a.handled n + handledOf env (after (a.call env) n) acts

theorem runActs_entered {acts : List Act} : ∀ {n n' : Node}, runActs env n acts = some n' →
    (∃ c, Represents env.toEnv n.bc c) →
      Entered (handledOf env n acts) (madeOf env n acts).length
        (charge announces (posted env.id (postsOf env n acts))) n n' := by
  induction acts with
  | nil =>
      intro n n' h _
      cases h
      exact (refl_of Networked n).entered
  | cons a acts ih =>
      intro n n' h hc
      obtain ⟨n₁, hleads, hrest⟩ := runActs_cons h
      have hentered := (hleads.entered hc).trans (ih hrest (hleads.effect.represents hc))
      rwa [handledOf, madeOf, postsOf, hleads.after, List.length_append, posted_append,
        charge_append]

theorem handledOf_of_own {acts : List Act} (h : ∀ a ∈ acts, ∀ msg, a ≠ .handle msg) :
    ∀ n, handledOf env n acts = 0 := by
  induction acts with
  | nil => exact fun _ => rfl
  | cons a acts ih =>
      intro n
      obtain ⟨ha, hacts⟩ := List.forall_mem_cons.mp h
      have hzero : a.handled n = 0 := by
        cases a with
        | handle msg => exact absurd rfl (ha msg)
        | _ => rfl
      rw [handledOf, hzero, ih hacts]

/-- The announcements among what is read. -/
def handledFrom (n : Node) : Option (Bytes × Message) → Nat
  | none => 0
  | some (_, msg) => (Act.handle msg).handled n

theorem handledOf_receiveActs (t : Turn) (n : Node) :
    handledOf env n (receiveActs t) = handledFrom n t.received := by
  unfold receiveActs
  split
  · next hreceived =>
    rw [hreceived]
    rfl
  · next sender msg hreceived =>
    obtain ⟨network, hread⟩ := onNetwork_networked (modify (Network.read sender)) n
    have hhandled : (Act.handle msg).handled (after ((Act.read sender).call env) n)
        = (Act.handle msg).handled n := by
      rw [Act.call, hread]
      rfl
    rw [hreceived, handledOf, handledOf, handledOf, handledOf, hhandled]
    show 0 + (_ + (0 + 0)) = _
    rw [Nat.zero_add, Nat.add_zero]
    rfl

theorem handledFrom_le (n : Node) (dest : Bytes) : ∀ input : Option (Bytes × Message),
    handledFrom n input ≤ chargeOf announces dest input
  | none => le_refl _
  | some (sender, msg) => by
      cases msg with
      | blockBroadcast block peerId =>
          show (if n.state = .listening then 1 else 0) ≤ 1
          split <;> omega
      | _ => exact le_refl _

theorem Process.count_handled (p : Process) (received : Option (Bytes × Message)) :
    (p.count received).receivedBlocks = p.receivedBlocks + handledFrom p.node received ∧
      p.messageCount + handledFrom p.node received ≤ (p.count received).messageCount := by
  cases received with
  | none =>
      have hcount : p.count none = p := by
        unfold Process.count
        split <;> simp_all
      rw [hcount]
      exact ⟨rfl, le_refl _⟩
  | some received =>
      obtain ⟨sender, msg⟩ := received
      unfold Process.count handledFrom
      cases hstate : p.node.state with
      | listening =>
          cases msg with
          | blockBroadcast block peerId => simp [Act.handled, hstate]
          | _ => exact ⟨rfl, Nat.le_succ _⟩
      | resyncing =>
          cases msg with
          | blockBroadcast block peerId => simp [Act.handled, hstate]
          | _ => exact ⟨rfl, Nat.le_succ _⟩

/-- A move enters what it handles in the counters of the loop as well. -/
theorem Process.Move.entered {p p' : Process} {input : Option (Bytes × Message)}
    {posts : List Post} (h : Process.Move env p input p' posts)
    (hc : ∃ c, Represents env.toEnv p.node.bc c) :
    ∃ handled made, Entered handled made (charge announces (Actors.posted env.id posts))
        p.node p'.node ∧
      p'.made.length = p.made.length + made ∧ p'.receivedBlocks = p.receivedBlocks + handled ∧
      p.messageCount + handled ≤ p'.messageCount ∧
      handled ≤ chargeOf announces env.id input := by
  cases h with
  | @advances fuel mock reading loop _ _ h =>
      have hentered := runActs_entered (advance_ok h).runActs hc
      rw [handledOf_of_own fun a ha msg hmsg => by
        rcases mem_advanceActs ha with rfl | rfl | rfl <;> cases hmsg] at hentered
      exact ⟨_, _, hentered, List.length_append, rfl, le_refl _, le_refl _⟩
  | @reads t loop _ h =>
      obtain ⟨n', hn', rfl⟩ := onNode_eq_ok h
      have hentered := runActs_entered (receiveMessage_runActs hn') hc
      rw [madeOf_receiveActs, handledOf_receiveActs] at hentered
      obtain ⟨hreceived, hmessages⟩ := p.count_handled t.received
      refine ⟨_, 0, hentered, ?_, hreceived, hmessages, handledFrom_le _ _ _⟩
      unfold Process.count
      split <;> rfl

end Acts

/-! ## The books of a system -/

/-- The counters of a process agree. -/
structure Process.Tallied (p : Process) : Prop where
  received : p.node.insertedBlocks + p.node.discardedBlocks = p.receivedBlocks
  messages : p.receivedBlocks ≤ p.messageCount
  produced : p.node.producedBlocks = p.made.length
  missed : p.node.missedBlocks.length ≤ p.node.discardedBlocks
  resyncs : p.node.successfullResyncs + p.node.due ≤ p.node.resyncs
  forks : p.node.resyncs + p.node.pending ≤ p.node.bc.forksDetected

theorem Process.Started.counters_agree {env : LoopEnv K} {p : Process} (h : p.Started env) :
    p.Tallied := by
  have hdue : p.node.due = 0 := by
    rw [Node.due, h.node.state]
    rfl
  refine ⟨?_, ?_, ?_, ?_, ?_, ?_⟩
  · rw [h.insertedBlocks, h.discardedBlocks, h.receivedBlocks]
  · rw [h.receivedBlocks]
    exact Nat.zero_le _
  · rw [h.producedBlocks, h.made]
    rfl
  · rw [h.node.missedBlocks]
    exact Nat.zero_le _
  · rw [h.successfullResyncs, hdue, h.resyncs]
  · obtain ⟨fuel, hbc⟩ := h.node.bc
    have hforks : CountsForks .init p.node.bc := (updateRound_countsForks fuel).of_ok hbc
    rw [h.resyncs, Node.pending]
    split
    · next hpending =>
      rcases hforks.lt hpending.2 with hinit | hlt
      · cases hinit
      · omega
    · omega

namespace Deployment

variable {D : Deployment ι K} {S : System ι}

/-- **The books.** In every state that a system reaches, the counters of
every node agree: each announcement that it has received, it has inserted
or discarded; the missed blocks are among the discarded ones; it has
produced the blocks that it made; and it has completed no more resyncs
than it has started, nor started more than it has found forks. -/
theorem tallied (h : D.Reachable S) (i : ι) : (S.party i).Tallied := by
  obtain ⟨S₀, hstarted, hleadsTo⟩ := h
  have hholds : S.Holds (fun _ _ => Process.Tallied) fun _ _ => True := by
    refine hleadsTo.holds_of_stable (fun _ hp => hp) (fun _ _ => trivial) ?_
      ⟨fun i => (hstarted.nodes i).counters_agree, fun _ _ => trivial⟩
    intro S i input rest posts S' hleadsTo hholds hmoves _
    have hreachable : D.Reachable S := ⟨S₀, hstarted, hleadsTo⟩
    obtain ⟨handled, made, hentered, hmade, hreceived, hmessages, -⟩ :=
      Process.Move.entered hmoves.move (hreachable.represented i)
    have hp := hholds.parties i
    refine ⟨⟨?_, ?_, ?_, ?_, ?_, ?_⟩, fun _ _ => trivial⟩
    · have := hp.received
      have := hentered.handled
      omega
    · have := hp.messages
      omega
    · have := hp.produced
      have := hentered.made
      omega
    · have := hp.missed
      have := hentered.missed
      omega
    · have := hp.resyncs
      have := hentered.resyncs
      omega
    · have := hp.forks
      have := hentered.forks
      omega
  exact hholds.parties i

/-- **Sent and received.** In every state that a system of finitely many
nodes reaches, the announcements that were received and those under way
are together no more than those that were sent. -/
theorem received_le_sent [Fintype ι] (h : D.Reachable S) :
    charge announces S.underWay + ∑ i, (S.party i).receivedBlocks
      ≤ ∑ i, (S.party i).node.sentBlocks := by
  obtain ⟨S₀, hstarted, hleadsTo⟩ := h
  refine @LeadsTo.total _ _ _ _ D.parties S₀ S _ announces (fun _ p => p.receivedBlocks)
    (fun _ p => p.node.sentBlocks) ?_ hleadsTo ?_
  · intro S i input rest posts S' hleadsTo hmoves
    have hreachable : D.Reachable S := ⟨S₀, hstarted, hleadsTo⟩
    obtain ⟨handled, made, hentered, -, hreceived, -, hle⟩ :=
      Process.Move.entered hmoves.move (hreachable.represented i)
    have hsent := hentered.sent
    have hle' : handled ≤ chargeOf announces (D.parties.address i) input := hle
    show charge announces (posted (D.member i).id posts) + _ + _ ≤ _
    omega
  · have hnone : ∑ i, (S₀.party i).receivedBlocks = 0 :=
      Finset.sum_eq_zero fun i _ => (hstarted.nodes i).receivedBlocks
    rw [hstarted.charge fun _ _ => rfl, hnone]
    exact Nat.zero_le _

end Deployment

/-- It has inserted one and missed one. -/
theorem pair_tallied :
    (pairSystem.party .second).receivedBlocks = 2 ∧ (pairSystem.party .second).Tallied :=
  ⟨pairSystem_run.2.received, Deployment.tallied pairSystem_reachable .second⟩

instance : Fintype Pair := ⟨{.first, .second}, fun i => by cases i <;> simp⟩

/-- Of three announcements two are received, and one is lost. -/
theorem pair_received_le_sent :
    (pairSystem.party .first).node.sentBlocks = 3 ∧
      charge announces pairSystem.underWay + ∑ i, (pairSystem.party i).receivedBlocks
        ≤ ∑ i, (pairSystem.party i).node.sentBlocks :=
  ⟨pairSystem_run.2.sent, Deployment.received_le_sent pairSystem_reachable⟩

end Cpos
