import Cpos.Connecting
import Cpos.Outstanding

/-!
# Who is written to

A node writes to peers that it knows, and it never knows itself: peers
are learnt from the senders of messages and from the beacon, whose list is
filtered. So no message goes from a node to itself, and each names its
sender where it names one (`addressed`).

A block is forwarded to neither the peer it came from nor its author. If
nodes go by their public keys, as they do unless they are configured
otherwise, no node is ever sent a block of its own (`no_echo`), and
`handle_new_block` has nothing to do where it checks for that.
-/

namespace Cpos

open Python ByteString LinkedChain BlockChain Actors

variable {ι K : Type} [PyNum K]

/-! ## Known peers -/

/-- No peers are learnt. -/
def Fewer (network network' : Network) : Prop := network'.knownPeers ⊆ network.knownPeers

instance : Std.Refl Fewer where
  refl _ := List.Subset.refl _

instance : IsTrans Network Fewer where
  trans _ _ _ h h' := List.Subset.trans h' h

theorem forgetPeer_fewer (peerId : Bytes) (network : Network) :
    Fewer network (network.forgetPeer peerId) := by
  unfold Network.forgetPeer
  split
  · exact List.erase_subset
  · exact List.Subset.refl _

theorem send_fewer (delivers : Nat → Bool) (peerId : Bytes) :
    Keeps Fewer (Network.send delivers peerId) := fun network => by
  by_cases hlookup : peerId ∈ network.knownPeers →
      ∃ count, network.peerFailedMsgCount peerId = some count
  · obtain ⟨sent, network', hrun, hsent⟩ := Network.run_send delivers hlookup
    rw [after_ok hrun]
    cases hsent with
    | unknown _ => exact refl_of Fewer _
    | delivered _ _ => exact refl_of Fewer _
    | refused _ _ _ _ => exact refl_of Fewer _
    | forgotten _ _ _ _ => exact forgetPeer_fewer peerId _
  -- no count for a known peer: the message is sent, or the call raises
  rw [Classical.not_imp, not_exists] at hlookup
  obtain ⟨hknown, hcount⟩ := hlookup
  by_cases hdelivers : delivers network.attempts = true
  · rw [after_ok (Network.run_send_delivered hknown hdelivers)]
    exact refl_of Fewer _
  have hrun : Network.send delivers peerId network = .error .keyError network.attempted := by
    show (if _ then _ else _ : Network.Call Bool) network = _
    rw [if_pos hknown]
    show (if _ then _ else _ : Network.Call Bool) network.attempted = _
    rw [if_neg hdelivers]
    simp only [Option.eq_none_iff_forall_ne_some.mpr hcount]
    rfl
  rw [after_error hrun]
  exact refl_of Fewer _

/-! ## Destinations -/

section Destinations

variable {env : NodeEnv K} {n n' : Node} {p : Post}

theorem sendMessage_fewer (env : NodeEnv K) (peerId : Bytes) :
    Keeps (OnNetwork Fewer) (sendMessage env peerId) :=
  sendMessage_onNetwork (send_fewer env.delivers) peerId

theorem broadcastTo_fewer (env : NodeEnv K) (peer : Bytes) :
    Keeps (OnNetwork Fewer) (broadcastTo env peer) :=
  keeps_bind (keeps_modify_onNetwork fun _ => rfl) fun _ =>
    keeps_bind (sendMessage_fewer env peer) fun _ => keeps_pure _

theorem messageSent_known {peerId : Bytes} {msg : Message}
    (h : p ∈ messageSent env n peerId msg) : p.1 = peerId ∧ p.1 ∈ n.network.knownPeers := by
  obtain ⟨rfl, hsent⟩ := of_mem_messageSent h
  have hrun : onNetwork (Network.send env.delivers peerId) n
      = .ok true (after (sendMessage env peerId) n) := ok_of_returned hsent
  obtain ⟨network, hnetwork, -⟩ := focus_eq_ok hrun
  exact ⟨rfl, ((Network.send_eq_ok hnetwork).mp rfl).1⟩

theorem messagesSent_known {msg : Message} : ∀ {peers : List Bytes} {n : Node},
    p ∈ messagesSent env msg peers n → p.1 ∈ peers ∧ p.1 ∈ n.network.knownPeers
  | [], _, h => by cases h
  | peer :: peers, n, h => by
      rw [messagesSent] at h
      rcases List.mem_append.mp h with h | h
      · obtain ⟨hpeer, hknown⟩ := messageSent_known h
        exact ⟨hpeer ▸ List.mem_cons_self, hknown⟩
      · obtain ⟨hpeer, hknown⟩ := messagesSent_known h
        exact ⟨List.mem_cons_of_mem _ hpeer, broadcastTo_fewer env peer n hknown⟩

theorem not_mem_of_broadcastCalls {invalidPeers : List Bytes} {peer : Bytes} :
    ∀ {turns i : Nat} {n : Node}, peer ∈ broadcastCalls env invalidPeers turns i n →
      peer ∉ invalidPeers
  | 0, _, _, h => by cases h
  | turns + 1, i, n, h => by
      rw [broadcastCalls] at h
      split at h
      · cases h
      · split at h
        · next hvalid =>
          split at h
          · rcases List.mem_cons.mp h with rfl | h
            · exact hvalid
            · exact not_mem_of_broadcastCalls h
          · rw [List.mem_singleton.mp h]
            exact hvalid
        · exact not_mem_of_broadcastCalls h

theorem broadcastSent_known {invalidPeers : List Bytes} {msg : Message}
    (h : p ∈ broadcastSent env n invalidPeers msg) :
    p.1 ∉ invalidPeers ∧ p.1 ∈ n.network.knownPeers := by
  obtain ⟨hcall, hknown⟩ := messagesSent_known h
  exact ⟨not_mem_of_broadcastCalls hcall, hknown⟩

theorem resyncSent_known (h : p ∈ resyncSent env n) : p.1 ∈ n.network.knownPeers := by
  unfold resyncSent at h
  split at h
  · exact (messageSent_known h).2
  · cases h

theorem findResyncSent_known : ∀ {turns : Nat} {n : Node},
    p ∈ findResyncSent env turns n → p.1 ∈ n.network.knownPeers
  | 0, _, h => by cases h
  | turns + 1, n, h => by
      rw [findResyncSent] at h
      rw [← chooseMissed_network env n]
      split at h
      · exact resyncSent_known h
      · next hsend =>
        exact (sendRequest_onNetwork (send_fewer env.delivers)).of_ok hsend
          (findResyncSent_known h)
      · cases h

theorem responseSent_known : ∀ {answer : Option Block}, p ∈ responseSent env n answer →
    p.1 ∈ n.network.knownPeers
  | none, h => by
      rw [responseSent] at h
      split at h
      · rw [← chooseMissed_network env { n with receivedResyncBlocks := [] }]
        exact resyncSent_known h
      · cases h
  | some block, h => by
      rw [responseSent] at h
      split at h
      · next hmerge =>
        obtain ⟨left, bc, -, rfl⟩ := mergeReceived_ok hmerge
        have hknown := resyncSent_known h
        exact hknown
      · cases h

theorem handleSent_known {msg : Message} (h : p ∈ handleSent env n msg) :
    p.1 ∈ n.network.knownPeers := by
  unfold handleSent at h
  split at h
  · split at h
    · exact (broadcastSent_known h).2
    · cases h
  · exact responseSent_known h
  · unfold answerSent at h
    split at h
    · exact (messageSent_known h).2
    · cases h
  · cases h

theorem surplusSent_known {env : LoopEnv K} {pick : Nat → Nat} : ∀ {turns : Nat} {n : Node},
    p ∈ surplusSent env pick turns n → p.1 ∈ n.network.knownPeers
  | 0, _, h => by cases h
  | turns + 1, n, h => by
      rw [surplusSent] at h
      split at h
      · split at h
        · cases h
        · next peerId _ =>
          rcases List.mem_append.mp h with h | h
          · exact (messageSent_known h).2
          · have hfewer : Keeps (OnNetwork Fewer) (do
                let _ ← sendMessage env.toNodeEnv peerId
                onNetwork (modify (Network.forgetPeer peerId)) : NodeCall Unit) :=
              keeps_bind (sendMessage_fewer _ peerId) fun _ =>
                onNetwork_onNetwork (forgetPeer_fewer peerId)
            exact hfewer n (surplusSent_known h)
      · cases h

end Destinations

/-! ## Acts -/

section Acts

variable {env : LoopEnv K} {n n' : Node} {a : Act} {p : Post}

theorem connectAll_stranger {id : Bytes} (peers : List Bytes) : ∀ {network : Network},
    id ∉ network.knownPeers → id ∉ (network.connectAll id peers).knownPeers := by
  induction peers with
  | nil => exact fun h => h
  | cons peer peers ih =>
      intro network h
      show id ∉ (Network.connectAll id peers (if peer = id ∨ peer ∈ network.knownPeers
        then network else network.connect peer)).knownPeers
      refine ih ?_
      split
      · exact h
      · next hnew =>
        show id ∉ network.knownPeers ++ [peer]
        rw [List.mem_append, List.mem_singleton, not_or]
        exact ⟨h, fun hid => hnew (.inl hid.symm)⟩

theorem peersNamed_stranger (h : env.id ∉ n.network.knownPeers)
    (additionalPeers : Option (List Bytes)) :
    env.id ∉ (peersNamed env n additionalPeers).knownPeers := by
  unfold peersNamed
  split
  · exact connectAll_stranger _ h
  · exact h

theorem controlNumberOfPeers_fewer {additionalPeers : Option (List Bytes)} {pick : Nat → Nat}
    (h : controlNumberOfPeers env additionalPeers pick n = .ok () n') :
    Fewer (peersNamed env n additionalPeers) n'.network :=
  controlNumberOfPeers_onNetwork (send_fewer env.delivers) forgetPeer_fewer h

/-- Messages are for peers that the node knows. -/
theorem posts_known (hp : p ∈ a.posts env n)
    (hcontrol : ∀ additionalPeers pick, a ≠ .controlPeers additionalPeers pick) :
    p.1 ∈ n.network.knownPeers := by
  cases a with
  | startResync =>
      rw [Act.posts] at hp
      split at hp
      · exact findResyncSent_known hp
      · cases hp
  | updateRound _ => cases hp
  | read _ => cases hp
  | produce mock =>
      obtain ⟨newBlock, -, hp⟩ := List.mem_flatMap.mp hp
      split at hp
      · exact (broadcastSent_known hp).2
      · cases hp
  | handle msg => exact handleSent_known hp
  | controlPeers additionalPeers pick => exact absurd rfl (hcontrol _ _)

/-- A node that does not know itself does not come to, and writes to
others. -/
theorem Act.Leads.stranger (h : a.Leads env n n') (hn : env.id ∉ n.network.knownPeers)
    (hread : ∀ sender, a = .read sender → sender ≠ env.id) :
    env.id ∉ n'.network.knownPeers ∧ ∀ p ∈ a.posts env n, p.1 ≠ env.id := by
  by_cases hcontrol : ∃ additionalPeers pick, a = .controlPeers additionalPeers pick
  · obtain ⟨additionalPeers, pick, rfl⟩ := hcontrol
    have hnamed := peersNamed_stranger hn additionalPeers
    refine ⟨fun hmem => hnamed (controlNumberOfPeers_fewer h hmem), fun p hp hid => hnamed ?_⟩
    have hknown : p.1 ∈ (peersNamed env n additionalPeers).knownPeers := surplusSent_known hp
    exact hid ▸ hknown
  have hnot (additionalPeers : Option (List Bytes)) (pick : Nat → Nat) :
      a ≠ .controlPeers additionalPeers pick := fun ha => hcontrol ⟨additionalPeers, pick, ha⟩
  refine ⟨?_, fun p hp hid => hn (hid ▸ posts_known hp hnot)⟩
  by_cases hreads : ∃ sender, a = .read sender
  · obtain ⟨sender, rfl⟩ := hreads
    have hcall : onNetwork (modify (Network.read sender)) n = .ok () n' := h
    obtain ⟨network, hnetwork, rfl⟩ := focus_eq_ok hcall
    cases hnetwork
    show env.id ∉ (n.network.read sender).knownPeers
    unfold Network.read
    split
    · exact hn
    · show env.id ∉ n.network.knownPeers ++ [sender]
      rw [List.mem_append, List.mem_singleton, not_or]
      exact ⟨hn, (hread sender rfl).symm⟩
  · have hfewer : Fewer n.network n'.network :=
      h.network (send_fewer env.delivers) (fun sender ha => hreads ⟨sender, ha⟩) hnot
        fun peerId _ => forgetPeer_fewer peerId n.network
    exact fun hmem => hn (hfewer hmem)

/-- A block that is posted is one's own, or it goes to others than its
author and the peer that it came from. -/
theorem Act.Leads.posts_broadcast (h : a.Leads env n n') {dest peerId : Bytes} {block : Block}
    (hp : (dest, Message.blockBroadcast block peerId) ∈ a.posts env n) :
    dest ∈ n.network.knownPeers ∧ ((∃ mock, a = .produce mock ∧ block.ownerPubkey = env.publicKey) ∨
      ∃ sender, a = .handle (.blockBroadcast block sender) ∧ dest ≠ sender ∧
        dest ≠ block.ownerPubkey) := by
  cases h.posts hp with
  | asks _ hasks =>
      obtain ⟨_, _, -, -, hrequest⟩ := hasks.request
      cases hrequest
  | @forwards _ sender _ hadmits =>
      refine ⟨posts_known hp (by simp), .inr ⟨sender, rfl, ?_⟩⟩
      have hp' : (dest, Message.blockBroadcast block env.id) ∈
          handleSent env.toNodeEnv n (.blockBroadcast block sender) := hp
      unfold handleSent at hp'
      split at hp'
      · next hmsg =>
        cases hmsg
        split at hp'
        · have hvalid := (broadcastSent_known hp').1
          rw [List.mem_pair, not_or] at hvalid
          exact hvalid
        · cases hp'
      · next hmsg => cases hmsg
      · next hmsg => cases hmsg
      · cases hp'
  | @announces mock _ _ hmade =>
      obtain ⟨mock', hmock, hrun⟩ := of_mem_made hmade
      exact ⟨posts_known hp (by simp), .inl ⟨mock, rfl, (generateBlock_ok hrun).ownerPubkey⟩⟩

end Acts

/-! ## The deployment -/

/-- Where the message names who has sent it, it names this node. -/
def Message.Names (sender : Bytes) : Message → Prop
  | .hello peerId => peerId = sender
  | .blockBroadcast _ peerId => peerId = sender
  | .resyncRequest peerId _ => peerId = sender
  | .peerForgetRequest peerId => peerId = sender
  | _ => True

theorem Act.Leads.posts_names {env : LoopEnv K} {n n' : Node} {a : Act} {p : Post}
    (h : a.Leads env n n') (hp : p ∈ a.posts env n) : p.2.Names env.id := by
  cases h.posts hp with
  | asks _ hasks =>
      obtain ⟨missed, index, -, -, rfl⟩ := hasks.request
      exact rfl
  | answers _ => trivial
  | forwards _ => exact rfl
  | announces _ => exact rfl
  | parts => exact rfl

namespace Deployment

variable {D : Deployment ι K} {S : System ι}

/-- The message goes from one node to another and names the one; a block
does not go to its author. -/
structure WellAddressed (D : Deployment ι K) (sender dest : Bytes) (msg : Message) : Prop where
  ne : dest ≠ sender
  names : msg.Names sender
  notAuthor : (∀ i, (D.member i).id = (D.member i).publicKey) → ∀ block peerId,
    msg = .blockBroadcast block peerId → dest ≠ block.ownerPubkey

theorem wellAddressed {i : ι} {a : Act} {n n' : Node} {p : Post}
    (h : a.Leads (D.member i) n n') (hp : p ∈ a.posts (D.member i) n)
    (hne : p.1 ≠ (D.member i).id) : D.WellAddressed (D.member i).id p.1 p.2 := by
  refine ⟨hne, h.posts_names hp, fun hkeys block peerId hmsg => ?_⟩
  obtain ⟨dest, msg⟩ := p
  obtain rfl : msg = _ := hmsg
  obtain ⟨-, ⟨mock, -, howner⟩ | ⟨sender, -, -, hauthor⟩⟩ := h.posts_broadcast hp
  · rw [howner, ← hkeys i]
    exact hne
  · exact hauthor

theorem Reachable.wellAddressed (h : D.Reachable S) :
    S.Holds (fun _ i p => (D.member i).id ∉ p.node.network.knownPeers)
      fun _ e => D.WellAddressed e.sender e.dest e.msg := by
  obtain ⟨S₀, hstarted, hleadsTo⟩ := h
  refine hleadsTo.always ?_ ⟨fun i => (hstarted.nodes i).connected.stranger, fun e he => ?_⟩
  · intro i p input p' posts hmove hp hinput
    have hkeeps := Process.Move.keeps (M := fun _ => True)
      (J := fun post => D.WellAddressed (D.member i).id post.1 post.2)
      (fun {a n n'} hallowed hleads _ hn => by
        obtain ⟨hn', hposts⟩ := hleads.stranger hn fun sender ha => by
          subst ha
          cases hallowed with
          | read hread => exact fun hid => (hinput _ _ hread).ne hid.symm
        exact ⟨hn', fun post hpost => Deployment.wellAddressed hleads hpost (hposts post hpost),
          fun _ _ => trivial⟩) hmove hp
    exact ⟨hkeeps.1, hkeeps.2.1⟩
  · obtain ⟨hmsg, hne⟩ := hstarted.hellos e he
    rw [hmsg]
    exact ⟨hne, rfl, by simp⟩

/-- **Addresses.** In every run, no node is among the peers that it knows,
no message is under way from a node to itself, and a message that names
its sender names the node that has posted it. -/
theorem addressed (h : D.Reachable S) :
    (∀ i, (D.member i).id ∉ (S.party i).node.network.knownPeers) ∧
      ∀ e ∈ S.underWay, e.dest ≠ e.sender ∧ e.msg.Names e.sender :=
  ⟨h.wellAddressed.parties, fun e he =>
    ⟨(h.wellAddressed.messages e he).ne, (h.wellAddressed.messages e he).names⟩⟩

/-- **No echo.** If nodes go by their public keys, no block is ever under
way to its own author. -/
theorem no_echo (hkeys : ∀ i, (D.member i).id = (D.member i).publicKey) (h : D.Reachable S) :
    ∀ e ∈ S.underWay, ∀ block peerId, e.msg = .blockBroadcast block peerId →
      e.dest ≠ block.ownerPubkey :=
  fun e he => (h.wellAddressed.messages e he).notAuthor hkeys

end Deployment

theorem pair_addressed :
    pairSystem.underWay.length = 1 ∧
      (∀ i, (pair.member i).id ∉ (pairSystem.party i).node.network.knownPeers) ∧
        ∀ e ∈ pairSystem.underWay, e.dest ≠ e.sender ∧ e.msg.Names e.sender :=
  ⟨pairSystem_run.2.underWay, Deployment.addressed pairSystem_reachable⟩

/-- The first node has announced its first block. -/
def announcedSystem : System Pair :=
  (pair.happen pairStart [.advances .first 10 noRows]).getD pairStart

theorem announcedSystem_run : pair.Reachable announcedSystem ∧
    announcedSystem.underWay.map (fun e => e.msg matches .blockBroadcast _ _) = [true] := by
  have hrun : ((pair.happen pairStart [.advances .first 10 noRows]).any fun S =>
      S.underWay.map (fun e => e.msg matches .blockBroadcast _ _) = [true]) = true := by
    decide +kernel
  obtain ⟨S, hS, hbroadcast⟩ := (Option.any_eq_true _ _).mp hrun
  obtain rfl : announcedSystem = S := by rw [announcedSystem, hS, Option.getD_some]
  exact ⟨⟨pairStart, pairStart_started, Deployment.happen_leadsTo hS⟩,
    of_decide_eq_true hbroadcast⟩

theorem pair_no_echo :
    announcedSystem.underWay.map (fun e => e.msg matches .blockBroadcast _ _) = [true] ∧
      ∀ e ∈ announcedSystem.underWay, ∀ block peerId, e.msg = .blockBroadcast block peerId →
        e.dest ≠ block.ownerPubkey :=
  ⟨announcedSystem_run.2, Deployment.no_echo (fun i => by cases i <;> rfl) announcedSystem_run.1⟩

end Cpos
