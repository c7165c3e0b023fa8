import Cpos.Addressing
import Cpos.Sessions

/-!
# No deadlock between resyncing nodes

A resyncing node answers requests "in order to avoid a distributed
deadlock". That alone is not enough: the node must also ask someone that
it knows, and so must whoever asks it. Here are the conditions under which
it is: sockets that take every message, no loss, and no fewer and no more
peers for each node than its `minimum_num_peers` and `maximum_num_peers`,
so that none is ever forgotten. Then a resyncing node has exactly one
message under way, its request or the response, in every state of every
run (`no_deadlock`).
-/

namespace Cpos

open Python ByteString LinkedChain BlockChain Actors

variable {ι K : Type} [PyNum K]

/-! ## Requests that get through -/

section Requests

variable {env : NodeEnv K} {n n' : Node}

theorem resyncSent_ne_nil {requestIndex : Int} (hindex : n.requestIndex = some requestIndex)
    (h : requestSent env n ≠ []) : resyncSent env n ≠ [] := by
  unfold requestSent at h
  split at h
  swap
  · exact absurd rfl h
  next hsent =>
  cases hmissed : n.missed with
  | none =>
      rw [returned, sendRequest_of_none hmissed] at hsent
      cases hsent
  | some missed =>
      obtain ⟨block, peerId⟩ := missed
      have hsent' : returned (sendMessage env peerId) n = some true := by
        rw [returned, ← sendRequest_of_missed hmissed]
        exact hsent
      rw [resyncSent, hmissed, hindex]
      simp only [messageSent, if_pos hsent']
      exact List.cons_ne_nil _ _

theorem findResyncSent_ne_nil : ∀ {turns : Nat} {n : Node}, turns ≤ n.missedBlocks.length →
    findResyncPeer env turns n = .ok true n' → findResyncSent env turns n ≠ []
  | 0, n, _, h => by cases h
  | turns + 1, n, hle, h => by
      have hne : n.missedBlocks ≠ [] := List.length_pos_iff.mp (by omega)
      obtain ⟨hindex, -, hlength⟩ := @chooseMissed_of_ne_nil _ _ env n hne
      obtain ⟨sent, n₁, hsend, hrest⟩ := findResyncPeer_succ_ok h
      rw [findResyncSent]
      simp only [hsend]
      cases sent with
      | true => exact resyncSent_ne_nil hindex ((requestSent_ne_nil hsend).mpr rfl)
      | false =>
          obtain ⟨network, rfl⟩ := sendRequest_network hsend
          have hle' : turns ≤ (chooseMissed env n).missedBlocks.length := by omega
          exact findResyncSent_ne_nil hle' hrest

/-- The request that follows on a response goes out if the peer can be
asked. -/
theorem responseSent_ne_nil {asked peerId : Bytes} {requestIndex : Int}
    (hasks : n.Asks asked requestIndex) {answer : Option Block}
    (h : handleResyncResponse env answer n = .ok () n')
    (hnext : nextPeer env n answer = some peerId) (hcan : CanAsk env n peerId) :
    responseSent env n answer ≠ [] := by
  have hrequests := response_requests hasks.resyncing h
  rw [hnext] at hrequests
  have hne : responseRequests env n answer ≠ [] := hrequests.2.mpr hcan
  cases answer with
  | none =>
      rw [responseRequests] at hne
      rw [responseSent]
      split at hne
      · next hmissed =>
        rw [if_pos hmissed]
        have hindex :=
          (@chooseMissed_of_ne_nil _ _ env { n with receivedResyncBlocks := [] } hmissed).1
        exact resyncSent_ne_nil hindex hne
      · exact absurd rfl hne
  | some block =>
      obtain ⟨merged, n₁, hmerge, -⟩ := response_some_ok h
      rw [responseRequests, hmerge] at hne
      rw [responseSent, hmerge]
      cases merged with
      | true => exact absurd rfl hne
      | false =>
          obtain ⟨left, bc, -, rfl⟩ := mergeReceived_ok hmerge
          have hindex : n.requestIndex.map (fun index => index - 1) = some (requestIndex - 1) := by
            rw [hasks.requestIndex, Option.map_some]
          exact resyncSent_ne_nil hindex hne

end Requests

/-! ## Paying in full -/

section Acts

variable {env : LoopEnv K} {n n' : Node} {a : Act} {id : Bytes}

/-- The node can answer the request that it reads, or ask whom the
response makes it ask next. -/
def Act.Prompt (env : LoopEnv K) (n : Node) : Act → Prop
  | .handle (.resyncRequest peerId _) => CanAsk env.toNodeEnv n peerId
  | .handle (.resyncResponse answer) => (∃ peerId requestIndex, n.Asks peerId requestIndex) ∧
      ∀ peerId, nextPeer env.toNodeEnv n answer = some peerId → CanAsk env.toNodeEnv n peerId
  | _ => True

theorem chargeTo_eq_one : ∀ {posts : List Post}, posts.length ≤ 1 → posts ≠ [] →
    (∀ p ∈ posts, p.2.counts id p.1 = 1) → chargeTo id posts = 1
  | [], _, hne, _ => absurd rfl hne
  | [p], _, _, h => by
      rw [chargeTo, List.map_singleton, List.sum_singleton]
      exact h p (List.mem_singleton_self p)
  | _ :: _ :: _, h, _, _ => by
      rw [List.length_cons, List.length_cons] at h
      omega

theorem charge_asks_eq (h : a.Leads env n n')
    (ha : a = .startResync ∨ ∃ block, a = .handle (.resyncResponse block))
    (hne : a.posts env n ≠ []) : chargeTo env.id (a.posts env n) = 1 := by
  obtain ⟨hlength, hasks⟩ := h.posts_asks ha
  refine chargeTo_eq_one hlength hne fun p hp => ?_
  obtain ⟨-, missed, requestIndex, -, -, rfl⟩ := hasks p hp
  exact if_pos rfl

/-- A resync starts exactly if a request goes out. -/
theorem startResync_balance (h : Act.startResync.Leads env n n') :
    chargeTo env.id (Act.startResync.posts env n) + n.due = n'.due := by
  rcases startResync_ok h with ⟨hdue, rfl⟩ | ⟨hdue, found, n₁, hfind, rfl⟩
  · rw [Act.posts, if_neg (show ¬Due n' from hdue)]
    exact Nat.zero_add _
  have hzero : n.due = 0 := by
    rw [Node.due, hdue.1]
    rfl
  cases found with
  | true =>
      have hne : Act.startResync.posts env n ≠ [] := by
        rw [Act.posts, if_pos (show Due n from hdue)]
        exact findResyncSent_ne_nil (le_refl _) hfind
      rw [charge_asks_eq h (.inl rfl) hne, hzero]
      rfl
  | false =>
      have hnone : chargeTo env.id (Act.startResync.posts env n) = 0 := by
        rw [Act.posts, if_pos (show Due n from hdue)]
        refine chargeTo_eq_zero fun p hp => ?_
        exact absurd ((findResyncSent_spec _ hfind).2 p hp).1 Bool.false_ne_true
      have hstate : n₁.state = .listening :=
        (findResyncPeer_asks _ (le_refl _) hfind).1.trans hdue.1
      have hlistens : n₁.due = 0 := by
        rw [Node.due, hstate]
        rfl
      rw [hnone, hzero]
      exact hlistens.symm

/-- A response is followed by a request, or the resync ends. -/
theorem response_balance {answer : Option Block}
    (h : (Act.handle (.resyncResponse answer)).Leads env n n')
    (hprompt : (Act.handle (.resyncResponse answer)).Prompt env n) :
    chargeTo env.id ((Act.handle (.resyncResponse answer)).posts env n) + n.due = 1 + n'.due := by
  obtain ⟨⟨asked, requestIndex, hasks⟩, hcan⟩ := hprompt
  have hrun : handleResyncResponse env.toNodeEnv answer n = .ok () n' := by
    rw [← run_handleMessage_response hasks.resyncing]
    exact h
  have hposts : (Act.handle (.resyncResponse answer)).posts env n
      = responseSent env.toNodeEnv n answer := by
    rw [Act.posts]
    simp only [handleSent, hasks.resyncing]
  have hdue : n.due = 1 := if_pos hasks.resyncing
  have hrequests := response_requests hasks.resyncing hrun
  cases hnext : nextPeer env.toNodeEnv n answer with
  | none =>
      rw [hnext] at hrequests
      have hstate : n'.state = .listening := hrequests
      have hdue' : n'.due = 0 := by
        rw [Node.due, hstate]
        rfl
      have hnone : chargeTo env.id ((Act.handle (.resyncResponse answer)).posts env n) = 0 := by
        refine chargeTo_eq_zero fun p hp => ?_
        have hresyncing := ((h.posts_asks (.inr ⟨answer, rfl⟩)).2 p hp).resyncing
        rw [hstate] at hresyncing
        cases hresyncing
      rw [hnone, hdue, hdue']
  | some peerId =>
      rw [hnext] at hrequests
      have hdue' : n'.due = 1 := if_pos hrequests.1
      have hne : (Act.handle (.resyncResponse answer)).posts env n ≠ [] := by
        rw [hposts]
        exact responseSent_ne_nil hasks hrun hnext (hcan peerId hnext)
      rw [charge_asks_eq h (.inr ⟨answer, rfl⟩) hne, hdue, hdue']

/-- A request is answered. -/
theorem answer_balance (id : Bytes) {peerId : Bytes} {blockIndex : Int}
    (h : (Act.handle (.resyncRequest peerId blockIndex)).Leads env n n')
    (hcan : CanAsk env.toNodeEnv n peerId) :
    chargeTo id ((Act.handle (.resyncRequest peerId blockIndex)).posts env n)
      = (Act.handle (.resyncRequest peerId blockIndex)).intake id env.id := by
  have hrun : answerRequest env.toNodeEnv peerId blockIndex n = .ok () n' := by
    have hhandle : handleMessage env.toNodeEnv (.resyncRequest peerId blockIndex) n = .ok () n' := h
    rw [handleMessage, bind_ok (get_ok n)] at hhandle
    cases hstate : n.state with
    | listening => rwa [hstate] at hhandle
    | resyncing => rwa [hstate] at hhandle
  obtain ⟨answer, n₁, hanswer, -⟩ := bind_eq_ok hrun
  obtain ⟨bc, hbc, -⟩ := focus_eq_ok hanswer
  have hsent : returned (sendMessage env.toNodeEnv peerId) n = some true :=
    returned_ok (onNetwork_ok (Network.run_send_delivered hcan.1 hcan.2))
  rw [posts_request, answerSent, returned_ok hbc]
  simp only [messageSent, if_pos hsent]
  rw [chargeTo, List.map_singleton, List.sum_singleton]
  rfl

theorem intake_eq_zero {dest : Bytes} (hresponse : ∀ block, a ≠ .handle (.resyncResponse block))
    (hrequest : ∀ peerId blockIndex, a ≠ .handle (.resyncRequest peerId blockIndex)) :
    a.intake id dest = 0 := by
  unfold Act.intake
  split
  · unfold Message.counts
    split
    · exact absurd rfl (hrequest _ _)
    · exact absurd rfl (hresponse _)
    · rfl
  · rfl

/-- An act of another node. -/
theorem Act.Leads.balance_other (h : a.Leads env n n') (hprompt : a.Prompt env n)
    (hid : env.id ≠ id) : chargeTo id (a.posts env n) = a.intake id env.id := by
  have hasked (ha : a = .startResync ∨ ∃ block, a = .handle (.resyncResponse block)) :
      chargeTo id (a.posts env n) = 0 := by
    have hle := charge_asks id h ha
    rw [if_neg hid] at hle
    omega
  by_cases hstart : a = .startResync
  · rw [hasked (.inl hstart), hstart]
    rfl
  by_cases hresponse : ∃ block, a = .handle (.resyncResponse block)
  · rw [hasked (.inr hresponse)]
    obtain ⟨block, rfl⟩ := hresponse
    exact (if_neg hid).symm
  by_cases hrequest : ∃ peerId blockIndex, a = .handle (.resyncRequest peerId blockIndex)
  · obtain ⟨peerId, blockIndex, rfl⟩ := hrequest
    exact answer_balance id h hprompt
  have hnoRequest (peerId : Bytes) (blockIndex : Int) :
      a ≠ .handle (.resyncRequest peerId blockIndex) := fun ha => hrequest ⟨peerId, blockIndex, ha⟩
  rw [charge_eq_zero id h hstart (not_exists.mp hresponse) hnoRequest,
    intake_eq_zero (not_exists.mp hresponse) hnoRequest]

/-- An act of the node itself. -/
theorem Act.Leads.balance_own (h : a.Leads env n n') (hprompt : a.Prompt env n) :
    chargeTo env.id (a.posts env n) + n.due = a.intake env.id env.id + n'.due := by
  by_cases hstart : a = .startResync
  · subst hstart
    rw [startResync_balance h]
    exact (Nat.zero_add _).symm
  by_cases hresponse : ∃ block, a = .handle (.resyncResponse block)
  · obtain ⟨block, rfl⟩ := hresponse
    rw [response_balance h hprompt]
    exact congrArg (· + n'.due) (if_pos rfl).symm
  have hsame : n'.due = n.due := by
    have hbystands := h.effect.bystands (fun hboth => hstart hboth.1)
      fun block ha => absurd ha (not_exists.mp hresponse block)
    rw [Node.due, Node.due, hbystands.state]
  by_cases hrequest : ∃ peerId blockIndex, a = .handle (.resyncRequest peerId blockIndex)
  · obtain ⟨peerId, blockIndex, rfl⟩ := hrequest
    rw [answer_balance env.id h hprompt, hsame]
  have hnoRequest (peerId : Bytes) (blockIndex : Int) :
      a ≠ .handle (.resyncRequest peerId blockIndex) := fun ha => hrequest ⟨peerId, blockIndex, ha⟩
  rw [charge_eq_zero env.id h hstart (not_exists.mp hresponse) hnoRequest,
    intake_eq_zero (not_exists.mp hresponse) hnoRequest, hsame]

/-! ## Moves -/

/-- All acts of a run are prompt. -/
def promptActs (env : LoopEnv K) : Node → List Act → Prop
  | _, [] => True
  | n, a :: acts => a.Prompt env n ∧ promptActs env (after (a.call env) n) acts

theorem runActs_balance {acts : List Act} : ∀ {n n' : Node}, runActs env n acts = some n' →
    promptActs env n acts →
      chargeTo env.id (postsOf env n acts) + n.due
          = (acts.map (Act.intake env.id env.id)).sum + n'.due ∧
        ∀ id, env.id ≠ id → chargeTo id (postsOf env n acts)
          = (acts.map (Act.intake id env.id)).sum := by
  induction acts with
  | nil =>
      intro n n' h _
      cases h
      exact ⟨rfl, fun _ _ => rfl⟩
  | cons a acts ih =>
      rintro n n' h ⟨hprompt, hrest⟩
      obtain ⟨n₁, hleads, h₁⟩ := runActs_cons h
      rw [hleads.after] at hrest
      obtain ⟨hown, hother⟩ := ih h₁ hrest
      rw [postsOf, hleads.after, List.map_cons, List.sum_cons]
      refine ⟨?_, fun id hid => ?_⟩
      · have := hleads.balance_own hprompt
        rw [chargeTo_append]
        omega
      · rw [chargeTo_append, hleads.balance_other hprompt hid, hother id hid, List.map_cons,
          List.sum_cons]

/-- A move pays in full if it is prompt with what it reads. -/
theorem Process.Move.balance {p p' : Process} {input : Option (Bytes × Message)}
    {posts : List Post} (h : Process.Move env p input p' posts)
    (hprompt : ∀ sender msg n₁, input = some (sender, msg) →
      (Act.read sender).Leads env p.node n₁ → (Act.handle msg).Prompt env n₁) :
    chargeTo env.id posts + p.node.due
        = chargeOf (counts env.id) env.id input + p'.node.due ∧
      ∀ id, env.id ≠ id → chargeTo id posts = chargeOf (counts id) env.id input := by
  cases h with
  | @advances fuel mock reading loop _ _ h =>
      have hacts : ∀ {acts : List Act} {n : Node}, (∀ a ∈ acts, a = .startResync ∨
          a = .updateRound fuel ∨ a = .produce mock) → promptActs env n acts := by
        intro acts
        induction acts with
        | nil => exact fun _ => trivial
        | cons a acts ih =>
            intro n hall
            obtain ⟨ha, hrest⟩ := List.forall_mem_cons.mp hall
            refine ⟨?_, ih hrest⟩
            rcases ha with rfl | rfl | rfl
            · trivial
            · trivial
            · trivial
      have hzero (id : Bytes) : ((advanceActs env fuel mock p.loop).map
          (Act.intake id env.id)).sum = 0 := sum_intake_eq_zero fun a ha => by
        rcases mem_advanceActs ha with rfl | rfl | rfl
        · rfl
        · rfl
        · rfl
      obtain ⟨hown, hother⟩ := runActs_balance (advance_ok h).runActs
        (hacts fun a ha => mem_advanceActs ha)
      rw [hzero] at hown
      exact ⟨hown, fun id hid => (hother id hid).trans (hzero id)⟩
  | @reads t loop _ h =>
      obtain ⟨n', hn', rfl⟩ := onNode_eq_ok h
      have hrun := receiveMessage_runActs hn'
      have hacts : promptActs env p.node (receiveActs t) := by
        unfold receiveActs at hrun ⊢
        split
        · trivial
        · next sender msg hreceived =>
          rw [hreceived] at hrun
          obtain ⟨n₁, hread, hrest⟩ := runActs_cons hrun
          obtain ⟨n₂, hhandle, hrest⟩ := runActs_cons hrest
          refine ⟨trivial, ?_, trivial, trivial⟩
          rw [hread.after]
          exact hprompt sender msg n₁ hreceived hread
      obtain ⟨hown, hother⟩ := runActs_balance hrun hacts
      rw [sum_intake_receiveActs] at hown
      exact ⟨hown, fun id hid => (hother id hid).trans (sum_intake_receiveActs t)⟩

end Acts

/-! ## Peers that stay -/

/-- The known peers are the same, in the same order. -/
def SamePeers (network network' : Network) : Prop := network'.knownPeers = network.knownPeers

instance : Std.Refl SamePeers where
  refl _ := rfl

instance : IsTrans Network SamePeers where
  trans _ _ _ h h' := h'.trans h

theorem send_samePeers {delivers : Nat → Bool} (hdelivers : ∀ k, delivers k = true)
    (peerId : Bytes) : Keeps SamePeers (Network.send delivers peerId) := fun network => by
  by_cases hknown : peerId ∈ network.knownPeers
  · rw [after_ok (Network.run_send_delivered hknown (hdelivers _))]
    exact refl_of SamePeers _
  · rw [after_ok (Network.run_send_unknown hknown)]
    exact refl_of SamePeers _

section Acts

variable {env : LoopEnv K} {n n' : Node} {a : Act}

/-- The sockets take every message, and the number of peers is between
`minimum_num_peers` and `maximum_num_peers`. -/
structure Settled (env : LoopEnv K) (network : Network) : Prop where
  delivers : ∀ k, env.delivers k = true
  minimum : env.minimumNumPeers ≤ network.knownPeers.length
  maximum : network.knownPeers.length ≤ env.maximumNumPeers

theorem Settled.controlNumberOfPeers (h : Settled env n.network)
    (additionalPeers : Option (List Bytes)) (pick : Nat → Nat) :
    controlNumberOfPeers env additionalPeers pick n = .ok () n := by
  have hmaximum := h.maximum
  show (if n.network.knownPeers.length < env.minimumNumPeers then _ else _ : NodeCall Unit) n = _
  rw [if_neg (not_lt_of_ge h.minimum)]
  show (if n.network.knownPeers.length > env.maximumNumPeers then _ else _ : NodeCall Unit) n = _
  rw [if_neg (by omega)]
  rfl

/-- Nobody is forgotten, and nobody told to forget. -/
theorem Act.Leads.samePeers (h : a.Leads env n n') (hsettled : Settled env n.network)
    (hread : ∀ sender, a = .read sender → sender ∈ n.network.knownPeers)
    (hforget : ∀ peerId, a ≠ .handle (.peerForgetRequest peerId)) :
    SamePeers n.network n'.network ∧
      ∀ p ∈ a.posts env n, ∀ peerId, p.2 ≠ .peerForgetRequest peerId := by
  by_cases hcontrol : ∃ additionalPeers pick, a = .controlPeers additionalPeers pick
  · obtain ⟨additionalPeers, pick, rfl⟩ := hcontrol
    have hcall : controlNumberOfPeers env additionalPeers pick n = .ok () n' := h
    rw [hsettled.controlNumberOfPeers] at hcall
    cases hcall
    refine ⟨rfl, fun p hp => ?_⟩
    have hmaximum := hsettled.maximum
    rw [Act.posts, if_neg (not_lt_of_ge hsettled.minimum), surplusSent] at hp
    simp only [if_neg (show ¬(n.network.knownPeers.length > env.maximumNumPeers) by omega)] at hp
    cases hp
  have hnot (additionalPeers : Option (List Bytes)) (pick : Nat → Nat) :
      a ≠ .controlPeers additionalPeers pick := fun ha => hcontrol ⟨additionalPeers, pick, ha⟩
  refine ⟨?_, fun p hp peerId => ?_⟩
  · by_cases hreads : ∃ sender, a = .read sender
    · obtain ⟨sender, rfl⟩ := hreads
      have hcall : Cpos.onNetwork (modify (Network.read sender)) n = .ok () n' := h
      obtain ⟨network, hnetwork, rfl⟩ := focus_eq_ok hcall
      cases hnetwork
      show (n.network.read sender).knownPeers = _
      rw [Network.read, if_pos (hread sender rfl)]
    · exact h.network (send_samePeers hsettled.delivers) (fun sender ha => hreads ⟨sender, ha⟩) hnot
        fun peerId ha => absurd ha (hforget peerId)
  · cases h.posts hp with
    | asks _ hasks =>
        obtain ⟨_, _, -, -, rfl⟩ := hasks.request
        exact Message.noConfusion
    | answers _ => exact Message.noConfusion
    | forwards _ => exact Message.noConfusion
    | announces _ => exact Message.noConfusion
    | parts => exact absurd rfl (hnot _ _)

/-- Who has sent the missed blocks. -/
theorem Effect.missed_from {Q : Bytes → Prop} (h : Effect env n a n')
    (hsender : ∀ block peerId, a = .handle (.blockBroadcast block peerId) → Q peerId)
    (hn : ∀ missed ∈ n.missedBlocks, Q missed.2) : ∀ missed ∈ n'.missedBlocks, Q missed.2 := by
  cases h with
  | quiet h => exact h.missedBlocks ▸ hn
  | rounds _ _ _ => exact hn
  | produced _ _ _ _ _ hrest =>
      rw [hrest.missedBlocks]
      exact hn
  | @delivered block peerId _ _ _ stored _ hrest =>
      rw [hrest.missedBlocks]
      intro missed hmem
      simp only at hmem
      split at hmem
      · exact hn missed hmem
      · rcases List.mem_append.mp hmem with hmem | hmem
        · exact hn missed hmem
        · rw [List.mem_singleton.mp hmem]
          exact hsender block peerId rfl
  | started _ _ hmissed _ _ => exact fun missed hmem => hn missed (hmissed hmem)
  | noBlock _ _ hrest =>
      rw [hrest.missedBlocks]
      let emptied : Node := { n with receivedResyncBlocks := [] }
      exact fun missed hmem => hn missed (chooseMissed_missedBlocks _ emptied hmem)
  | aborted _ _ hrest =>
      rw [hrest.missedBlocks]
      exact hn
  | merged _ _ _ _ hrest =>
      rw [hrest.missedBlocks]
      exact fun _ hmem => by cases hmem
  | unmerged _ _ _ _ hrest =>
      rw [hrest.missedBlocks]
      exact hn

theorem chooseMissed_mem (env : NodeEnv K) (hne : n.missedBlocks ≠ []) :
    ∃ missed ∈ n.missedBlocks, (chooseMissed env n).missed = some missed := by
  have hpos : 0 < n.missedBlocks.length := List.length_pos_iff.mpr hne
  have hlt := Nat.mod_lt (env.choose n.missedBlocks.length n.choices) hpos
  refine ⟨_, List.getElem_mem hlt, ?_⟩
  unfold chooseMissed
  simp only [List.getElem?_eq_getElem hlt]

end Acts

/-! ## The deployment -/

namespace Deployment

variable {D : Deployment ι K} {S₀ S S' : System ι}

/-- Every node knows every other at the start, and no fewer peers than
`minimum_num_peers` and no more than `maximum_num_peers`; the sockets take
every message. -/
structure Meshed (D : Deployment ι K) (S₀ : System ι) : Prop where
  settled : ∀ i, Settled (D.member i) (S₀.party i).node.network
  peers : ∀ i j, j ≠ i → (D.member j).id ∈ (S₀.party i).node.network.knownPeers
  hellos : ∀ e ∈ S₀.underWay, ∃ i, e.sender = (D.member i).id

/-- The node still knows whom it knew, among them who has sent it the
blocks that it missed. -/
structure Acquainted (n₀ n : Node) : Prop where
  samePeers : SamePeers n₀.network n.network
  missed : ∀ missed ∈ n.missedBlocks, missed.2 ∈ n₀.network.knownPeers

theorem Meshed.known (hmeshed : D.Meshed S₀) {i j : ι} {n : Node}
    (hn : Acquainted (S₀.party i).node n) (hne : (D.member j).id ≠ (D.member i).id) :
    (D.member j).id ∈ n.network.knownPeers := by
  have hpeers : n.network.knownPeers = (S₀.party i).node.network.knownPeers := hn.samePeers
  rw [hpeers]
  refine hmeshed.peers i j fun hij => hne ?_
  rw [hij]

theorem Meshed.settled_of (hmeshed : D.Meshed S₀) {i : ι} {n : Node}
    (hn : Acquainted (S₀.party i).node n) : Settled (D.member i) n.network := by
  obtain ⟨hdelivers, hminimum, hmaximum⟩ := hmeshed.settled i
  have hpeers : n.network.knownPeers = (S₀.party i).node.network.knownPeers := hn.samePeers
  exact ⟨hdelivers, hpeers ▸ hminimum, hpeers ▸ hmaximum⟩

/-- The peers of a meshed deployment stay. -/
theorem Meshed.acquainted (hmeshed : D.Meshed S₀) (hstarted : D.Started S₀)
    (h : LeadsTo D.parties S₀ S) :
    S.Holds (fun _ i p => Acquainted (S₀.party i).node p.node)
      fun _ e => (∃ i, e.sender = (D.member i).id) ∧
        ∀ peerId, e.msg ≠ .peerForgetRequest peerId := by
  refine h.holds_of_stable (fun _ hI => hI) (fun _ hJ => hJ) ?_
    ⟨fun i => ⟨rfl, ?_⟩, fun e he => ⟨hmeshed.hellos e he, ?_⟩⟩
  · intro S i input rest posts S' hleadsTo hholds hmoves hinput
    have haddressed := Reachable.wellAddressed ⟨S₀, hstarted, hleadsTo⟩
    have hkeeps := Process.Move.keeps (M := fun _ => True)
      (I := fun n => Acquainted (S₀.party i).node n)
      (J := fun post => ∀ peerId, post.2 ≠ .peerForgetRequest peerId)
      (fun {a n n'} hallowed hleads _ hn => by
        have hsender {sender : Bytes} {msg : Message} (hread : input = some (sender, msg)) :
            sender ∈ n.network.knownPeers ∧ D.WellAddressed sender (D.member i).id msg := by
          subst hread
          have hwell := haddressed.messages _ hmoves.mem
          obtain ⟨⟨j, hj⟩, -⟩ := hinput sender msg rfl
          obtain rfl : sender = (D.member j).id := hj
          exact ⟨hmeshed.known hn hwell.ne.symm, hwell⟩
        obtain ⟨hsame, hposts⟩ := hleads.samePeers (hmeshed.settled_of hn) (fun sender ha => by
            subst ha
            cases hallowed with
            | read hread => exact (hsender hread).1)
          fun peerId ha => by
            subst ha
            obtain ⟨sender, hread⟩ := hallowed.handled
            exact (hinput _ _ hread).2 peerId rfl
        have hmissed := hleads.effect.missed_from (Q := (· ∈ (S₀.party i).node.network.knownPeers))
          (fun block peerId ha => by
            subst ha
            obtain ⟨sender, hread⟩ := hallowed.handled
            obtain ⟨hknown, hwell⟩ := hsender hread
            have hnames : peerId = sender := hwell.names
            have hpeers : n.network.knownPeers = _ := hn.samePeers
            rw [hnames, ← hpeers]
            exact hknown) hn.missed
        exact ⟨⟨trans_of SamePeers hn.samePeers hsame, hmissed⟩, hposts, fun _ _ => trivial⟩)
      hmoves.move (hholds.parties i)
    exact ⟨hkeeps.1, fun post hpost => ⟨⟨i, rfl⟩, hkeeps.2.1 post hpost⟩⟩
  · rw [(hstarted.nodes i).node.missedBlocks]
    simp
  · rw [(hstarted.hellos e he).1]
    exact fun _ => Message.noConfusion

/-- Whatever a node of a meshed deployment reads, it is prompt with. -/
theorem Meshed.prompt (hmeshed : D.Meshed S₀) (hstarted : D.Started S₀)
    (h : LeadsTo D.parties S₀ S) {i : ι} {sender : Bytes} {msg : Message}
    (hmem : ⟨sender, (D.member i).id, msg⟩ ∈ S.underWay) {n : Node}
    (hread : (Act.read sender).Leads (D.member i) (S.party i).node n) :
    (Act.handle msg).Prompt (D.member i) n := by
  have hholds := hmeshed.acquainted hstarted h
  have hacquainted := hholds.parties i
  obtain ⟨⟨j, hj⟩, -⟩ := hholds.messages _ hmem
  obtain rfl : sender = (D.member j).id := hj
  have hwell := (Reachable.wellAddressed ⟨S₀, hstarted, h⟩).messages _ hmem
  have hsends : Sends (S.party i).node n := (onNetwork_modify_sends _).of_ok hread
  have hsame : SamePeers (S.party i).node.network n.network :=
    (hread.samePeers (hmeshed.settled_of hacquainted) (fun sender ha => by
      cases ha
      exact hmeshed.known hacquainted hwell.ne.symm) (by simp)).1
  have hn : Acquainted (S₀.party i).node n := by
    refine ⟨trans_of SamePeers hacquainted.samePeers hsame, ?_⟩
    rw [hsends.quiet.missedBlocks]
    exact hacquainted.missed
  have hpeers : n.network.knownPeers = (S₀.party i).node.network.knownPeers := hn.samePeers
  have hcan {peerId : Bytes} (hknown : peerId ∈ n.network.knownPeers) :
      CanAsk (D.member i).toNodeEnv n peerId := ⟨hknown, (hmeshed.settled i).delivers _⟩
  have hknown : (D.member j).id ∈ n.network.knownPeers := hmeshed.known hn hwell.ne.symm
  cases msg with
  | resyncRequest peerId requestIndex =>
      have hnames : peerId = (D.member j).id := hwell.names
      exact hcan (hnames ▸ hknown)
  | resyncResponse answer =>
      obtain ⟨i', j', requestIndex, hdest, hsender, hasks, -⟩ := underWay_awaited hstarted h _ hmem
      obtain rfl : i = i' := D.id_injective hdest
      obtain rfl : j = j' := D.id_injective hsender
      have hnow : n.Asks (D.member j).id requestIndex := hasks.same hsends.sameAsk
      refine ⟨⟨_, _, hnow⟩, fun peerId hnext => hcan ?_⟩
      cases answer with
      | some block =>
          -- the next request goes to the peer that has just answered
          obtain ⟨missed, hmissed⟩ := hnow.missed
          rw [nextPeer, hmissed] at hnext
          split at hnext
          · cases hnext
            exact hknown
          · cases hnext
      | none =>
          rw [nextPeer] at hnext
          split at hnext
          · next hne =>
            obtain ⟨missed, hmem', hmissed⟩ :=
              chooseMissed_mem (n := { n with receivedResyncBlocks := [] })
                (D.member i).toNodeEnv hne
            rw [hmissed] at hnext
            cases hnext
            rw [hpeers]
            exact hn.missed missed hmem'
          · cases hnext
  | hello _ => trivial
  | blockBroadcast _ _ => trivial
  | peerListRequest => trivial
  | peerList => trivial
  | peerForgetRequest _ => trivial

/-- **No deadlock.** In every run of a meshed deployment in which no
message is lost, whatever the order of delivery, each node that resyncs
has exactly one message under way: its request, or the response to it. A
node with more peers than the maximum may forget the one it is to ask. -/
theorem no_deadlock (hstarted : D.Started S₀) (hmeshed : D.Meshed S₀)
    (h : Delivers D.parties S₀ S) (i : ι) :
    (S.underWay.map (counts (D.member i).id)).sum = (S.party i).node.due := by
  have hbalance {S S' : System ι} {j : ι} {input : Option (Bytes × Message)}
      {rest : List (Envelope Bytes Message)} {posts : List Post}
      (hleadsTo : Delivers D.parties S₀ S) (hmoves : Moves D.parties S j input rest posts S') :=
    Process.Move.balance hmoves.move fun sender msg n₁ hread hleads => by
      subst hread
      exact hmeshed.prompt hstarted hleadsTo.leadsTo hmoves.mem hleads
  refine @Delivers.balance _ _ _ _ D.parties S₀ S (fun i => counts (D.member i).id)
    (fun _ p => p.node.due) ?_ ?_ h (fun i => ?_) i
  · intro S i input rest posts S' hdelivers hmoves
    rw [charge_posted]
    exact (hbalance hdelivers hmoves).1
  · intro S i j input rest posts S' hne hdelivers hmoves
    rw [charge_posted]
    exact (hbalance hdelivers hmoves).2 _ fun hid => hne (D.id_injective hid).symm
  · rw [hstarted.charge fun _ _ => rfl, Node.due, (hstarted.nodes i).node.state]
    rfl

end Deployment

/-! ## The pair -/

/-- The first node makes three blocks. The second reads the third before
the second, and asks for the last block of the first. -/
def overtakenHappenings : List (Happening Pair) :=
  [.advances .first 10 noRows, .idles .first, .advances .first 10 noRows, .idles .first,
    .advances .first 10 noRows, .advances .second 10 noRows, .advances .second 10 noRows,
    .reads .second 0 none id, .advances .second 10 noRows, .reads .second 1 none id,
    .advances .second 10 noRows, .advances .second 10 noRows]

def overtakenSystem : System Pair := (pair.happen pairStart overtakenHappenings).getD pairStart

theorem overtakenSystem_run : Delivers pair.parties pairStart overtakenSystem ∧
    (overtakenSystem.party .second).node.state = .resyncing := by
  have hrun : ((pair.happen pairStart overtakenHappenings).any fun S =>
      (S.party .second).node.state = .resyncing) = true := by
    decide +kernel
  obtain ⟨S, hS, hresyncing⟩ := (Option.any_eq_true _ _).mp hrun
  obtain rfl : overtakenSystem = S := by rw [overtakenSystem, hS, Option.getD_some]
  exact ⟨Deployment.happen_delivers (by decide) hS, of_decide_eq_true hresyncing⟩

theorem pair_meshed : pair.Meshed pairStart where
  settled i := by
    cases i with
    | first => exact ⟨fun _ => rfl, by decide, by decide⟩
    | second => exact ⟨fun _ => rfl, by decide, by decide⟩
  peers i j hij := by
    cases i with
    | first =>
      cases j with
      | first => exact absurd rfl hij
      | second => exact List.mem_singleton_self _
    | second =>
      cases j with
      | first => exact List.mem_singleton_self _
      | second => exact absurd rfl hij
  hellos _ he := nomatch he

theorem pair_no_deadlock :
    (overtakenSystem.party .second).node.state = .resyncing ∧
      (overtakenSystem.underWay.map (counts (pair.member .second).id)).sum
        = (overtakenSystem.party .second).node.due :=
  ⟨overtakenSystem_run.2, Deployment.no_deadlock pairStart_started pair_meshed
    overtakenSystem_run.1 .second⟩

end Cpos
