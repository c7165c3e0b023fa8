import Cpos.Provenance

/-!
# One request at a time

A node asks for a block only when it starts a resync or has treated a
response, and a peer answers a request once. So of the requests of a node
and the responses to it there is at most one under way while the node
resyncs, and none while it listens, whatever is delivered and in whatever
order (`outstanding_le`). The argument is a budget: a request is paid for
by the state of the node that makes it, a response by the request, and the
next request by the response.

Hence a response that is under way is the one that its node waits for. It
comes from the peer that was asked last, and is that peer's answer, at
some moment since, to the request made last (`awaited`).
-/

namespace Cpos

open Python ByteString LinkedChain BlockChain Actors

variable {ι K : Type} [PyNum K]

/-! ## Charges -/

/-- A message to `dest` counts for the node `id` if it is a request of
that node or a response to it. -/
def Message.counts (id dest : Bytes) : Message → Nat
  | .resyncRequest peerId _ => if peerId = id then 1 else 0
  | .resyncResponse _ => if dest = id then 1 else 0
  | _ => 0

def counts (id : Bytes) (e : Envelope Bytes Message) : Nat := e.msg.counts id e.dest

/-- A node that resyncs may have one message under way. -/
def Node.due (n : Node) : Nat := if n.state = .resyncing then 1 else 0

/-- What an act reads. -/
def Act.intake (id dest : Bytes) : Act → Nat
  | .handle msg => msg.counts id dest
  | _ => 0

/-- What posts count for. -/
def chargeTo (id : Bytes) (posts : List Post) : Nat := (posts.map fun p => p.2.counts id p.1).sum

theorem charge_posted (id sender : Bytes) (posts : List Post) :
    charge (counts id) (posted sender posts) = chargeTo id posts := by
  rw [charge, posted, List.map_map]
  rfl

theorem chargeTo_append (id : Bytes) (posts posts' : List Post) :
    chargeTo id (posts ++ posts') = chargeTo id posts + chargeTo id posts' := by
  simp [chargeTo]

theorem chargeTo_eq_zero {id : Bytes} {posts : List Post}
    (h : ∀ p ∈ posts, p.2.counts id p.1 = 0) : chargeTo id posts = 0 := by
  refine List.sum_eq_zero fun x hx => ?_
  obtain ⟨p, hp, rfl⟩ := List.mem_map.mp hx
  exact h p hp

/-- One message at most, that counts for this much at most. -/
theorem chargeTo_le {id : Bytes} {bound : Nat} : ∀ {posts : List Post}, posts.length ≤ 1 →
    (∀ p ∈ posts, p.2.counts id p.1 ≤ bound) → chargeTo id posts ≤ bound
  | [], _, _ => Nat.zero_le _
  | [p], _, h => by
      rw [chargeTo, List.map_singleton, List.sum_singleton]
      exact h p (List.mem_singleton_self p)
  | _ :: _ :: _, h, _ => by
      rw [List.length_cons, List.length_cons] at h
      omega

/-! ## One act -/

section Acts

variable {env : LoopEnv K} {n n' : Node} {a : Act} {id : Bytes}

theorem answerSent_length_le (env : NodeEnv K) (n : Node) (peerId : Bytes) (blockIndex : Int) :
    (answerSent env n peerId blockIndex).length ≤ 1 := by
  unfold answerSent
  split
  · exact messageSent_length_le _ _
  · exact Nat.zero_le _

theorem posts_request (env : LoopEnv K) (n : Node) (peerId : Bytes) (blockIndex : Int) :
    (Act.handle (.resyncRequest peerId blockIndex)).posts env n
      = answerSent env.toNodeEnv n peerId blockIndex := by
  rw [Act.posts, handleSent]

/-- A request is answered once. -/
theorem charge_answer (id : Bytes) {peerId : Bytes} {blockIndex : Int}
    (h : (Act.handle (.resyncRequest peerId blockIndex)).Leads env n n') :
    chargeTo id ((Act.handle (.resyncRequest peerId blockIndex)).posts env n)
      ≤ (Act.handle (.resyncRequest peerId blockIndex)).intake id env.id := by
  refine chargeTo_le ?_ fun p hp => ?_
  · rw [posts_request]
    exact answerSent_length_le _ _ _ _
  · cases h.posts hp with
    | asks ha _ => simp at ha
    | answers _ => exact le_refl _

/-- The acts outside of a resync post neither requests nor responses. -/
theorem charge_eq_zero (id : Bytes) (h : a.Leads env n n') (hstart : a ≠ .startResync)
    (hresponse : ∀ block, a ≠ .handle (.resyncResponse block))
    (hrequest : ∀ peerId blockIndex, a ≠ .handle (.resyncRequest peerId blockIndex)) :
    chargeTo id (a.posts env n) = 0 := by
  refine chargeTo_eq_zero fun p hp => ?_
  cases h.posts hp with
  | asks ha _ =>
      rcases ha with ha | ⟨block, ha⟩
      · exact absurd ha hstart
      · exact absurd ha (hresponse block)
  | answers _ => exact absurd rfl (hrequest _ _)
  | forwards _ => rfl
  | announces _ => rfl
  | parts => rfl

/-- Asking: one request at most, which counts for the node itself. -/
theorem charge_asks (id : Bytes) (h : a.Leads env n n')
    (ha : a = .startResync ∨ ∃ block, a = .handle (.resyncResponse block)) :
    chargeTo id (a.posts env n) ≤ if env.id = id then n'.due else 0 := by
  obtain ⟨hlength, hasks⟩ := h.posts_asks ha
  refine chargeTo_le hlength fun p hp => ?_
  obtain ⟨hresyncing, missed, requestIndex, -, -, rfl⟩ := hasks p hp
  rw [Node.due, if_pos hresyncing]
  exact le_refl _

/-- An act of another node. -/
theorem Act.Leads.charge_other (h : a.Leads env n n') (hid : env.id ≠ id) :
    chargeTo id (a.posts env n) ≤ a.intake id env.id := by
  have hasked (ha : a = .startResync ∨ ∃ block, a = .handle (.resyncResponse block)) :
      chargeTo id (a.posts env n) ≤ a.intake id env.id := by
    have hle := charge_asks id h ha
    rw [if_neg hid] at hle
    exact hle.trans (Nat.zero_le _)
  by_cases hstart : a = .startResync
  · exact hasked (.inl hstart)
  by_cases hresponse : ∃ block, a = .handle (.resyncResponse block)
  · exact hasked (.inr hresponse)
  by_cases hrequest : ∃ peerId blockIndex, a = .handle (.resyncRequest peerId blockIndex)
  · obtain ⟨peerId, blockIndex, rfl⟩ := hrequest
    exact charge_answer id h
  have hzero := charge_eq_zero id h hstart (not_exists.mp hresponse)
    fun peerId blockIndex ha => hrequest ⟨peerId, blockIndex, ha⟩
  rw [hzero]
  exact Nat.zero_le _

/-- An act of the node itself. -/
theorem Act.Leads.charge_own (h : a.Leads env n n') :
    chargeTo env.id (a.posts env n) + n.due ≤ a.intake env.id env.id + n'.due := by
  have hbystands (hstart : ¬(a = .startResync ∧ Due n))
      (hresponse : ∀ block, a = .handle (.resyncResponse block) → n.state ≠ .resyncing) :
      n'.due = n.due := by
    rw [Node.due, Node.due, (h.effect.bystands hstart hresponse).state]
  have hasked (ha : a = .startResync ∨ ∃ block, a = .handle (.resyncResponse block)) :
      chargeTo env.id (a.posts env n) ≤ n'.due := by
    have hle := charge_asks env.id h ha
    rwa [if_pos rfl] at hle
  by_cases hstart : a = .startResync
  · subst hstart
    have hle := hasked (.inl rfl)
    by_cases hdue : Due n
    · have hzero : n.due = 0 := by
        rw [Node.due, hdue.1]
        rfl
      omega
    · have hnone : (Act.startResync).posts env n = [] := by
        rw [Act.posts, if_neg hdue]
      have hsame := hbystands (fun hboth => hdue hboth.2) (by simp)
      rw [hnone, hsame]
      exact le_of_eq rfl
  by_cases hresponse : ∃ block, a = .handle (.resyncResponse block)
  · obtain ⟨block, rfl⟩ := hresponse
    have hle := hasked (.inr ⟨block, rfl⟩)
    have hintake : (Act.handle (.resyncResponse block)).intake env.id env.id = 1 := if_pos rfl
    have hone : n.due ≤ 1 := by
      unfold Node.due
      split <;> omega
    omega
  have hsame := hbystands (fun hboth => hstart hboth.1)
    fun block ha => absurd ha (not_exists.mp hresponse block)
  by_cases hrequest : ∃ peerId blockIndex, a = .handle (.resyncRequest peerId blockIndex)
  · obtain ⟨peerId, blockIndex, rfl⟩ := hrequest
    have hle := charge_answer env.id h
    omega
  have hzero := charge_eq_zero env.id h hstart (not_exists.mp hresponse)
    fun peerId blockIndex ha => hrequest ⟨peerId, blockIndex, ha⟩
  omega

/-! ## Moves -/

theorem runActs_charge_other (hid : env.id ≠ id) {acts : List Act} : ∀ {n n' : Node},
    runActs env n acts = some n' →
      chargeTo id (postsOf env n acts) ≤ (acts.map (Act.intake id env.id)).sum := by
  induction acts with
  | nil => exact fun _ => le_refl _
  | cons a acts ih =>
      intro n n' h
      obtain ⟨n₁, hleads, hrest⟩ := runActs_cons h
      have hle := hleads.charge_other hid
      have hle' := ih hrest
      rw [postsOf, hleads.after, chargeTo_append, List.map_cons, List.sum_cons]
      omega

theorem runActs_charge_own {acts : List Act} : ∀ {n n' : Node}, runActs env n acts = some n' →
    chargeTo env.id (postsOf env n acts) + n.due
      ≤ (acts.map (Act.intake env.id env.id)).sum + n'.due := by
  induction acts with
  | nil =>
      intro n n' h
      cases h
      exact le_refl _
  | cons a acts ih =>
      intro n n' h
      obtain ⟨n₁, hleads, hrest⟩ := runActs_cons h
      have hle := hleads.charge_own
      have hle' := ih hrest
      rw [postsOf, hleads.after, chargeTo_append, List.map_cons, List.sum_cons]
      omega

theorem sum_intake_eq_zero {acts : List Act} (h : ∀ a ∈ acts, a.intake id env.id = 0) :
    (acts.map (Act.intake id env.id)).sum = 0 := by
  refine List.sum_eq_zero fun x hx => ?_
  obtain ⟨a, ha, rfl⟩ := List.mem_map.mp hx
  exact h a ha

theorem sum_intake_receiveActs (t : Turn) :
    ((receiveActs t).map (Act.intake id env.id)).sum
      = chargeOf (counts id) env.id t.received := by
  rw [receiveActs]
  cases t.received with
  | none => rfl
  | some received => simp [Act.intake, chargeOf, counts]

/-- What a move posts and what it reads, as acts. -/
theorem Process.Move.intake {p p' : Process} {input : Option (Bytes × Message)}
    {posts : List Post} (h : Process.Move env p input p' posts) (id : Bytes) :
    ∃ acts, runActs env p.node acts = some p'.node ∧ posts = postsOf env p.node acts ∧
      (acts.map (Act.intake id env.id)).sum = chargeOf (counts id) env.id input := by
  cases h with
  | advances _ _ h =>
      refine ⟨_, (advance_ok h).runActs, rfl, sum_intake_eq_zero fun a ha => ?_⟩
      rcases mem_advanceActs ha with rfl | rfl | rfl
      · rfl
      · rfl
      · rfl
  | reads _ h =>
      obtain ⟨n', hn', rfl⟩ := onNode_eq_ok h
      exact ⟨_, receiveMessage_runActs hn', rfl, sum_intake_receiveActs _⟩

end Acts

/-! ## The budget -/

namespace Deployment

variable {D : Deployment ι K} {S : System ι}

theorem charge_le_due (h : D.Reachable S) (i : ι) :
    charge (counts (D.member i).id) S.underWay ≤ (S.party i).node.due := by
  obtain ⟨S₀, hstarted, hleadsTo⟩ := h
  refine @LeadsTo.budget _ _ _ _ D.parties S₀ S (fun i => counts (D.member i).id)
    (fun _ p => p.node.due) ?_ ?_ hleadsTo (fun i => ?_) i
  · intro S i input rest posts S' _ hmoves
    obtain ⟨acts, hrun, rfl, hintake⟩ := Process.Move.intake hmoves.move (D.member i).id
    have hle := runActs_charge_own hrun
    rw [hintake] at hle
    rw [charge_posted]
    exact hle
  · intro S i j input rest posts S' hne _ hmoves
    obtain ⟨acts, hrun, rfl, hintake⟩ := Process.Move.intake hmoves.move (D.member i).id
    have hid : (D.member j).id ≠ (D.member i).id := fun heq => hne (D.id_injective heq).symm
    have hle := runActs_charge_other hid hrun
    rw [hintake] at hle
    rw [charge_posted]
    exact hle
  · rw [hstarted.charge fun _ _ => rfl]
    exact Nat.zero_le _

/-- **One message at most.** In every run, the requests of a node and the
responses to it that are under way are one at most while it resyncs, and
none while it listens. -/
theorem outstanding_le (h : D.Reachable S) (i : ι) :
    (S.underWay.map (counts (D.member i).id)).sum ≤ (S.party i).node.due := charge_le_due h i

end Deployment

/-- The request of the second node. -/
theorem pair_outstanding :
    (pairSystem.party .second).node.state = .resyncing ∧ pairSystem.underWay.length = 1 ∧
      (pairSystem.underWay.map (counts (pair.member .second).id)).sum
        ≤ (pairSystem.party .second).node.due :=
  ⟨pairSystem_run.2.resyncing, pairSystem_run.2.underWay,
    Deployment.outstanding_le pairSystem_reachable .second⟩

/-! ## Whom a node has asked -/

/-- The node resyncs, and it has asked this peer for the block at this
index. -/
structure Node.Asks (n : Node) (peerId : Bytes) (requestIndex : Int) : Prop where
  resyncing : n.state = .resyncing
  missed : ∃ block, n.missed = some (block, peerId)
  requestIndex : n.requestIndex = some requestIndex

/-- The state and the variables of the request are the same. -/
structure SameAsk (n n' : Node) : Prop where
  state : n'.state = n.state
  missed : n'.missed = n.missed
  requestIndex : n'.requestIndex = n.requestIndex

instance : Std.Refl SameAsk where
  refl _ := ⟨rfl, rfl, rfl⟩

instance : IsTrans Node SameAsk where
  trans _ _ _ h h' :=
    ⟨h'.state.trans h.state, h'.missed.trans h.missed, h'.requestIndex.trans h.requestIndex⟩

theorem Node.Asks.same {n n' : Node} {peerId : Bytes} {requestIndex : Int}
    (h : n.Asks peerId requestIndex) (hsame : SameAsk n n') : n'.Asks peerId requestIndex :=
  ⟨hsame.state.trans h.resyncing, by rw [hsame.missed]; exact h.missed,
    hsame.requestIndex.trans h.requestIndex⟩

section Frame

variable {env : LoopEnv K} {n n' : Node} {a : Act}

theorem Sends.sameAsk (h : Sends n n') : SameAsk n n' := by
  obtain ⟨network, sentBlocks, rfl⟩ := h
  exact ⟨rfl, rfl, rfl⟩

theorem onChain_sameAsk {α : Type} (x : Call α) : Keeps SameAsk (onChain x) := fun n => by
  rw [onChain, after_focus]
  exact ⟨rfl, rfl, rfl⟩

theorem keeps_modify_sameAsk {f : Node → Node} (hf : ∀ n, SameAsk n (f n)) :
    Keeps SameAsk (modify f : NodeCall Unit) := fun n => hf n

theorem discard_sameAsk : Keeps SameAsk discard :=
  keeps_bind (keeps_modify_sameAsk fun _ => ⟨rfl, rfl, rfl⟩) fun _ => keeps_pure _

theorem broadcastMessage_sameAsk (env : NodeEnv K) (invalidPeers : List Bytes) :
    Keeps SameAsk (broadcastMessage env invalidPeers) := fun n =>
  (broadcastMessage_sends invalidPeers n).sameAsk

theorem insertNewBlock_sameAsk (env : NodeEnv K) (block : Block) (peerId : Bytes) :
    Keeps SameAsk (insertNewBlock env block peerId) := by
  have hforward : Keeps SameAsk (forwardBlock env block peerId) := fun n =>
    (forwardBlock_sends block peerId n).sameAsk
  refine keeps_bind hforward fun _ => keeps_bind (onChain_sameAsk _) fun stored => ?_
  cases stored with
  | true => exact keeps_bind (keeps_modify_sameAsk fun _ => ⟨rfl, rfl, rfl⟩) fun _ => keeps_pure _
  | false =>
      exact keeps_bind (keeps_modify_sameAsk fun _ => ⟨rfl, rfl, rfl⟩) fun _ =>
        keeps_bind discard_sameAsk fun _ => keeps_pure _

theorem handleNewBlock_sameAsk (env : NodeEnv K) (block : Block) (peerId : Bytes) :
    Keeps SameAsk (handleNewBlock env block peerId) := fun n => by
  rw [after, run_handleNewBlock]
  by_cases hadmits : admits env n block = true
  · rw [if_pos hadmits]
    exact insertNewBlock_sameAsk env block peerId n
  · rw [if_neg hadmits]
    exact discard_sameAsk n

theorem produceBlock_sameAsk (env : NodeEnv K) (mock : Int → TransactionList) :
    Keeps SameAsk (produceBlock env mock) := by
  refine keeps_bind (onChain_sameAsk _) fun r => ?_
  cases r with
  | none => exact keeps_pure _
  | some newBlock =>
      show Keeps SameAsk (if env.broadcastCreatedBlock then _ else pure () : NodeCall Unit)
      split
      · exact keeps_bind (keeps_modify_sameAsk fun _ => ⟨rfl, rfl, rfl⟩) fun _ =>
          keeps_bind (onChain_sameAsk _) fun _ => broadcastMessage_sameAsk env []
      · exact keeps_pure _

theorem answerRequest_sameAsk (env : NodeEnv K) (peerId : Bytes) (blockIndex : Int) :
    Keeps SameAsk (answerRequest env peerId blockIndex) := by
  have hsend : Keeps SameAsk (sendMessage env peerId) := fun n =>
    (sendMessage_sends peerId n).sameAsk
  exact keeps_bind (onChain_sameAsk _) fun _ => keeps_bind hsend fun _ => keeps_pure _

/-- Only the start of a due resync and a response that is treated change
what a node asks for. -/
theorem Act.Leads.sameAsk (h : a.Leads env n n') (hstart : ¬(a = .startResync ∧ Due n))
    (hresponse : ∀ block, a ≠ .handle (.resyncResponse block)) : SameAsk n n' := by
  cases a with
  | startResync =>
      rcases startResync_ok h with ⟨-, rfl⟩ | ⟨hdue, -⟩
      · exact refl_of SameAsk _
      · exact absurd ⟨rfl, hdue⟩ hstart
  | updateRound fuel => exact (onChain_sameAsk _).of_ok h
  | produce mock => exact (produceBlock_sameAsk _ mock).of_ok h
  | read sender => exact Sends.sameAsk ((onNetwork_modify_sends _).of_ok h)
  | controlPeers additionalPeers pick =>
      exact Sends.sameAsk ((controlNumberOfPeers_sends additionalPeers pick).of_ok h)
  | handle msg =>
      have hkeeps : Keeps SameAsk (handleMessage env.toNodeEnv msg) := by
        unfold handleMessage
        refine keeps_bind keeps_get fun n => ?_
        split
        · exact keeps_bind (handleNewBlock_sameAsk _ _ _) fun _ => keeps_pure _
        · exact fun n => (onNetwork_modify_sends _ n).sameAsk
        · exact absurd rfl (hresponse _)
        · exact answerRequest_sameAsk _ _ _
        · exact keeps_pure _
      exact hkeeps.of_ok h

end Frame

/-! ## The posts of a move -/

/-- What a move posts: a request for the block that the node then waits
for, the answer of its chain to the request it has read, or a message of
the node's own that has nothing to do with a resync. -/
inductive Posted (env : LoopEnv K) (bc : BlockChain) (input : Option (Bytes × Message))
    (n' : Node) : Post → Prop
  | asks {peerId : Bytes} {requestIndex : Int} (h : n'.Asks peerId requestIndex) :
      Posted env bc input n' (peerId, .resyncRequest env.id requestIndex)
  | answers {sender peerId : Bytes} {blockIndex : Int} {answer : Option Block}
      (hinput : input = some (sender, .resyncRequest peerId blockIndex))
      (h : returned (resyncAnswer blockIndex) bc = some answer) :
      Posted env bc input n' (peerId, .resyncResponse answer)
  | broadcasts {peerId : Bytes} (block : Block) :
      Posted env bc input n' (peerId, .blockBroadcast block env.id)
  | parts {peerId : Bytes} : Posted env bc input n' (peerId, .peerForgetRequest env.id)

section Moves

variable {env : LoopEnv K} {p p' : Process} {input : Option (Bytes × Message)} {posts : List Post}
  {n n' n₁ : Node} {bc : BlockChain} {a : Act}

/-- The posts of an act, when no request follows. -/
theorem Act.Leads.posted (h : a.Leads env n n₁) (hafter : SameAsk n₁ n') (hbc : n.bc = bc)
    (hinput : ∀ msg, a = .handle msg → ∃ sender, input = some (sender, msg)) :
    ∀ post ∈ a.posts env n, Posted env bc input n' post := by
  intro post hpost
  cases h.posts hpost with
  | asks _ hasks =>
      obtain ⟨hresyncing, missed, requestIndex, hmissed, hindex, rfl⟩ := hasks
      have hnow : n₁.Asks missed.2 requestIndex := ⟨hresyncing, ⟨missed.1, hmissed⟩, hindex⟩
      exact .asks (hnow.same hafter)
  | answers hanswer =>
      obtain ⟨sender, hread⟩ := hinput _ rfl
      exact .answers hread (hbc ▸ hanswer)
  | forwards _ => exact .broadcasts _
  | announces _ => exact .broadcasts _
  | parts => exact .parts

/-- The posts of an act that neither asks nor answers. -/
theorem Act.Leads.posted_of_ne (h : a.Leads env n n₁) (hstart : a ≠ .startResync)
    (hhandle : ∀ msg, a ≠ .handle msg) : ∀ post ∈ a.posts env n, Posted env bc input n' post := by
  intro post hpost
  cases h.posts hpost with
  | asks ha _ =>
      rcases ha with ha | ⟨block, ha⟩
      · exact absurd ha hstart
      · exact absurd ha (hhandle _)
  | answers _ => exact absurd rfl (hhandle _)
  | forwards _ => exact absurd rfl (hhandle _)
  | announces _ => exact .broadcasts _
  | parts => exact .parts

theorem Advanced.posted {fuel : Nat} {mock : Int → TransactionList} {l l' : Loop}
    {acts : List Act} {r : Bool} (h : Advanced env fuel mock l acts r l') :
    ∀ post ∈ postsOf env l.node acts, Posted env l.node.bc none l'.node post := by
  intro post hpost
  have hupdates {n₁ n₂ : Node} (hupdate : (Act.updateRound fuel).Leads env n₁ n₂) :
      SameAsk n₁ n₂ := hupdate.sameAsk (by simp) (by simp)
  cases h with
  | halted _ => cases hpost
  | waits hbegin =>
      rw [postsOf, postsOf, List.append_nil] at hpost
      exact hbegin.posted (refl_of SameAsk _) rfl (by simp) post hpost
  | stays hbegin hupdate _ =>
      rw [postsOf, hbegin.after, postsOf, postsOf, List.append_nil] at hpost
      rcases List.mem_append.mp hpost with hpost | hpost
      · exact hbegin.posted (hupdates hupdate) rfl (by simp) post hpost
      · cases hpost
  | aside hbegin hupdate _ =>
      rw [postsOf, hbegin.after, postsOf, postsOf, List.append_nil] at hpost
      rcases List.mem_append.mp hpost with hpost | hpost
      · exact hbegin.posted (hupdates hupdate) rfl (by simp) post hpost
      · cases hpost
  | produces hbegin hupdate _ hproduce =>
      rw [postsOf, hbegin.after, postsOf, hupdate.after, postsOf, postsOf, List.append_nil] at hpost
      rcases List.mem_append.mp hpost with hpost | hpost
      · have hproduced := hproduce.sameAsk (by simp) (by simp)
        exact hbegin.posted (trans_of SameAsk (hupdates hupdate) hproduced) rfl (by simp) post hpost
      · exact hproduce.posted_of_ne (by simp) (by simp) post hpost

theorem receiveMessage_posted {t : Turn} (h : receiveMessage env t n = .ok () n') :
    ∀ post ∈ postsOf env n (receiveActs t), Posted env n.bc t.received n' post := by
  intro post hpost
  have hrun := receiveMessage_runActs h
  unfold receiveActs at hpost hrun
  split at hpost
  · cases hpost
  · next sender msg hreceived =>
    rw [hreceived] at hrun ⊢
    obtain ⟨n₁, hread, hrest⟩ := runActs_cons hrun
    obtain ⟨n₂, hhandle, hrest⟩ := runActs_cons hrest
    obtain ⟨n₃, hcontrol, hrest⟩ := runActs_cons hrest
    cases hrest
    have hbc : n₁.bc = n.bc :=
      (Sends.sameStore ((onNetwork_modify_sends (Network.read sender)).of_ok hread)).1
    rw [postsOf, hread.after, postsOf, hhandle.after, postsOf, postsOf, List.append_nil] at hpost
    rcases List.mem_append.mp hpost with hpost | hpost
    · cases hpost
    rcases List.mem_append.mp hpost with hpost | hpost
    · refine hhandle.posted (hcontrol.sameAsk (by simp) (by simp)) hbc (fun msg' ha => ?_)
        post hpost
      cases ha
      exact ⟨sender, rfl⟩
    · exact hcontrol.posted_of_ne (by simp) (by simp) post hpost

theorem Process.Move.posted (h : Process.Move env p input p' posts) :
    ∀ post ∈ posts, Posted env p.node.bc input p'.node post := by
  cases h with
  | advances _ _ h => exact (advance_ok h).posted
  | reads _ h =>
      obtain ⟨n', hn', rfl⟩ := onNode_eq_ok h
      exact receiveMessage_posted hn'

/-- While no response comes, a resyncing node does not ask again. -/
theorem runActs_sameAsk {acts : List Act}
    (hacts : ∀ a ∈ acts, ∀ block, a ≠ .handle (.resyncResponse block)) : ∀ {n n' : Node},
      runActs env n acts = some n' → n.state = .resyncing → SameAsk n n' := by
  induction acts with
  | nil =>
      intro n n' h _
      cases h
      exact refl_of SameAsk _
  | cons a acts ih =>
      intro n n' h hresyncing
      obtain ⟨ha, hrest⟩ := List.forall_mem_cons.mp hacts
      obtain ⟨n₁, hleads, h₁⟩ := runActs_cons h
      have hsame := hleads.sameAsk (fun hboth => by
        have hlistening := hboth.2.1
        rw [hresyncing] at hlistening
        cases hlistening) ha
      exact trans_of SameAsk hsame (ih hrest h₁ (hsame.state.trans hresyncing))

theorem Process.Move.sameAsk (h : Process.Move env p input p' posts)
    (hresyncing : p.node.state = .resyncing)
    (hinput : ∀ sender block, input ≠ some (sender, .resyncResponse block)) :
    SameAsk p.node p'.node := by
  obtain ⟨acts, hrun, hacts, -, -⟩ := h.acts
  refine runActs_sameAsk (fun a ha block => ?_) hrun hresyncing
  rintro rfl
  obtain ⟨sender, hread⟩ := (hacts _ ha).handled
  exact hinput sender block hread

end Moves

/-! ## What is under way is awaited -/

namespace Deployment

variable {D : Deployment ι K} {S₀ S S' : System ι} {i : ι} {input : Option (Bytes × Message)}
  {rest : List (Envelope Bytes Message)} {posts : List Post}

/-- A request under way is the one its node has made last. A response is
the answer, at some moment since, of the peer that was asked last to the
request made last. -/
def Awaited (D : Deployment ι K) (S₀ S : System ι) (e : Envelope Bytes Message) : Prop :=
  match e.msg with
  | .resyncRequest peerId requestIndex =>
    ∃ i, e.sender = (D.member i).id ∧ peerId = (D.member i).id ∧
      (S.party i).node.Asks e.dest requestIndex
  | .resyncResponse answer => ∃ i j requestIndex, e.dest = (D.member i).id ∧
      e.sender = (D.member j).id ∧ (S.party i).node.Asks (D.member j).id requestIndex ∧
      Once D.parties S₀ (fun S₁ => (S₁.party i).node.Asks (D.member j).id requestIndex ∧
        returned (resyncAnswer requestIndex) (S₁.party j).node.bc = some answer) S
  | _ => True

/-- A step in which every node keeps asking for what it asks for. -/
theorem Awaited.step {e : Envelope Bytes Message} (h : D.Awaited S₀ S e)
    (hstep : Step D.parties S S')
    (hasks : ∀ i peerId requestIndex, 1 ≤ counts (D.member i).id e →
      (S.party i).node.Asks peerId requestIndex → (S'.party i).node.Asks peerId requestIndex) :
    D.Awaited S₀ S' e := by
  obtain ⟨sender, dest, msg⟩ := e
  cases msg with
  | resyncRequest peerId requestIndex =>
      obtain ⟨i, hsender, hpeer, hi⟩ := h
      have hcounts :
          1 ≤ counts (D.member i).id ⟨sender, dest, .resyncRequest peerId requestIndex⟩ :=
        le_of_eq (if_pos hpeer).symm
      exact ⟨i, hsender, hpeer, hasks i dest requestIndex hcounts hi⟩
  | resyncResponse answer =>
      obtain ⟨i, j, requestIndex, hdest, hsender, hi, honce⟩ := h
      have hcounts : 1 ≤ counts (D.member i).id ⟨sender, dest, .resyncResponse answer⟩ :=
        le_of_eq (if_pos hdest).symm
      exact ⟨i, j, requestIndex, hdest, hsender, hasks i _ _ hcounts hi, honce.step hstep⟩
  | hello _ => trivial
  | blockBroadcast _ _ => trivial
  | peerListRequest => trivial
  | peerList => trivial
  | peerForgetRequest _ => trivial

/-- A node that has something under way reads no response besides. -/
theorem not_response (h : D.Reachable S) (hmoves : Moves D.parties S i input rest posts S')
    {e : Envelope Bytes Message} (he : e ∈ rest) (hcounts : 1 ≤ counts (D.member i).id e) :
    ∀ sender block, input ≠ some (sender, .resyncResponse block) := by
  rintro sender block rfl
  have hle := charge_le_due h i
  have htaken := hmoves.takes.charge (counts (D.member i).id)
  have hread : chargeOf (counts (D.member i).id) (D.parties.address i)
      (some (sender, .resyncResponse block)) = 1 := if_pos rfl
  have hleft : counts (D.member i).id e ≤ charge (counts (D.member i).id) rest := le_charge he
  have hone : (S.party i).node.due ≤ 1 := by
    unfold Node.due
    split <;> omega
  omega

/-- A node that reads no response keeps asking. -/
theorem keeps_asking (hmoves : Moves D.parties S i input rest posts S')
    (hinput : ∀ sender block, input ≠ some (sender, .resyncResponse block)) {j : ι} {peerId : Bytes}
    {requestIndex : Int} (hasks : (S.party j).node.Asks peerId requestIndex) :
    (S'.party j).node.Asks peerId requestIndex := by
  by_cases hij : j = i
  · subst hij
    exact hasks.same (Process.Move.sameAsk hmoves.move hasks.resyncing hinput)
  · rw [hmoves.others j hij]
    exact hasks

theorem underWay_awaited (hstarted : D.Started S₀) (h : LeadsTo D.parties S₀ S) :
    ∀ e ∈ S.underWay, D.Awaited S₀ S e := by
  have hholds : S.Holds (fun _ _ _ => True) fun S e => D.Awaited S₀ S e := by
    refine h.holds ?_ (fun _ _ _ _ => trivial) ?_ ?_ ⟨fun _ => trivial, fun e he => ?_⟩
    · intro S S' _ hstep hparty hsub hholds
      refine ⟨fun _ => trivial, fun e he => (hholds.messages e (hsub he)).step hstep ?_⟩
      intro i peerId requestIndex _ hasks
      rw [hparty]
      exact hasks
    · intro S i input rest posts S' e hleadsTo hmoves he hJ
      refine hJ.step hmoves.step fun j peerId requestIndex hcounts hasks => ?_
      by_cases hij : j = i
      · subst hij
        exact keeps_asking hmoves (not_response ⟨S₀, hstarted, hleadsTo⟩ hmoves he hcounts) hasks
      · rw [hmoves.others j hij]
        exact hasks
    · intro S i input rest posts S' hleadsTo _ hmoves hinput
      refine ⟨trivial, fun post hpost => ?_⟩
      cases Process.Move.posted hmoves.move post hpost with
      | asks hasks => exact ⟨i, rfl, rfl, hasks⟩
      | broadcasts _ => trivial
      | parts => trivial
      | @answers sender peerId blockIndex answer hread hanswer =>
          obtain ⟨j, hsender, hpeer, hasks⟩ : ∃ j, sender = (D.member j).id ∧
            peerId = (D.member j).id ∧ (S.party j).node.Asks (D.member i).id blockIndex :=
              hinput sender _ hread
          have hnow := Once.now (Q := fun S₁ : System ι =>
            (S₁.party j).node.Asks (D.member i).id blockIndex ∧
              returned (resyncAnswer blockIndex) (S₁.party i).node.bc = some answer)
            hleadsTo ⟨hasks, hanswer⟩
          refine ⟨j, i, blockIndex, hpeer, rfl, keeps_asking hmoves ?_ hasks, hnow.step hmoves.step⟩
          intro sender' block hresponse
          rw [hread] at hresponse
          cases hresponse
    · rw [Awaited, (hstarted.hellos e he).1]
      trivial
  exact hholds.messages

/-- **Answers to the request made last.** In every run, a request under
way is the one its node has made last, and a response under way is the
answer to it: it goes to a node that resyncs, comes from the peer that
this node has asked, and is what that peer's chain gave for the index it
was asked for, at a moment at which the node was asking already. -/
theorem awaited (hstarted : D.Started S₀) (h : LeadsTo D.parties S₀ S) :
    ∀ e ∈ S.underWay, D.Awaited S₀ S e := underWay_awaited hstarted h

end Deployment

/-- The request under way is the one that the second node has made. -/
theorem pair_awaited : pairSystem.underWay.length = 1 ∧
    ∀ e ∈ pairSystem.underWay, pair.Awaited pairStart pairSystem e :=
  ⟨pairSystem_run.2.underWay, Deployment.awaited pairStart_started pair_leadsTo⟩

end Cpos
