import Cpos.Broadcasts
import Cpos.Producing

/-!
# What a node posts

A node's loop in two halves, and the messages it gets through to its
socket in each. `advance` is the loop from its top to the read,
`receiveMessage` the rest; a turn is the one after the other
(`loopTurn_eq`). Between the two a node may wait, and others act.

`Act.posts` gives the messages that an act gets through, with their
contents, and `Act.made` the block it makes. Both are read off the state
in which the act starts.
-/

namespace Cpos

open Python ByteString LinkedChain BlockChain

variable {K : Type} [PyNum K]

/-! ## The two halves of the loop -/

/-- The loop up to the read. Returns whether it gets there. -/
def advance (env : LoopEnv K) (fuel : Nat) (mock : Int → TransactionList) : LoopCall Bool := do
  if halts env (← get) then return false
  if !(← onNode (beginTurn env.toNodeEnv)) then return false
  onNode (onChain (updateRound env.toEnv fuel))
  newRound env mock

theorem loopTurn_eq (env : LoopEnv K) (t : Turn) :
    loopTurn env t = (do
      if ← advance env t.fuel t.mock then onNode (receiveMessage env t) : LoopCall Unit) := by
  funext l
  show (if halts env l then pure () else _ : LoopCall Unit) l = _
  by_cases hhalts : halts env l = true
  · have hadvance : advance env t.fuel t.mock l = .ok false l := by
      show (if halts env l then pure false else _ : LoopCall Bool) l = _
      rw [if_pos hhalts]
      rfl
    rw [if_pos hhalts, bind_ok hadvance]
    rfl
  have hrest : advance env t.fuel t.mock l = (onNode (beginTurn env.toNodeEnv) >>= fun goesOn =>
      if !goesOn then pure false
      else onNode (onChain (updateRound env.toEnv t.fuel)) >>= fun _ => newRound env t.mock :
      LoopCall Bool) l := by
    show (if halts env l then pure false else _ : LoopCall Bool) l = _
    rw [if_neg hhalts]
  rw [if_neg hhalts]
  cases hbegin : onNode (beginTurn env.toNodeEnv) l with
  | error e l₁ => rw [bind_error hbegin, bind_error (hrest.trans (bind_error hbegin))]
  | ok goesOn l₁ =>
      rw [bind_ok hbegin] at hrest ⊢
      cases goesOn with
      | false =>
          have hfalse : advance env t.fuel t.mock l = .ok false l₁ := hrest
          rw [bind_ok hfalse]
          rfl
      | true =>
          have hrest' : advance env t.fuel t.mock l
              = (onNode (onChain (updateRound env.toEnv t.fuel)) >>= fun _ =>
                newRound env t.mock : LoopCall Bool) l₁ := hrest
          show (onNode (onChain (updateRound env.toEnv t.fuel)) >>= fun _ =>
            newRound env t.mock >>= fun goesOn =>
              if !goesOn then pure () else onNode (receiveMessage env t) : LoopCall Unit) l₁ = _
          rw [← bind_assoc]
          cases hround : (onNode (onChain (updateRound env.toEnv t.fuel)) >>= fun _ =>
              newRound env t.mock : LoopCall Bool) l₁ with
          | error e l₂ => rw [bind_error hround, bind_error (hrest'.trans hround)]
          | ok goesOn l₂ =>
              rw [bind_ok hround, bind_ok (hrest'.trans hround)]
              cases goesOn with
              | false => rfl
              | true => rfl

theorem joinConsensus_ok {env : LoopEnv K} {l l' : Loop} {r : Bool}
    (h : joinConsensus env l = .ok r l') :
    l' = if r then { l with nodeOnConsensus := true } else l := by
  have h' : (if l.nodeOnConsensus then pure true else _ : LoopCall Bool) l = .ok r l' := h
  by_cases hjoined : l.nodeOnConsensus = true
  · rw [if_pos hjoined] at h'
    cases h'
    rw [if_pos rfl, ← hjoined]
  rw [if_neg hjoined] at h'
  cases hperiod : env.period with
  | none =>
      rw [hperiod] at h'
      cases h'
      rfl
  | some period =>
      rw [hperiod] at h'
      by_cases hzero : period = 0
      · simp only [if_pos hzero] at h'
        cases h'
      simp only [if_neg hzero] at h'
      have h'' : (if l.node.bc.currentRound % period = 0 then
          (do set { l with nodeOnConsensus := true }; return true) else pure false :
          LoopCall Bool) l = .ok r l' := h'
      split at h''
      · cases h''
        rfl
      · cases h''
        rfl

/-! ## Messages -/

/-- A message and the peer it is for. -/
abbrev Post := Bytes × Message

section Posts

variable (env : NodeEnv K)

/-- The message, if the socket takes it. -/
def messageSent (n : Node) (peerId : Bytes) (msg : Message) : List Post :=
  if returned (sendMessage env peerId) n = some true then [(peerId, msg)] else []

/-- The messages that go out when one is sent to these peers in turn. -/
def messagesSent (msg : Message) : List Bytes → Node → List Post
  | [], _ => []
  | peer :: peers, n =>
      messageSent env n peer msg ++ messagesSent msg peers (after (broadcastTo env peer) n)

def broadcastSent (n : Node) (invalidPeers : List Bytes) (msg : Message) : List Post :=
  messagesSent env msg (broadcastCalls env invalidPeers n.network.knownPeers.length 0 n) n

/-- The request to the sender of `missed`. -/
def resyncSent (n : Node) : List Post :=
  match n.missed, n.requestIndex with
  | some (_, peerId), some requestIndex =>
      messageSent env n peerId (.resyncRequest env.id requestIndex)
  | _, _ => []

/-- The request that `findResyncPeer` gets through in the end. -/
def findResyncSent : Nat → Node → List Post
  | 0, _ => []
  | turns + 1, n =>
      let chosen := chooseMissed env n
      match sendRequest env chosen with
      | .ok true _ => resyncSent env chosen
      | .ok false n' => findResyncSent turns n'
      | .error _ _ => []

/-- The request that the treatment of a response leads to. -/
def responseSent (n : Node) : Option Block → List Post
  | none =>
      if n.missedBlocks ≠ [] then
        resyncSent env (chooseMissed env { n with receivedResyncBlocks := [] })
      else []
  | some block =>
      match mergeReceived env
          { n with receivedResyncBlocks := block :: n.receivedResyncBlocks } with
      | .ok false n' =>
          resyncSent env { n' with requestIndex := n'.requestIndex.map fun index => index - 1 }
      | _ => []

def answerSent (n : Node) (peerId : Bytes) (blockIndex : Int) : List Post :=
  match returned (resyncAnswer blockIndex) n.bc with
  | some answer => messageSent env n peerId (.resyncResponse answer)
  | none => []

def handleSent (n : Node) (msg : Message) : List Post :=
  match n.state, msg with
  | .listening, .blockBroadcast block peerId =>
      if admits env n block ∧ env.broadcastReceivedBlock then
        broadcastSent env n [peerId, block.ownerPubkey] (.blockBroadcast block env.id)
      else []
  | .resyncing, .resyncResponse blockReceived => responseSent env n blockReceived
  | _, .resyncRequest peerId blockIndex => answerSent env n peerId blockIndex
  | _, _ => []

end Posts

/-- The messages to the peers that are forgotten. -/
def surplusSent (env : LoopEnv K) (pick : Nat → Nat) : Nat → Node → List Post
  | 0, _ => []
  | turns + 1, n =>
      let knownPeers := n.network.knownPeers
      if knownPeers.length > env.maximumNumPeers then
        match knownPeers[pick knownPeers.length % knownPeers.length]? with
        | none => []
        | some peerId =>
            messageSent env.toNodeEnv n peerId (.peerForgetRequest env.id)
              ++ surplusSent env pick turns (after (do
                let _ ← sendMessage env.toNodeEnv peerId
                onNetwork (modify (Network.forgetPeer peerId)) : NodeCall Unit) n)
      else []

/-- The block that the loop's block production hands on. -/
def Act.made (env : LoopEnv K) (n : Node) : Act → List Block
  | .produce mock =>
      if env.broadcastCreatedBlock then
        ((returned (generateBlock env.toNodeEnv mock) n.bc).getD none).toList
      else []
  | _ => []

/-- The messages that an act gets through. -/
def Act.posts (env : LoopEnv K) (n : Node) : Act → List Post
  | .startResync =>
      if Due n then findResyncSent env.toNodeEnv n.missedBlocks.length n else []
  | .produce mock =>
      ((Act.produce mock).made env n).flatMap fun newBlock =>
        if (returned (insert env.toEnv newBlock) n.bc).isSome then
          broadcastSent env.toNodeEnv n [] (.blockBroadcast newBlock env.id)
        else []
  | .handle msg => handleSent env.toNodeEnv n msg
  | .controlPeers additionalPeers pick =>
      let network :=
        if n.network.knownPeers.length < env.minimumNumPeers then
          n.network.connectAll env.id (additionalPeers.getD [])
        else n.network
      surplusSent env pick (network.knownPeers.length + 1) { n with network }
  | .updateRound _ => []
  | .read _ => []

/-! ## Runs of acts -/

def postsOf (env : LoopEnv K) : Node → List Act → List Post
  | _, [] => []
  | n, a :: acts => a.posts env n ++ postsOf env (after (a.call env) n) acts

def madeOf (env : LoopEnv K) : Node → List Act → List Block
  | _, [] => []
  | n, a :: acts => a.made env n ++ madeOf env (after (a.call env) n) acts

/-- The loop produces a block in this turn. -/
def producesNow (env : LoopEnv K) (l : Loop) : Bool :=
  roundChanged env l
    && returned (joinConsensus env) { l with round := some l.node.bc.currentRound } = some true

/-- The acts of the first half. -/
def advanceActs (env : LoopEnv K) (fuel : Nat) (mock : Int → TransactionList) (l : Loop) :
    List Act :=
  if halts env l then []
  else match beginTurn env.toNodeEnv l.node with
    | .ok true n =>
        let n' := after ((Act.updateRound fuel).call env) n
        [.startResync, .updateRound fuel]
          ++ if producesNow env { l with node := n' } then [.produce mock] else []
    | _ => [.startResync]

/-- The acts of the second half. -/
def receiveActs (t : Turn) : List Act :=
  match t.received with
  | none => []
  | some (sender, msg) => [.read sender, .handle msg, .controlPeers t.additionalPeers t.pick]

section Runs

variable {env : LoopEnv K} {n n' : Node}

theorem Act.Leads.after {a : Act} (h : a.Leads env n n') : after (a.call env) n = n' :=
  after_ok h

theorem runActs_of_leads {a : Act} {acts : List Act} (h : a.Leads env n n') :
    runActs env n (a :: acts) = runActs env n' acts := by
  rw [runActs, h]

/-- What every act keeps, gets through and makes. Of the blocks of the
run `G` may be assumed. -/
theorem runActs_keeps {A : Act → Prop} {G M : Block → Prop} {I : Node → Prop} {J : Post → Prop}
    (hact : ∀ {a n n'}, A a → a.Leads env n n' → (∀ b ∈ a.made env n, G b) → I n →
      I n' ∧ (∀ p ∈ a.posts env n, J p) ∧ ∀ b ∈ a.made env n, M b)
    {acts : List Act} (hacts : ∀ a ∈ acts, A a) : ∀ {n n' : Node}, runActs env n acts = some n' →
      (∀ b ∈ madeOf env n acts, G b) → I n →
        I n' ∧ (∀ p ∈ postsOf env n acts, J p) ∧ ∀ b ∈ madeOf env n acts, M b := by
  induction acts with
  | nil =>
      intro n n' h _ hn
      cases h
      exact ⟨hn, by simp [postsOf], by simp [madeOf]⟩
  | cons a acts ih =>
      intro n n' h hG hn
      obtain ⟨ha, hrest⟩ := List.forall_mem_cons.mp hacts
      obtain ⟨n₁, hleads, h₁⟩ := runActs_cons h
      rw [madeOf, hleads.after] at hG
      have hG₁ : ∀ b ∈ a.made env n, G b := fun b hb => hG b (List.mem_append_left _ hb)
      obtain ⟨hn₁, hposts, hmade⟩ := hact ha hleads hG₁ hn
      obtain ⟨hn', hposts', hmade'⟩ := ih hrest h₁
        (fun b hb => hG b (List.mem_append_right _ hb)) hn₁
      rw [postsOf, madeOf, hleads.after]
      refine ⟨hn', fun p hp => ?_, fun b hb => ?_⟩
      · exact (List.mem_append.mp hp).elim (hposts p) (hposts' p)
      · exact (List.mem_append.mp hb).elim (hmade b) (hmade' b)

theorem beginTurn_leads {r : Bool} (h : beginTurn env.toNodeEnv n = .ok r n') :
    Act.startResync.Leads env n n' := by
  have h' : (startResync env.toNodeEnv >>= fun _ => get >>= fun m : Node =>
      pure (!(n.state = .listening ∧ n.bc.forkDetected ∧ n.missedBlocks ≠ [])
        || m.state = .resyncing) : NodeCall Bool) n = .ok r n' := h
  obtain ⟨_, n₁, hstart, hrest⟩ := bind_eq_ok h'
  cases hrest
  exact hstart

/-- How the first half ends, if it does not raise, and its acts: the node
halts, waits for a peer that can be asked, stays in its round, stands
aside, or produces. -/
inductive Advanced (env : LoopEnv K) (fuel : Nat) (mock : Int → TransactionList) (l : Loop) :
    List Act → Bool → Loop → Prop
  | halted (h : halts env l = true) : Advanced env fuel mock l [] false l
  | waits {n₁ : Node} (hbegin : Act.startResync.Leads env l.node n₁) :
      Advanced env fuel mock l [.startResync] false { l with node := n₁ }
  | stays {n₁ n₂ : Node} (hbegin : Act.startResync.Leads env l.node n₁)
      (hupdate : (Act.updateRound fuel).Leads env n₁ n₂)
      (hround : roundChanged env { l with node := n₂ } = false) :
      Advanced env fuel mock l [.startResync, .updateRound fuel] true { l with node := n₂ }
  | aside {n₁ n₂ : Node} (hbegin : Act.startResync.Leads env l.node n₁)
      (hupdate : (Act.updateRound fuel).Leads env n₁ n₂)
      (hround : roundChanged env { l with node := n₂ } = true) :
      Advanced env fuel mock l [.startResync, .updateRound fuel] false
        { l with node := n₂, round := some n₂.bc.currentRound }
  | produces {n₁ n₂ n₃ : Node} (hbegin : Act.startResync.Leads env l.node n₁)
      (hupdate : (Act.updateRound fuel).Leads env n₁ n₂)
      (hround : roundChanged env { l with node := n₂ } = true)
      (hproduce : (Act.produce mock).Leads env n₂ n₃) :
      Advanced env fuel mock l [.startResync, .updateRound fuel, .produce mock] true
        { l with node := n₃, round := some n₂.bc.currentRound, nodeOnConsensus := true }

theorem advance_ok {fuel : Nat} {mock : Int → TransactionList} {l l' : Loop} {r : Bool}
    (h : advance env fuel mock l = .ok r l') :
    Advanced env fuel mock l (advanceActs env fuel mock l) r l' := by
  have h' : (if halts env l then pure false else _ : LoopCall Bool) l = .ok r l' := h
  rw [advanceActs]
  by_cases hhalts : halts env l = true
  · rw [if_pos hhalts] at h' ⊢
    cases h'
    exact .halted hhalts
  rw [if_neg hhalts] at h' ⊢
  obtain ⟨goesOn, l₁, hbegin, h₁⟩ := bind_eq_ok h'
  obtain ⟨n₁, hn₁, rfl⟩ := onNode_eq_ok hbegin
  have hleads₁ := beginTurn_leads hn₁
  rw [hn₁]
  cases goesOn with
  | false =>
      cases h₁
      exact .waits hleads₁
  | true =>
      obtain ⟨_, l₂, hupdate, h₂⟩ := bind_eq_ok h₁
      obtain ⟨n₂, hn₂, rfl⟩ := onNode_eq_ok hupdate
      have hleads₂ : (Act.updateRound fuel).Leads env n₁ n₂ := hn₂
      simp only [hleads₂.after, producesNow]
      have h₃ : (if roundChanged env { l with node := n₂ } then _ else pure true : LoopCall Bool)
          { l with node := n₂ } = .ok r l' := h₂
      by_cases hround : roundChanged env { l with node := n₂ } = true
      swap
      · rw [if_neg hround] at h₃
        rw [Bool.not_eq_true] at hround
        rw [hround]
        cases h₃
        exact .stays hleads₁ hleads₂ hround
      rw [if_pos hround] at h₃
      rw [hround]
      obtain ⟨_, l₃, hmodify, h₄⟩ := bind_eq_ok h₃
      cases hmodify
      obtain ⟨joined, l₄, hjoin, h₅⟩ := bind_eq_ok h₄
      have hl₄ := joinConsensus_ok hjoin
      rw [returned_ok hjoin]
      cases joined with
      | false =>
          cases h₅
          obtain rfl : l' = { l with node := n₂, round := some n₂.bc.currentRound } := hl₄
          exact .aside hleads₁ hleads₂ hround
      | true =>
          rw [if_pos rfl] at hl₄
          obtain ⟨_, l₅, hproduce, h₆⟩ := bind_eq_ok h₅
          cases h₆
          obtain ⟨n₃, hn₃, rfl⟩ := onNode_eq_ok hproduce
          rw [hl₄] at hn₃ ⊢
          exact .produces hleads₁ hleads₂ hround hn₃

/-- The first half is the run of its acts. -/
theorem Advanced.runActs {fuel : Nat} {mock : Int → TransactionList} {l l' : Loop}
    {acts : List Act} {r : Bool} (h : Advanced env fuel mock l acts r l') :
    runActs env l.node acts = some l'.node := by
  cases h with
  | halted _ => rfl
  | waits hbegin => exact runActs_of_leads hbegin
  | stays hbegin hupdate _ =>
      rw [runActs_of_leads hbegin, runActs_of_leads hupdate]
      rfl
  | aside hbegin hupdate _ =>
      rw [runActs_of_leads hbegin, runActs_of_leads hupdate]
      rfl
  | produces hbegin hupdate _ hproduce =>
      rw [runActs_of_leads hbegin, runActs_of_leads hupdate, runActs_of_leads hproduce]
      rfl

/-- The block of a turn is the one that `produce` makes. -/
theorem madeOf_produces {fuel : Nat} {mock : Int → TransactionList} {n₁ n₂ : Node}
    (hbegin : Act.startResync.Leads env n n₁) (hupdate : (Act.updateRound fuel).Leads env n₁ n₂) :
    madeOf env n [.startResync, .updateRound fuel, .produce mock]
      = (Act.produce mock).made env n₂ := by
  rw [madeOf, hbegin.after, madeOf, hupdate.after, madeOf, madeOf, List.append_nil]
  rfl

theorem receiveMessage_runActs {t : Turn} (h : receiveMessage env t n = .ok () n') :
    runActs env n (receiveActs t) = some n' := by
  rw [receiveMessage] at h
  rw [receiveActs]
  cases hreceived : t.received with
  | none =>
      rw [hreceived] at h
      cases h
      rfl
  | some received =>
      obtain ⟨sender, msg⟩ := received
      rw [hreceived] at h
      obtain ⟨_, n₁, hread, h₁⟩ := bind_eq_ok h
      obtain ⟨_, n₁', hprint, h₁'⟩ := bind_eq_ok h₁
      obtain ⟨-, rfl⟩ := eval_eq_ok hprint
      obtain ⟨_, n₂, hhandle, h₂⟩ := bind_eq_ok h₁'
      have hleads₁ : (Act.read sender).Leads env n n₁ := hread
      have hleads₂ : (Act.handle msg).Leads env n₁ n₂ := hhandle
      have hleads₃ : (Act.controlPeers t.additionalPeers t.pick).Leads env n₂ n' := h₂
      show Cpos.runActs env n _ = _
      rw [runActs_of_leads hleads₁, runActs_of_leads hleads₂, runActs_of_leads hleads₃]
      rfl

theorem mem_advanceActs {fuel : Nat} {mock : Int → TransactionList} {l : Loop} {a : Act}
    (h : a ∈ advanceActs env fuel mock l) :
    a = .startResync ∨ a = .updateRound fuel ∨ a = .produce mock := by
  unfold advanceActs at h
  split at h
  · cases h
  · split at h
    · rcases List.mem_append.mp h with h | h
      · rcases List.mem_pair.mp h with rfl | rfl
        · exact .inl rfl
        · exact .inr (.inl rfl)
      · split at h
        · exact .inr (.inr (List.mem_singleton.mp h))
        · cases h
    · exact .inl (List.mem_singleton.mp h)

end Runs

/-! ## Which messages -/

section Contents

variable {env : NodeEnv K} {n n' : Node} {p : Post}

theorem of_mem_messageSent {peerId : Bytes} {msg : Message}
    (h : p ∈ messageSent env n peerId msg) :
    p = (peerId, msg) ∧ returned (sendMessage env peerId) n = some true := by
  unfold messageSent at h
  split at h
  · next hsent => exact ⟨List.mem_singleton.mp h, hsent⟩
  · cases h

theorem messageSent_length_le (peerId : Bytes) (msg : Message) :
    (messageSent env n peerId msg).length ≤ 1 := by
  unfold messageSent
  split
  · exact le_refl _
  · exact Nat.zero_le _

theorem of_mem_messagesSent {msg : Message} : ∀ {peers : List Bytes} {n : Node},
    p ∈ messagesSent env msg peers n → p.2 = msg
  | [], _, h => by cases h
  | peer :: peers, n, h => by
      rw [messagesSent] at h
      rcases List.mem_append.mp h with h | h
      · rw [(of_mem_messageSent h).1]
      · exact of_mem_messagesSent h

/-- The resyncing node asks the sender of `missed` for the block at its
request index. -/
structure AsksFor (env : NodeEnv K) (n : Node) (p : Post) : Prop where
  resyncing : n.state = .resyncing
  request : ∃ missed requestIndex, n.missed = some missed ∧ n.requestIndex = some requestIndex ∧
    p = (missed.2, .resyncRequest env.id requestIndex)

theorem resyncSent_length_le : (resyncSent env n).length ≤ 1 := by
  unfold resyncSent
  split
  · exact messageSent_length_le _ _
  · exact Nat.zero_le _

theorem of_mem_resyncSent (h : p ∈ resyncSent env n) (hresyncing : n'.state = .resyncing)
    (hmissed : n'.missed = n.missed) (hindex : n'.requestIndex = n.requestIndex) :
    AsksFor env n' p := by
  unfold resyncSent at h
  split at h
  · next block peerId requestIndex hmissed' hindex' =>
    exact ⟨hresyncing, (block, peerId), requestIndex, hmissed.trans hmissed',
      hindex.trans hindex', (of_mem_messageSent h).1⟩
  · cases h

/-- The search posts one request at most, and only when it finds a peer. -/
theorem findResyncSent_spec {found : Bool} : ∀ (turns : Nat) {n : Node},
    findResyncPeer env turns n = .ok found n' →
      (findResyncSent env turns n).length ≤ 1 ∧ ∀ p ∈ findResyncSent env turns n,
        found = true ∧ AsksFor env { n' with state := .resyncing } p
  | 0, n, _ => ⟨Nat.zero_le _, by simp [findResyncSent]⟩
  | turns + 1, n, h => by
      obtain ⟨sent, n₁, hsend, hrest⟩ := findResyncPeer_succ_ok h
      rw [findResyncSent]
      simp only [hsend]
      cases sent with
      | true =>
          obtain ⟨rfl, rfl⟩ := hrest
          obtain ⟨network, rfl⟩ := sendRequest_network hsend
          exact ⟨resyncSent_length_le, fun p hp => ⟨rfl, of_mem_resyncSent hp rfl rfl rfl⟩⟩
      | false => exact findResyncSent_spec turns hrest

theorem responseSent_length_le : ∀ block, (responseSent env n block).length ≤ 1
  | none => by
      rw [responseSent]
      split
      · exact resyncSent_length_le
      · exact Nat.zero_le _
  | some block => by
      rw [responseSent]
      split
      · exact resyncSent_length_le
      · exact Nat.zero_le _

theorem of_mem_responseSent (hresyncing : n.state = .resyncing) : ∀ {block : Option Block},
    handleResyncResponse env block n = .ok () n' → p ∈ responseSent env n block →
      AsksFor env n' p
  | none, h, hp => by
      rw [responseSent] at hp
      rcases response_none_ok h with ⟨hmissed, sent, hsend⟩ | ⟨hmissed, -⟩
      · rw [if_pos hmissed] at hp
        obtain ⟨network, rfl⟩ := sendRequest_network hsend
        have hstate := (chooseMissed_frame env { n with receivedResyncBlocks := [] }).2.1
        exact of_mem_resyncSent hp (hstate.trans hresyncing) rfl rfl
      · rw [if_neg (not_not.mpr hmissed)] at hp
        cases hp
  | some block, h, hp => by
      obtain ⟨merged, n₁, hmerge, hrest⟩ := response_some_ok h
      rw [responseSent, hmerge] at hp
      cases merged with
      | true => cases hp
      | false =>
          obtain ⟨sent, hsend⟩ := hrest
          obtain ⟨network, rfl⟩ := sendRequest_network hsend
          obtain ⟨left, bc, -, rfl⟩ := mergeReceived_ok hmerge
          exact of_mem_resyncSent hp hresyncing rfl rfl

end Contents

section Acts

variable {env : LoopEnv K} {n n' : Node} {a : Act} {p : Post}

/-- The messages of the two acts of a resync: one request at most, for the
block that the node is then after. -/
theorem Act.Leads.posts_asks (h : a.Leads env n n')
    (ha : a = .startResync ∨ ∃ block, a = .handle (.resyncResponse block)) :
    (a.posts env n).length ≤ 1 ∧ ∀ p ∈ a.posts env n, AsksFor env.toNodeEnv n' p := by
  rcases ha with rfl | ⟨block, rfl⟩
  · rw [Act.posts]
    rcases startResync_ok h with ⟨hdue, rfl⟩ | ⟨hdue, found, n₁, hfind, hn'⟩
    · rw [if_neg (show ¬Due n' from hdue)]
      exact ⟨Nat.zero_le _, by simp⟩
    · rw [if_pos (show Due n from hdue)]
      obtain ⟨hlength, hasks⟩ := findResyncSent_spec _ hfind
      refine ⟨hlength, fun p hp => ?_⟩
      obtain ⟨rfl, hfor⟩ := hasks p hp
      rw [if_pos rfl] at hn'
      rw [hn']
      exact ⟨rfl, hfor.request⟩
  · rw [Act.posts]
    cases hstate : n.state with
    | listening =>
        have hnone : handleSent env.toNodeEnv n (.resyncResponse block) = [] := by
          simp only [handleSent, hstate]
        rw [hnone]
        exact ⟨Nat.zero_le _, by simp⟩
    | resyncing =>
        have hsome : handleSent env.toNodeEnv n (.resyncResponse block)
            = responseSent env.toNodeEnv n block := by
          simp only [handleSent, hstate]
        have hrun : handleResyncResponse env.toNodeEnv block n = .ok () n' := by
          rw [← run_handleMessage_response hstate]
          exact h
        rw [hsome]
        exact ⟨responseSent_length_le block, fun p => of_mem_responseSent hstate hrun⟩

theorem of_mem_surplusSent {pick : Nat → Nat} : ∀ {turns : Nat} {n : Node},
    p ∈ surplusSent env pick turns n → p.2 = .peerForgetRequest env.id
  | 0, _, h => by cases h
  | turns + 1, n, h => by
      rw [surplusSent] at h
      split at h
      · split at h
        · cases h
        · rcases List.mem_append.mp h with h | h
          · rw [(of_mem_messageSent h).1]
          · exact of_mem_surplusSent h
      · cases h

/-- Everything that an act can post. -/
inductive Act.Posts (env : LoopEnv K) (n n' : Node) : Act → Post → Prop
  | asks {a : Act} {p : Post}
      (ha : a = .startResync ∨ ∃ block, a = .handle (.resyncResponse block))
      (h : AsksFor env.toNodeEnv n' p) : Posts env n n' a p
  | answers {peerId : Bytes} {blockIndex : Int} {answer : Option Block}
      (h : returned (resyncAnswer blockIndex) n.bc = some answer) :
      Posts env n n' (.handle (.resyncRequest peerId blockIndex)) (peerId, .resyncResponse answer)
  | forwards {block : Block} {sender peerId : Bytes}
      (hadmits : admits env.toNodeEnv n block = true) :
      Posts env n n' (.handle (.blockBroadcast block sender))
        (peerId, .blockBroadcast block env.id)
  | announces {mock : Int → TransactionList} {newBlock : Block} {peerId : Bytes}
      (h : newBlock ∈ (Act.produce mock).made env n) :
      Posts env n n' (.produce mock) (peerId, .blockBroadcast newBlock env.id)
  | parts {additionalPeers : Option (List Bytes)} {pick : Nat → Nat} {peerId : Bytes} :
      Posts env n n' (.controlPeers additionalPeers pick) (peerId, .peerForgetRequest env.id)

theorem Act.Leads.posts (h : a.Leads env n n') (hp : p ∈ a.posts env n) :
    a.Posts env n n' p := by
  have hasks (ha : a = .startResync ∨ ∃ block, a = .handle (.resyncResponse block)) :
      a.Posts env n n' p := .asks ha ((h.posts_asks ha).2 p hp)
  obtain ⟨peerId, msg⟩ := p
  cases a with
  | startResync => exact hasks (.inl rfl)
  | updateRound _ => cases hp
  | read _ => cases hp
  | produce mock =>
      obtain ⟨newBlock, hmade, hp⟩ := List.mem_flatMap.mp hp
      split at hp
      · obtain rfl : msg = _ := of_mem_messagesSent hp
        exact .announces hmade
      · cases hp
  | controlPeers additionalPeers pick =>
      obtain rfl : msg = _ := of_mem_surplusSent hp
      exact .parts
  | handle received =>
      have hanswer {peer : Bytes} {blockIndex : Int}
          (hp : (peerId, msg) ∈ answerSent env.toNodeEnv n peer blockIndex) :
          (Act.handle (.resyncRequest peer blockIndex)).Posts env n n' (peerId, msg) := by
        unfold answerSent at hp
        split at hp
        · next hanswer =>
          obtain ⟨rfl, rfl⟩ := Prod.mk.inj (of_mem_messageSent hp).1
          exact .answers hanswer
        · cases hp
      have hp' : (peerId, msg) ∈ handleSent env.toNodeEnv n received := hp
      unfold handleSent at hp'
      split at hp'
      · split at hp'
        · next hadmits =>
          obtain rfl : msg = _ := of_mem_messagesSent hp'
          exact .forwards hadmits.1
        · cases hp'
      · exact hasks (.inr ⟨_, rfl⟩)
      · exact hanswer hp'
      · cases hp'

end Acts

end Cpos
