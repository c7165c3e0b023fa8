import Cpos.Acts

/-!
# Waiting for an answer

A resyncing node leaves its state only on a `ResyncResponse`, so it had
better be waiting for one. `Waiting` follows a node together with the
requests that `send_message` took and whose responses have not come in;
a request is named by the number of its attempt.

The start of a resync asks one peer after another until a request goes
out. A response that leads to a further request does not: the result of
`send_message` is dropped there. `KeepsAsking` says that the peer can be
asked where that happens, or that another request is still out, and the
steps that meet it are exactly the ones after which a waiting node is
still waiting (`waits_step`).
-/

namespace Cpos

open Python ByteString LinkedChain BlockChain

variable {K : Type} [PyNum K] {env : LoopEnv K} {n n' : Node}

/-! ## Requests -/

/-- The request that a call of `sendRequest` gets through. -/
def requestSent (env : NodeEnv K) (n : Node) : List Nat :=
  if returned (sendRequest env) n = some true then [n.network.attempts] else []

/-- The requests that `findResyncPeer` gets through. -/
def findRequests (env : NodeEnv K) : Nat → Node → List Nat
  | 0, _ => []
  | turns + 1, n =>
      let chosen := chooseMissed env n
      requestSent env chosen ++ match sendRequest env chosen with
        | .ok false n' => findRequests env turns n'
        | _ => []

/-- The requests that the treatment of a response gets through. -/
def responseRequests (env : NodeEnv K) (n : Node) : Option Block → List Nat
  | none =>
      if n.missedBlocks ≠ [] then
        requestSent env (chooseMissed env { n with receivedResyncBlocks := [] })
      else []
  | some block =>
      match mergeReceived env
          { n with receivedResyncBlocks := block :: n.receivedResyncBlocks } with
      | .ok false n' =>
          requestSent env { n' with requestIndex := n'.requestIndex.map fun index => index - 1 }
      | _ => []

/-- The requests that an act gets through. -/
def Act.requests (env : LoopEnv K) (n : Node) : Act → List Nat
  | .startResync => if Due n then findRequests env.toNodeEnv n.missedBlocks.length n else []
  | .handle (.resyncResponse block) =>
      if n.state = .resyncing then responseRequests env.toNodeEnv n block else []
  | _ => []

/-! ## A node and its requests -/

structure Waiting where
  node : Node
  pending : List Nat

/-- The requests still out when the response to `answers` has come in, as
far as the act reads one. -/
def Act.unanswered (answers : Option Nat) (pending : List Nat) : Act → List Nat
  | .handle (.resyncResponse _) => pending.filter fun k => some k ≠ answers
  | _ => pending

/-- An act, with the request that the response it reads answers. -/
structure Waiting.Step (env : LoopEnv K) (a : Act) (answers : Option Nat) (w w' : Waiting) :
    Prop where
  leads : a.Leads env w.node w'.node
  pending : w'.pending = a.unanswered answers w.pending ++ a.requests env w.node

/-- A resyncing node has a request out. -/
def Waits (w : Waiting) : Prop := w.node.state = .resyncing → w.pending ≠ []

/-- The peer that the response makes the node ask next, if any. -/
def nextPeer (env : NodeEnv K) (n : Node) : Option Block → Option Bytes
  | none =>
      if n.missedBlocks ≠ [] then
        (chooseMissed env { n with receivedResyncBlocks := [] }).missed.map Prod.snd
      else none
  | some block =>
      if (returned (merge env.toEnv (block :: n.receivedResyncBlocks)) n.bc).map Prod.fst
          = some false then n.missed.map Prod.snd
      else none

/-- The peer is known, and the socket takes the message. -/
def CanAsk (env : NodeEnv K) (n : Node) (peerId : Bytes) : Prop :=
  peerId ∈ n.network.knownPeers ∧ env.delivers n.network.attempts = true

/-- Where a response leads to a further request, the peer can be asked,
or another request is still out. -/
def KeepsAsking (env : LoopEnv K) (a : Act) (answers : Option Nat) (w : Waiting) : Prop :=
  ∀ block peerId, a = .handle (.resyncResponse block) → w.node.state = .resyncing →
    nextPeer env.toNodeEnv w.node block = some peerId →
      CanAsk env.toNodeEnv w.node peerId ∨ a.unanswered answers w.pending ≠ []

/-! ## Which requests get through -/

theorem Network.send_eq_ok {delivers : Nat → Bool} {peerId : Bytes} {network network' : Network}
    {sent : Bool} (h : Network.send delivers peerId network = .ok sent network') :
    sent = true ↔ peerId ∈ network.knownPeers ∧ delivers network.attempts = true := by
  by_cases hknown : peerId ∈ network.knownPeers
  swap
  · rw [Network.run_send_unknown hknown] at h
    cases h
    simp [hknown]
  by_cases hdelivers : delivers network.attempts = true
  · rw [Network.run_send_delivered hknown hdelivers] at h
    cases h
    simp [hknown, hdelivers]
  have h' : (if peerId ∈ network.knownPeers then _ else _ : Network.Call Bool) network
      = .ok sent network' := h
  rw [if_pos hknown] at h'
  have h'' : (if delivers network.attempts = true then _ else _ : Network.Call Bool)
      { network with attempts := network.attempts + 1 } = .ok sent network' := h'
  rw [if_neg hdelivers] at h''
  refine iff_of_false (fun hsent => ?_) fun h => hdelivers h.2
  subst hsent
  cases hcount : network.peerFailedMsgCount peerId with
  | none =>
      simp only [hcount] at h''
      cases h''
  | some count =>
      simp only [hcount] at h''
      obtain ⟨_, n₁, -, h₁⟩ := bind_eq_ok h''
      by_cases hthird : count + 1 ≥ 3
      · simp only [if_pos hthird] at h₁
        cases h₁
      · simp only [if_neg hthird] at h₁
        cases h₁

theorem sendRequest_eq_ok {env : NodeEnv K} {sent : Bool}
    (h : sendRequest env n = .ok sent n') :
    ∃ missed, n.missed = some missed ∧ (sent = true ↔ CanAsk env n missed.2) := by
  cases hmissed : n.missed with
  | none =>
      rw [sendRequest_of_none hmissed] at h
      cases h
  | some missed =>
      rw [sendRequest_of_missed hmissed] at h
      have h' : onNetwork (Network.send env.delivers missed.2) n = .ok sent n' := h
      obtain ⟨network, hnetwork, -⟩ := focus_eq_ok h'
      exact ⟨missed, rfl, Network.send_eq_ok hnetwork⟩

theorem requestSent_ne_nil {env : NodeEnv K} {sent : Bool}
    (h : sendRequest env n = .ok sent n') : requestSent env n ≠ [] ↔ sent = true := by
  rw [requestSent, returned_ok h]
  cases sent with
  | true => simp
  | false => simp

theorem findRequests_ne_nil {env : NodeEnv K} {found : Bool} (turns : Nat) :
    ∀ {n : Node}, findResyncPeer env turns n = .ok found n' →
      found = true → findRequests env turns n ≠ [] := by
  induction turns with
  | zero =>
      intro n h hfound
      cases h
      cases hfound
  | succ turns ih =>
      intro n h hfound
      obtain ⟨sent, n₁, hsend, h₁⟩ := findResyncPeer_succ_ok h
      rw [findRequests, Ne, List.append_eq_nil_iff]
      rintro ⟨hnone, hrest⟩
      cases sent with
      | true => exact (requestSent_ne_nil hsend).mpr rfl hnone
      | false =>
          simp only [hsend] at hrest
          exact ih h₁ hfound hrest

/-! ## The two acts of a resync -/

theorem startResync_requests {a : Act} (ha : a = .startResync) (h : a.Leads env n n')
    (hresyncing : n'.state = .resyncing) : n.state = .resyncing ∨ a.requests env n ≠ [] := by
  subst ha
  rcases startResync_ok h with ⟨-, rfl⟩ | ⟨hdue, found, n₁, hfind, rfl⟩
  · exact .inl hresyncing
  cases found with
  | true =>
      refine .inr ?_
      rw [Act.requests, if_pos (show Due n from hdue)]
      exact findRequests_ne_nil _ hfind rfl
  | false =>
      rw [if_neg Bool.false_ne_true, (findResyncPeer_asks _ (le_refl _) hfind).1, hdue.1]
        at hresyncing
      cases hresyncing

theorem chooseMissed_network (env : NodeEnv K) (n : Node) :
    (chooseMissed env n).network = n.network := by
  unfold chooseMissed
  simp only
  split
  · rfl
  · rfl

/-- What the treatment of a response comes to: the node goes on resyncing
exactly if there is a peer to ask next, and its request gets through
exactly if the peer can be asked. -/
theorem response_requests {env : NodeEnv K} (hresyncing : n.state = .resyncing) :
    ∀ {block : Option Block}, handleResyncResponse env block n = .ok () n' →
      match nextPeer env n block with
      | none => n'.state = .listening
      | some peerId =>
          n'.state = .resyncing ∧ (responseRequests env n block ≠ [] ↔ CanAsk env n peerId)
  | none, h => by
      rw [nextPeer, responseRequests]
      rcases response_none_ok h with ⟨hmissed, sent, hsend⟩ | ⟨hmissed, rfl⟩
      swap
      · rw [if_neg (not_not.mpr hmissed)]
      obtain ⟨missed, hchosen, hcan⟩ := sendRequest_eq_ok hsend
      have hnetwork := chooseMissed_network env { n with receivedResyncBlocks := [] }
      have hstate := (chooseMissed_frame env { n with receivedResyncBlocks := [] }).2.1
      have hne := requestSent_ne_nil hsend
      rw [if_pos hmissed, if_pos hmissed, hchosen]
      obtain ⟨network, rfl⟩ := sendRequest_network hsend
      rw [CanAsk, hnetwork] at hcan
      exact ⟨hstate.trans hresyncing, hne.trans hcan⟩
  | some block, h => by
      obtain ⟨merged, n₁, hmerge, hrest⟩ := response_some_ok h
      obtain ⟨left, bc, hrun, rfl⟩ := mergeReceived_ok hmerge
      have hreturned : returned (merge env.toEnv (block :: n.receivedResyncBlocks)) n.bc
          = some (merged, left) := returned_ok hrun
      rw [nextPeer, hreturned, responseRequests, hmerge]
      cases merged with
      | true =>
          obtain rfl : n' = _ := hrest
          rfl
      | false =>
          obtain ⟨sent, hsend⟩ := hrest
          obtain ⟨missed, hmissed, hcan⟩ := sendRequest_eq_ok hsend
          have hne := requestSent_ne_nil hsend
          obtain ⟨network, rfl⟩ := sendRequest_network hsend
          have hnext : n.missed.map Prod.snd = some missed.2 := congrArg (Option.map Prod.snd) hmissed
          have hunmerged : (some (false, left)).map Prod.fst = some false := rfl
          rw [if_pos hunmerged, hnext]
          exact ⟨hresyncing, hne.trans hcan⟩

/-! ## One step -/

/-- A response that a resyncing node treats. -/
theorem waits_response {block : Option Block} {answers : Option Nat} {w w' : Waiting}
    (hresyncing : w.node.state = .resyncing)
    (h : w.Step env (.handle (.resyncResponse block)) answers w') :
    Waits w' ↔ KeepsAsking env (.handle (.resyncResponse block)) answers w := by
  obtain ⟨hleads, hpending⟩ := h
  have hrun : handleResyncResponse env.toNodeEnv block w.node = .ok () w'.node := by
    rw [← run_handleMessage_response hresyncing]
    exact hleads
  have hrequests := response_requests hresyncing hrun
  rw [Act.requests, if_pos hresyncing] at hpending
  cases hnext : nextPeer env.toNodeEnv w.node block with
  | none =>
      rw [hnext] at hrequests
      refine iff_of_true (fun hstate => ?_) ?_
      · rw [hrequests] at hstate
        cases hstate
      · rintro _ peerId ⟨⟩ - hpeer
        rw [hnext] at hpeer
        cases hpeer
  | some peerId =>
      rw [hnext] at hrequests
      obtain ⟨hstate, hsent⟩ := hrequests
      have hwaits : Waits w' ↔ w'.pending ≠ [] := by rw [Waits, imp_iff_right hstate]
      rw [hwaits, hpending, Ne, List.append_eq_nil_iff, not_and_or]
      constructor
      · rintro hor _ peerId' ⟨⟩ - hpeer
        obtain rfl := Option.some.inj (hnext.symm.trans hpeer)
        exact (hor.imp_right hsent.mp).symm
      · intro hkeeps
        exact (hkeeps block peerId rfl hresyncing hnext).symm.imp_right hsent.mpr

/-- **The step.** After it a node that waited still waits, exactly if the
step keeps asking. -/
theorem waits_step {a : Act} {answers : Option Nat} {w w' : Waiting} (hw : Waits w)
    (h : w.Step env a answers w') : Waits w' ↔ KeepsAsking env a answers w := by
  by_cases hresponse : ∃ block, a = .handle (.resyncResponse block) ∧ w.node.state = .resyncing
  · obtain ⟨block, rfl, hresyncing⟩ := hresponse
    exact waits_response hresyncing h
  have hno : ∀ block, a = .handle (.resyncResponse block) → w.node.state ≠ .resyncing :=
    fun block ha hresyncing => hresponse ⟨block, ha, hresyncing⟩
  refine iff_of_true (fun hstate => ?_) fun block peerId ha hresyncing =>
    absurd hresyncing (hno block ha)
  rw [h.pending, Ne, List.append_eq_nil_iff, not_and_or]
  by_cases hstart : a = .startResync
  · rcases startResync_requests hstart h.leads hstate with hresyncing | hsent
    · subst hstart
      exact .inl (hw hresyncing)
    · exact .inr hsent
  have hresyncing : w.node.state = .resyncing := by
    rw [← (h.leads.effect.bystands (fun hdue => hstart hdue.1) hno).state, hstate]
  refine .inl ?_
  have hsame : a.unanswered answers w.pending = w.pending := by
    unfold Act.unanswered
    split
    · exact absurd hresyncing (hno _ rfl)
    · rfl
  rw [hsame]
  exact hw hresyncing

/-! ## Runs -/

/-- The node comes from `w₀` to `w` by steps that keep asking. -/
def Waiting.Reaches (env : LoopEnv K) : Waiting → Waiting → Prop :=
  Relation.ReflTransGen fun w w' =>
    ∃ a answers, w.Step env a answers w' ∧ KeepsAsking env a answers w

/-- **Waiting for an answer.** As long as every step keeps asking, a
resyncing node waits for an answer; the first step that does not leaves
it resyncing without a request out. -/
theorem resyncing_waits {w₀ w : Waiting} (hlistening : w₀.node.state = .listening)
    (h : w₀.Reaches env w) :
    Waits w ∧ ∀ {a : Act} {answers : Option Nat} {w' : Waiting}, w.Step env a answers w' →
      (Waits w' ↔ KeepsAsking env a answers w) := by
  have hwaits : Waits w := by
    induction h with
    | refl =>
        intro hresyncing
        rw [hlistening] at hresyncing
        cases hresyncing
    | tail _ hstep ih =>
        obtain ⟨a, answers, hstep, hkeeps⟩ := hstep
        exact (waits_step ih hstep).mpr hkeeps
  exact ⟨hwaits, waits_step hwaits⟩

/-! ## A node left alone -/

/-- The run of a list of acts, each with the request answered. -/
def Waiting.run (env : LoopEnv K) : Waiting → List (Act × Option Nat) → Option Waiting
  | w, [] => some w
  | w, (a, answers) :: rest =>
      match a.call env w.node with
      | .ok _ n' =>
          Waiting.run env ⟨n', a.unanswered answers w.pending ++ a.requests env w.node⟩ rest
      | .error _ _ => none

theorem Waiting.run_cons {a : Act} {answers : Option Nat} {rest : List (Act × Option Nat)}
    {w w' : Waiting} (h : w.run env ((a, answers) :: rest) = some w') :
    ∃ w₁ : Waiting, w.Step env a answers w₁ ∧ w₁.run env rest = some w' := by
  rw [Waiting.run] at h
  cases hcall : a.call env w.node with
  | error e n' =>
      rw [hcall] at h
      cases h
  | ok _ n' =>
      rw [hcall] at h
      have hstep : w.Step env a answers
          ⟨n', a.unanswered answers w.pending ++ a.requests env w.node⟩ := ⟨hcall, rfl⟩
      exact ⟨_, hstep, h⟩

theorem Waiting.run_steps {acts : List (Act × Option Nat)} : ∀ {w w' : Waiting},
    w.run env acts = some w' →
      Relation.ReflTransGen (fun w w' => ∃ a answers, w.Step env a answers w') w w' := by
  induction acts with
  | nil =>
      intro w w' h
      cases h
      exact .refl
  | cons act acts ih =>
      intro w w' h
      obtain ⟨w₁, hstep, hrest⟩ := Waiting.run_cons h
      exact .head ⟨_, _, hstep⟩ (ih hrest)

/-- Without a response every step keeps asking. -/
theorem Waiting.run_reaches {acts : List (Act × Option Nat)} : ∀ {w w' : Waiting},
    (∀ act ∈ acts, act.1.isResponse = false) → w.run env acts = some w' → w.Reaches env w' := by
  induction acts with
  | nil =>
      intro w w' _ h
      cases h
      exact .refl
  | cons act acts ih =>
      intro w w' hquiet h
      obtain ⟨hact, hacts⟩ := List.forall_mem_cons.mp hquiet
      obtain ⟨w₁, hstep, hrest⟩ := Waiting.run_cons h
      have hkeeps : KeepsAsking env act.1 act.2 w := by
        intro block peerId ha
        rw [ha] at hact
        cases hact
      exact .head ⟨_, _, hstep, hkeeps⟩ (ih hacts hrest)

/-- A node whose socket takes one message. -/
def aloneEnv : LoopEnv ℚ :=
  { loopEnv stepTime [a1, a3] with delivers := fun k => k = 0 }

def aloneNode : Node := (startLoop aloneEnv).node

def aloneAsking : List (Act × Option Nat) := askingActs.map fun a => (a, none)

/-- The tip of `bob`, which cannot be merged. -/
def aloneAnswer : Act × Option Nat := (.handle (.resyncResponse (some a3)), some 0)

/-- It resyncs and waits for nothing: the request that follows the answer
is refused. -/
theorem resyncing_alone :
    ∃ w : Waiting, Relation.ReflTransGen (fun w w' => ∃ a answers, w.Step aloneEnv a answers w')
        ⟨aloneNode, []⟩ w ∧ w.node.state = .resyncing ∧ w.pending = [] := by
  have hrun : ((Waiting.run aloneEnv ⟨aloneNode, []⟩
      (aloneAsking ++ [aloneAnswer, (.controlPeers none id, none)])).map fun w =>
        (w.node.state, w.pending)) = some (.resyncing, []) := by decide +kernel
  obtain ⟨w, hw, heq⟩ := Option.map_eq_some_iff.mp hrun
  exact ⟨w, Waiting.run_steps hw, congrArg Prod.fst heq, congrArg Prod.snd heq⟩

/-- Until the answer it keeps asking; with the answer it does not. -/
theorem resyncing_waits_alone :
    ∃ w w' : Waiting, Waiting.Reaches aloneEnv ⟨aloneNode, []⟩ w ∧ w.node.state = .resyncing ∧
      w.Step aloneEnv aloneAnswer.1 aloneAnswer.2 w' ∧
      w.pending ≠ [] ∧ ¬KeepsAsking aloneEnv aloneAnswer.1 aloneAnswer.2 w := by
  have hasks : ((Waiting.run aloneEnv ⟨aloneNode, []⟩ aloneAsking).map fun w =>
      w.node.state) = some .resyncing := by decide +kernel
  have hanswered : (((Waiting.run aloneEnv ⟨aloneNode, []⟩ aloneAsking).bind fun w =>
      w.run aloneEnv [aloneAnswer]).map fun w =>
        (w.node.state, w.pending)) = some (.resyncing, []) := by decide +kernel
  obtain ⟨w, hw, hstate⟩ := Option.map_eq_some_iff.mp hasks
  rw [hw, Option.bind_some] at hanswered
  obtain ⟨w', hw', hend⟩ := Option.map_eq_some_iff.mp hanswered
  have hreaches := Waiting.run_reaches (by decide) hw
  obtain ⟨w₁, hstep, hnil⟩ := Waiting.run_cons hw'
  obtain rfl : w₁ = w' := Option.some.inj hnil
  obtain ⟨hwaits, hiff⟩ := resyncing_waits rfl hreaches
  refine ⟨w, w₁, hreaches, hstate, hstep, hwaits hstate, fun hkeeps => ?_⟩
  exact (hiff hstep).mpr hkeeps (congrArg Prod.fst hend) (congrArg Prod.snd hend)

end Cpos
