import Cpos.Insertions
import Cpos.Loop

/-!
# What an act does

The inversion theorem for acts (`Act.Leads.effect`): what an act that
returns does to the chain, the missed blocks and the state, and, for a
response, to the rest of the resync. Sending messages changes none of
these, so most acts are quiet.
-/

namespace Cpos

open Python ByteString LinkedChain BlockChain

variable {K : Type} [PyNum K] {env : LoopEnv K} {n n' : Node}

/-- A resync is due. -/
def Due (n : Node) : Prop := n.state = .listening ∧ n.bc.forkDetected ∧ n.missedBlocks ≠ []

instance (n : Node) : Decidable (Due n) := inferInstanceAs (Decidable (_ ∧ _ ∧ _))

/-- The chain, the missed blocks, the state and what belongs to a resync
are the same. -/
structure Quiet (n n' : Node) : Prop where
  bc : n'.bc = n.bc
  missedBlocks : n'.missedBlocks = n.missedBlocks
  state : n'.state = n.state
  receivedResyncBlocks : n'.receivedResyncBlocks = n.receivedResyncBlocks
  requestIndex : n'.requestIndex = n.requestIndex

/-- Everything an act can do. -/
inductive Effect (env : LoopEnv K) (n : Node) : Act → Node → Prop
  | quiet {a : Act} {n' : Node} (h : Quiet n n') : Effect env n a n'
  | rounds (fuel : Nat) (bc : BlockChain) (hrun : updateRound env.toEnv fuel n.bc = .ok () bc) :
      Effect env n (.updateRound fuel) { n with bc }
  | produced {mock : Int → TransactionList} {n' : Node} (block : Block)
      (hcreated : env.broadcastCreatedBlock = true)
      (hgenerated : returned (generateBlock env.toNodeEnv mock) n.bc = some (some block))
      (stored : Bool) (hrun : insert env.toEnv block n.bc = .ok stored n'.bc)
      (hrest : Quiet { n with bc := n'.bc } n') : Effect env n (.produce mock) n'
  | delivered {block : Block} {peerId : Bytes} {n' : Node} (hlistening : n.state = .listening)
      (hadmits : admits env.toNodeEnv n block = true) (stored : Bool)
      (hrun : insert env.toEnv block n.bc = .ok stored n'.bc)
      (hrest : Quiet { n with
        bc := n'.bc
        missedBlocks :=
          if stored then n.missedBlocks else n.missedBlocks ++ [(block, peerId)] } n') :
      Effect env n (.handle (.blockBroadcast block peerId)) n'
  | started {n' : Node} (h : Due n) (hbc : n'.bc = n.bc)
      (hmissed : n'.missedBlocks ⊆ n.missedBlocks)
      (hreceived : n'.receivedResyncBlocks = n.receivedResyncBlocks)
      (hasks : n'.state = .resyncing → n'.requestIndex = some (-1)) :
      Effect env n .startResync n'
  | noBlock {n' : Node} (hresyncing : n.state = .resyncing) (hmissed : n.missedBlocks ≠ [])
      (hrest : Quiet (chooseMissed env.toNodeEnv { n with receivedResyncBlocks := [] }) n') :
      Effect env n (.handle (.resyncResponse none)) n'
  | aborted {n' : Node} (hresyncing : n.state = .resyncing) (hmissed : n.missedBlocks = [])
      (hrest : Quiet { n with
        state := .listening
        receivedResyncBlocks := []
        bc := { n.bc with forkDetected := false } } n') :
      Effect env n (.handle (.resyncResponse none)) n'
  | merged {block : Block} {n' : Node} (hresyncing : n.state = .resyncing) (left : List Block)
      (bc : BlockChain)
      (hrun : merge env.toEnv (block :: n.receivedResyncBlocks) n.bc = .ok (true, left) bc)
      (hrest : Quiet { n with
        state := .listening
        missedBlocks := []
        receivedResyncBlocks := []
        bc := { bc with forkDetected := false } } n') :
      Effect env n (.handle (.resyncResponse (some block))) n'
  | unmerged {block : Block} {n' : Node} (hresyncing : n.state = .resyncing) (left : List Block)
      (bc : BlockChain)
      (hrun : merge env.toEnv (block :: n.receivedResyncBlocks) n.bc = .ok (false, left) bc)
      (hrest : Quiet { n with
        bc
        receivedResyncBlocks := left
        requestIndex := n.requestIndex.map fun index => index - 1 } n') :
      Effect env n (.handle (.resyncResponse (some block))) n'

/-! ## Sending -/

theorem Sends.quiet (h : Sends n n') : Quiet n n' := by
  obtain ⟨network, sentBlocks, rfl⟩ := h
  exact ⟨rfl, rfl, rfl, rfl, rfl⟩

theorem Quiet.trans {n₁ n₂ n₃ : Node} (h : Quiet n₁ n₂) (h' : Quiet n₂ n₃) : Quiet n₁ n₃ :=
  ⟨h'.bc.trans h.bc, h'.missedBlocks.trans h.missedBlocks, h'.state.trans h.state,
    h'.receivedResyncBlocks.trans h.receivedResyncBlocks, h'.requestIndex.trans h.requestIndex⟩

theorem onNetwork_modify_sends (f : Network → Network) :
    Keeps Sends (onNetwork (modify f)) := fun n => by
  rw [onNetwork, after_focus]
  exact ⟨_, n.sentBlocks, rfl⟩

theorem forgetSurplus_sends (pick : Nat → Nat) (turns : Nat) :
    Keeps Sends (forgetSurplus env pick turns) := by
  induction turns with
  | zero => exact keeps_pure _
  | succ turns ih =>
      rw [forgetSurplus]
      refine keeps_bind keeps_get fun n => ?_
      simp only
      split
      · split
        · exact keeps_throw _
        · exact keeps_bind (sendMessage_sends _) fun _ =>
            keeps_bind (onNetwork_modify_sends _) fun _ => ih
      · exact keeps_pure _

theorem controlNumberOfPeers_sends (additionalPeers : Option (List Bytes)) (pick : Nat → Nat) :
    Keeps Sends (controlNumberOfPeers env additionalPeers pick) := by
  have hrest (m : Node) : Keeps Sends (forgetSurplus env pick (m.network.knownPeers.length + 1)) :=
    forgetSurplus_sends pick _
  unfold controlNumberOfPeers
  refine keeps_bind keeps_get fun n => ?_
  split
  · exact keeps_bind (onNetwork_modify_sends _) fun _ => keeps_bind keeps_get hrest
  · exact keeps_bind keeps_get hrest

theorem keeps_composeBlock (row : Row) : Keeps Eq (composeBlock row) :=
  keeps_bind (keeps_bytesFromHex _) fun _ => keeps_bind (keeps_bytesFromHex _) fun _ =>
    keeps_bind (keeps_bytesFromHex _) fun _ => keeps_eval _

theorem keeps_blockByIndex (blockIndex : Int) : Keeps Eq (blockByIndex blockIndex) :=
  keeps_bind keeps_numberOfBlocks fun _ => keeps_bind (keeps_selectWhere _) fun _ =>
    keeps_bind (keeps_fetchone _) fun _ => keeps_composeBlock _

theorem keeps_resyncAnswer (blockIndex : Int) : Keeps Eq (resyncAnswer blockIndex) := by
  refine keeps_bind keeps_numberOfBlocks fun _ => ?_
  split
  · exact keeps_bind (keeps_blockByIndex _) fun _ => keeps_pure _
  · exact keeps_pure _

theorem answerRequest_quiet {peerId : Bytes} {blockIndex : Int}
    (h : answerRequest env.toNodeEnv peerId blockIndex n = .ok () n') : Quiet n n' := by
  obtain ⟨answer, n₁, hanswer, h₁⟩ := bind_eq_ok h
  obtain ⟨sent, n₂, hsend, h₂⟩ := bind_eq_ok h₁
  cases h₂
  obtain ⟨bc, hbc, rfl⟩ := focus_eq_ok hanswer
  have hkeeps : n.bc = bc := (keeps_resyncAnswer blockIndex).of_ok hbc
  have hquiet : Quiet n { n with bc } := ⟨hkeeps.symm, rfl, rfl, rfl, rfl⟩
  have hsends : Sends _ n' := (sendMessage_sends peerId).of_ok hsend
  exact hquiet.trans hsends.quiet

/-! ## Resyncing -/

theorem chooseMissed_missedBlocks (env : NodeEnv K) (n : Node) :
    (chooseMissed env n).missedBlocks ⊆ n.missedBlocks := by
  unfold chooseMissed
  simp only
  split
  · exact List.Subset.refl _
  · exact List.erase_subset

theorem findResyncPeer_frame {found : Bool} (turns : Nat) :
    ∀ {n : Node}, findResyncPeer env.toNodeEnv turns n = .ok found n' →
      n'.bc = n.bc ∧ n'.missedBlocks ⊆ n.missedBlocks ∧
        n'.receivedResyncBlocks = n.receivedResyncBlocks := by
  induction turns with
  | zero =>
      intro n h
      cases h
      exact ⟨rfl, List.Subset.refl _, rfl⟩
  | succ turns ih =>
      intro n h
      obtain ⟨hbc, -, hreceived⟩ := chooseMissed_frame env.toNodeEnv n
      have hmissed := chooseMissed_missedBlocks env.toNodeEnv n
      obtain ⟨sent, n₁, hsend, h₁⟩ := findResyncPeer_succ_ok h
      obtain ⟨network, rfl⟩ := sendRequest_network hsend
      cases sent with
      | true =>
          obtain ⟨-, rfl⟩ := h₁
          exact ⟨hbc, hmissed, hreceived⟩
      | false =>
          obtain ⟨hbc', hmissed', hreceived'⟩ := ih h₁
          exact ⟨hbc'.trans hbc, List.Subset.trans hmissed' hmissed, hreceived'.trans hreceived⟩

theorem startResync_effect (h : startResync env.toNodeEnv n = .ok () n') :
    Effect env n .startResync n' := by
  rcases startResync_ok h with ⟨-, rfl⟩ | ⟨hdue, found, n₁, hfind, rfl⟩
  · exact .quiet ⟨rfl, rfl, rfl, rfl, rfl⟩
  obtain ⟨hbc, hmissed, hreceived⟩ := findResyncPeer_frame _ hfind
  obtain ⟨hstate, hfound⟩ := findResyncPeer_asks _ (le_refl _) hfind
  cases found with
  | true => exact .started hdue hbc hmissed hreceived fun _ => (hfound rfl).1
  | false =>
      refine .started hdue hbc hmissed hreceived fun hresyncing => ?_
      rw [if_neg Bool.false_ne_true, hstate, hdue.1] at hresyncing
      cases hresyncing

/-- An empty response that is treated: another missed block is chosen and
its sender asked, or there is none and the resync ends. -/
theorem response_none_ok {env : NodeEnv K} (h : handleResyncResponse env none n = .ok () n') :
    (n.missedBlocks ≠ [] ∧ ∃ sent,
      sendRequest env (chooseMissed env { n with receivedResyncBlocks := [] }) = .ok sent n') ∨
    (n.missedBlocks = [] ∧ n' = { n with
      state := .listening
      receivedResyncBlocks := []
      bc := { n.bc with forkDetected := false } }) := by
  have h' : (if n.missedBlocks ≠ [] then _ else endResync : NodeCall Unit)
      { n with receivedResyncBlocks := [] } = .ok () n' := h
  by_cases hmissed : n.missedBlocks ≠ []
  · rw [if_pos hmissed] at h'
    obtain ⟨_, n₁, hchoose, h₁⟩ := bind_eq_ok h'
    cases hchoose
    obtain ⟨sent, n₂, hsend, h₂⟩ := bind_eq_ok h₁
    cases h₂
    exact .inl ⟨hmissed, sent, hsend⟩
  · rw [if_neg hmissed] at h'
    cases h'
    exact .inr ⟨not_not.mp hmissed, rfl⟩

/-- The list of received blocks is merged. -/
theorem mergeReceived_ok {env : NodeEnv K} {merged : Bool} (h : mergeReceived env n = .ok merged n') :
    ∃ left bc, merge env.toEnv n.receivedResyncBlocks n.bc = .ok (merged, left) bc ∧
      n' = { n with bc, receivedResyncBlocks := left } := by
  have h' : (onChain (merge env.toEnv n.receivedResyncBlocks) >>= fun r => do
      modify fun n => { n with receivedResyncBlocks := r.2 }
      return r.1 : NodeCall Bool) n = .ok merged n' := h
  obtain ⟨⟨merged', left⟩, n₁, hchain, h₁⟩ := bind_eq_ok h'
  obtain ⟨bc, hrun, rfl⟩ := focus_eq_ok hchain
  cases h₁
  exact ⟨left, bc, hrun, rfl⟩

/-- A block that is treated: the merge succeeds and the resync ends, or
the peer is asked for an older one. -/
theorem response_some_ok {env : NodeEnv K} {block : Block}
    (h : handleResyncResponse env (some block) n = .ok () n') :
    ∃ merged n₁, mergeReceived env
        { n with receivedResyncBlocks := block :: n.receivedResyncBlocks } = .ok merged n₁ ∧
      if merged then n' = { n₁ with
        state := .listening
        receivedResyncBlocks := []
        bc := { n₁.bc with forkDetected := false }
        missedBlocks := []
        successfullResyncs := n₁.successfullResyncs + 1 }
      else ∃ sent, sendRequest env
        { n₁ with requestIndex := n₁.requestIndex.map fun index => index - 1 } = .ok sent n' := by
  have h' : (mergeReceived env >>= fun merged =>
      if merged then completeResync else requestOlder env : NodeCall Unit)
      { n with receivedResyncBlocks := block :: n.receivedResyncBlocks } = .ok () n' := h
  obtain ⟨merged, n₁, hmerge, h₁⟩ := bind_eq_ok h'
  refine ⟨merged, n₁, hmerge, ?_⟩
  cases merged with
  | true =>
      cases h₁
      rfl
  | false =>
      have h₂ : requestOlder env n₁ = .ok () n' := h₁
      rw [requestOlder, bind_ok (get_ok n₁)] at h₂
      cases hindex : n₁.requestIndex with
      | none =>
          rw [hindex] at h₂
          cases h₂
      | some index =>
          rw [hindex] at h₂
          obtain ⟨_, n₂, hmodify, h₃⟩ := bind_eq_ok h₂
          cases hmodify
          obtain ⟨sent, n₃, hsend, h₄⟩ := bind_eq_ok h₃
          cases h₄
          exact ⟨sent, hsend⟩

theorem response_none_effect (hresyncing : n.state = .resyncing)
    (h : handleResyncResponse env.toNodeEnv none n = .ok () n') :
    Effect env n (.handle (.resyncResponse none)) n' := by
  rcases response_none_ok h with ⟨hmissed, sent, hsend⟩ | ⟨hmissed, rfl⟩
  · obtain ⟨network, rfl⟩ := sendRequest_network hsend
    exact .noBlock hresyncing hmissed ⟨rfl, rfl, rfl, rfl, rfl⟩
  · exact .aborted hresyncing hmissed ⟨rfl, rfl, rfl, rfl, rfl⟩

theorem response_some_effect (hresyncing : n.state = .resyncing) {block : Block}
    (h : handleResyncResponse env.toNodeEnv (some block) n = .ok () n') :
    Effect env n (.handle (.resyncResponse (some block))) n' := by
  obtain ⟨merged, n₁, hmerge, hrest⟩ := response_some_ok h
  obtain ⟨left, bc, hrun, rfl⟩ := mergeReceived_ok hmerge
  cases merged with
  | true =>
      obtain rfl : n' = _ := hrest
      exact .merged hresyncing left bc hrun ⟨rfl, rfl, rfl, rfl, rfl⟩
  | false =>
      obtain ⟨sent, hsend⟩ := hrest
      obtain ⟨network, rfl⟩ := sendRequest_network hsend
      exact .unmerged hresyncing left bc hrun ⟨rfl, rfl, rfl, rfl, rfl⟩

/-! ## Producing and handling -/

/-- Block production: nothing is produced, or not to be broadcast, or the
block is handed to `insert`. -/
theorem produceBlock_ok {env : NodeEnv K} {mock : Int → TransactionList}
    (h : produceBlock env mock n = .ok () n') :
    ∃ r, generateBlock env mock n.bc = .ok r n.bc ∧
      (((r = none ∨ env.broadcastCreatedBlock = false) ∧ Quiet n n') ∨
      ∃ block stored, r = some block ∧ env.broadcastCreatedBlock = true ∧
        insert env.toEnv block n.bc = .ok stored n'.bc ∧ Quiet { n with bc := n'.bc } n') := by
  obtain ⟨r, n₁, hgenerate, h₁⟩ := bind_eq_ok h
  obtain ⟨bc, hbc, rfl⟩ := focus_eq_ok hgenerate
  obtain rfl : n.bc = bc := (generateBlock_keeps mock).of_ok hbc
  refine ⟨r, hbc, ?_⟩
  cases r with
  | none =>
      cases h₁
      exact .inl ⟨.inl rfl, rfl, rfl, rfl, rfl, rfl⟩
  | some newBlock =>
      have h₂ : (if env.broadcastCreatedBlock then _ else pure () : NodeCall Unit) n
          = .ok () n' := h₁
      by_cases hcreated : env.broadcastCreatedBlock = true
      · rw [if_pos hcreated] at h₂
        obtain ⟨_, n₂, hcount, h₃⟩ := bind_eq_ok h₂
        cases hcount
        obtain ⟨stored, n₃, hinsert, h₄⟩ := bind_eq_ok h₃
        obtain ⟨bc', hbc', rfl⟩ := focus_eq_ok hinsert
        obtain ⟨network, sentBlocks, rfl⟩ := (broadcastMessage_sends []).of_ok h₄
        exact .inr ⟨newBlock, stored, rfl, hcreated, hbc', rfl, rfl, rfl, rfl, rfl⟩
      · rw [if_neg hcreated] at h₂
        cases h₂
        exact .inl ⟨.inr (Bool.not_eq_true _ ▸ hcreated), rfl, rfl, rfl, rfl, rfl⟩

theorem produce_effect {mock : Int → TransactionList}
    (h : produceBlock env.toNodeEnv mock n = .ok () n') : Effect env n (.produce mock) n' := by
  obtain ⟨r, hgenerated, ⟨-, hquiet⟩ | ⟨block, stored, rfl, hcreated, hrun, hrest⟩⟩ :=
    produceBlock_ok h
  · exact .quiet hquiet
  · exact .produced block hcreated (returned_ok hgenerated) stored hrun hrest

/-- A block that is handled: it is discarded at the filters, or handed to
`insert`, and missed if that returns `False`. -/
theorem handleNewBlock_ok {env : NodeEnv K} {block : Block} {peerId : Bytes} {r : Bool}
    (h : handleNewBlock env block peerId n = .ok r n') :
    (admits env n block = false ∧ r = false ∧ Quiet n n') ∨
    (admits env n block = true ∧ insert env.toEnv block n.bc = .ok r n'.bc ∧
      Quiet { n with
        bc := n'.bc
        missedBlocks := if r then n.missedBlocks else n.missedBlocks ++ [(block, peerId)] } n') := by
  rw [run_handleNewBlock] at h
  by_cases hadmits : admits env n block = true
  swap
  · rw [if_neg hadmits] at h
    cases h
    exact .inl ⟨Bool.not_eq_true _ ▸ hadmits, rfl, rfl, rfl, rfl, rfl, rfl⟩
  rw [if_pos hadmits] at h
  have h' : (forwardBlock env block peerId >>= _ : NodeCall Bool) n = .ok r n' := h
  obtain ⟨_, n₁, hforward, -⟩ := bind_eq_ok h'
  rw [run_insertNewBlock hforward] at h
  obtain ⟨network, sentBlocks, rfl⟩ := (forwardBlock_sends block peerId).of_ok hforward
  cases hrun : insert env.toEnv block n.bc with
  | error e bc =>
      simp only [hrun] at h
      cases h
  | ok stored bc =>
      simp only [hrun] at h
      cases stored with
      | true =>
          cases h
          exact .inr ⟨hadmits, rfl, rfl, rfl, rfl, rfl, rfl⟩
      | false =>
          cases h
          exact .inr ⟨hadmits, rfl, rfl, rfl, rfl, rfl, rfl⟩

theorem deliver_effect (hlistening : n.state = .listening) {block : Block} {peerId : Bytes}
    {r : Bool} (h : handleNewBlock env.toNodeEnv block peerId n = .ok r n') :
    Effect env n (.handle (.blockBroadcast block peerId)) n' := by
  rcases handleNewBlock_ok h with ⟨-, -, hquiet⟩ | ⟨hadmits, hrun, hrest⟩
  · exact .quiet hquiet
  · exact .delivered hlistening hadmits r hrun hrest

theorem run_handleMessage_broadcast {env : NodeEnv K} (hlistening : n.state = .listening)
    (block : Block) (peerId : Bytes) :
    handleMessage env (.blockBroadcast block peerId) n
      = (handleNewBlock env block peerId >>= fun _ => pure () : NodeCall Unit) n := by
  rw [handleMessage, bind_ok (get_ok n), hlistening]

theorem run_handleMessage_response {env : NodeEnv K} (hresyncing : n.state = .resyncing)
    (block : Option Block) :
    handleMessage env (.resyncResponse block) n = handleResyncResponse env block n := by
  rw [handleMessage, bind_ok (get_ok n), hresyncing]

theorem handle_effect {msg : Message} (h : handleMessage env.toNodeEnv msg n = .ok () n') :
    Effect env n (.handle msg) n' := by
  have h' := h
  rw [handleMessage, bind_ok (get_ok n)] at h
  have hidle {x : NodeCall Unit} (hx : x = pure ()) (hrun : x n = .ok () n') :
      Effect env n (.handle msg) n' := by
    rw [hx] at hrun
    cases hrun
    exact .quiet ⟨rfl, rfl, rfl, rfl, rfl⟩
  cases hstate : n.state with
  | listening =>
      rw [hstate] at h
      cases msg with
      | hello peerId => exact hidle rfl h
      | peerListRequest => exact hidle rfl h
      | peerList => exact hidle rfl h
      | resyncResponse blockReceived => exact hidle rfl h
      | resyncRequest peerId blockIndex => exact .quiet (answerRequest_quiet h)
      | peerForgetRequest peerId =>
          have hsends : Sends n n' := (onNetwork_modify_sends _).of_ok h
          exact .quiet hsends.quiet
      | blockBroadcast block peerId =>
          rw [run_handleMessage_broadcast hstate] at h'
          obtain ⟨r, n₁, hrun, h₁⟩ := bind_eq_ok h'
          cases h₁
          exact deliver_effect hstate hrun
  | resyncing =>
      rw [hstate] at h
      cases msg with
      | hello peerId => exact hidle rfl h
      | peerListRequest => exact hidle rfl h
      | peerList => exact hidle rfl h
      | blockBroadcast block peerId => exact hidle rfl h
      | peerForgetRequest peerId => exact hidle rfl h
      | resyncRequest peerId blockIndex => exact .quiet (answerRequest_quiet h)
      | resyncResponse blockReceived =>
          rw [run_handleMessage_response hstate] at h'
          cases blockReceived with
          | none => exact response_none_effect hstate h'
          | some block => exact response_some_effect hstate h'

/-- **What an act does.** -/
theorem Act.Leads.effect {a : Act} (h : a.Leads env n n') : Effect env n a n' := by
  cases a with
  | startResync => exact startResync_effect h
  | updateRound fuel =>
      have h' : onChain (Cpos.updateRound env.toEnv fuel) n = .ok () n' := h
      obtain ⟨bc, hrun, rfl⟩ := focus_eq_ok h'
      exact .rounds fuel bc hrun
  | produce mock => exact produce_effect h
  | read sender =>
      have hsends : Sends n n' := (onNetwork_modify_sends _).of_ok h
      exact .quiet hsends.quiet
  | handle msg => exact handle_effect h
  | controlPeers additionalPeers pick =>
      have hsends : Sends n n' := (controlNumberOfPeers_sends additionalPeers pick).of_ok h
      exact .quiet hsends.quiet

/-! ## Acts outside of a resync -/

/-- No resync is started or taken further, and no missed block leaves the
list. -/
structure Bystands (n n' : Node) : Prop where
  state : n'.state = n.state
  missedBlocks : n.missedBlocks ⊆ n'.missedBlocks
  receivedResyncBlocks : n'.receivedResyncBlocks = n.receivedResyncBlocks
  requestIndex : n'.requestIndex = n.requestIndex

theorem Quiet.bystands {n₁ : Node} (h : Quiet n₁ n') (h₁ : Bystands n n₁) : Bystands n n' :=
  ⟨h.state.trans h₁.state, h.missedBlocks ▸ h₁.missedBlocks,
    h.receivedResyncBlocks.trans h₁.receivedResyncBlocks, h.requestIndex.trans h₁.requestIndex⟩

/-- Only the start of a due resync and a response that is treated have to
do with a resync. -/
theorem Effect.bystands {a : Act} (h : Effect env n a n') (hstart : ¬(a = .startResync ∧ Due n))
    (hresponse : ∀ block, a = .handle (.resyncResponse block) → n.state ≠ .resyncing) :
    Bystands n n' := by
  have hchain (bc : BlockChain) : Bystands n { n with bc } :=
    ⟨rfl, List.Subset.refl _, rfl, rfl⟩
  cases h with
  | quiet h => exact h.bystands (hchain n.bc)
  | rounds _ bc _ => exact hchain bc
  | produced _ _ _ _ _ hrest => exact hrest.bystands (hchain _)
  | delivered _ _ stored _ hrest =>
      refine hrest.bystands ⟨rfl, ?_, rfl, rfl⟩
      show _ ⊆ (if stored then _ else _ : List (Block × Bytes))
      split
      · exact List.Subset.refl _
      · exact List.subset_append_left ..
  | started hdue _ _ _ _ => exact absurd ⟨rfl, hdue⟩ hstart
  | noBlock hresyncing _ _ => exact absurd hresyncing (hresponse _ rfl)
  | aborted hresyncing _ _ => exact absurd hresyncing (hresponse _ rfl)
  | merged hresyncing _ _ _ _ => exact absurd hresyncing (hresponse _ rfl)
  | unmerged hresyncing _ _ _ _ => exact absurd hresyncing (hresponse _ rfl)

/-! ## The chain -/

theorem Represents.of_rows {env : Env K} {s s' : BlockChain} {c : Chain (rules env)}
    (h : Represents env s c) (hrows : s'.localChains = s.localChains) : Represents env s' c :=
  ⟨hrows ▸ h.rows, hrows ▸ h.genesis, hrows ▸ h.arrived⟩

/-- Every act leaves a table that represents a chain. -/
theorem Effect.represents {a : Act} (h : Effect env n a n')
    (hn : ∃ c, Represents env.toEnv n.bc c) : ∃ c, Represents env.toEnv n'.bc c := by
  obtain ⟨c, hc⟩ := hn
  have hsame {bc : BlockChain} (hbc : bc = n.bc) : ∃ c, Represents env.toEnv bc c :=
    ⟨c, hbc ▸ hc⟩
  have hmerges {bs : List Block} {r : Bool × List Block} {s bc : BlockChain}
      (hrun : merge env.toEnv bs n.bc = .ok r bc) (hs : s.localChains = bc.localChains) :
      ∃ c, Represents env.toEnv s c := by
    obtain ⟨c', hc', -⟩ := merge_represents hc bs
    exact ⟨c', (after_ok hrun ▸ hc').of_rows hs⟩
  cases h with
  | quiet h => exact hsame h.bc
  | rounds fuel bc hrun => exact ⟨c, hc.confirms ((updateRound_confirms fuel).of_ok hrun)⟩
  | produced block _ _ _ hrun _ =>
      obtain ⟨c', hc', -⟩ := insert_represents hc block
      exact ⟨c', after_ok hrun ▸ hc'⟩
  | @delivered block _ _ _ _ _ hrun _ =>
      obtain ⟨c', hc', -⟩ := insert_represents hc block
      exact ⟨c', after_ok hrun ▸ hc'⟩
  | started _ hbc _ _ _ => exact hsame hbc
  | noBlock _ _ hrest => exact hsame (hrest.bc.trans (chooseMissed_frame _ _).1)
  | aborted _ _ hrest => exact ⟨c, hc.of_rows (by rw [hrest.bc])⟩
  | merged _ left bc hrun hrest => exact hmerges hrun (by rw [hrest.bc])
  | unmerged _ left bc hrun hrest => exact hmerges hrun (by rw [hrest.bc])

theorem Acts.represents (h : Acts env n n') (hn : ∃ c, Represents env.toEnv n.bc c) :
    ∃ c, Represents env.toEnv n'.bc c := by
  induction h with
  | refl => exact hn
  | tail _ hact ih =>
      obtain ⟨a, hleads⟩ := hact
      exact hleads.effect.represents ih

theorem Node.Started.represents {env : NodeEnv K} (h : n.Started env) :
    ∃ c, Represents env.toEnv n.bc c := by
  obtain ⟨fuel, hrun⟩ := h.bc
  have h₀ : Represents env.toEnv .init (genesisChain env.toEnv) := represents_genesis rfl
  exact ⟨_, h₀.confirms ((updateRound_confirms fuel).of_ok hrun)⟩

/-! ## The insertions of an act -/

/-- The calls of `insert` that an act makes. -/
def Act.insertions (env : LoopEnv K) (n : Node) : Act → List Insertion
  | .produce mock =>
      match returned (generateBlock env.toNodeEnv mock) n.bc with
      | some (some block) => if env.broadcastCreatedBlock then [⟨n.bc, block⟩] else []
      | _ => []
  | .handle (.blockBroadcast block _) =>
      if n.state = .listening ∧ admits env.toNodeEnv n block then [⟨n.bc, block⟩] else []
  | .handle (.resyncResponse (some block)) =>
      if n.state = .resyncing then
        mergeInsertions env.toEnv n.bc (block :: n.receivedResyncBlocks)
      else []
  | _ => []

/-- The blocks that an act stores, told from the state before it. -/
def Act.Takes (env : LoopEnv K) (n : Node) (b : Block) : Act → Prop
  | .produce mock => env.broadcastCreatedBlock = true ∧
      returned (generateBlock env.toNodeEnv mock) n.bc = some (some b) ∧
        ∃ c : Chain (rules env.toEnv), Represents env.toEnv n.bc c ∧ c.Accepts b
  | .handle (.blockBroadcast block _) => n.state = .listening ∧ admits env.toNodeEnv n block ∧
      b = block ∧ ∃ c : Chain (rules env.toEnv), Represents env.toEnv n.bc c ∧ c.Accepts b
  | .handle (.resyncResponse (some block)) => n.state = .resyncing ∧
      ∃ c : Chain (rules env.toEnv), Represents env.toEnv n.bc c ∧
        Adopts c (block :: n.receivedResyncBlocks) b
  | _ => False

theorem Act.takes_of_stored {a : Act} (hn : ∃ c, Represents env.toEnv n.bc c) {i : Insertion}
    (hi : i ∈ a.insertions env n) (hstored : i.Stored env.toEnv) : a.Takes env n i.block := by
  obtain ⟨c, hc⟩ := hn
  cases a with
  | produce mock =>
      rw [Act.insertions] at hi
      split at hi
      · next block hgenerated =>
        split at hi
        · next hcreated =>
          obtain rfl := List.mem_singleton.mp hi
          exact ⟨hcreated, hgenerated, c, hc, (returned_insert_iff hc block).mp hstored⟩
        · cases hi
      · cases hi
  | handle msg =>
      cases msg with
      | blockBroadcast block peerId =>
          rw [Act.insertions] at hi
          split at hi
          · next hhandled =>
            obtain rfl := List.mem_singleton.mp hi
            exact ⟨hhandled.1, hhandled.2, rfl, c, hc, (returned_insert_iff hc block).mp hstored⟩
          · cases hi
      | resyncResponse answer =>
          cases answer with
          | none => cases hi
          | some block =>
              rw [Act.insertions] at hi
              split at hi
              · next hresyncing => exact ⟨hresyncing, c, hc, adopts_of_stored hc hi hstored⟩
              · cases hi
      | _ => cases hi
  | _ => cases hi

theorem fate_of_confirms {env : Env K} {s s' : BlockChain} (l : List Insertion)
    (h : Confirms s s') : Fate env l s s' := by
  refine fate_of_subset ?_
  rw [confirms_map_static h]
  exact List.Subset.refl _

/-- What becomes of the rows in an act. -/
theorem Effect.fate {a : Act} (h : Effect env n a n')
    (hn : ∃ c, Represents env.toEnv n.bc c) :
    Fate env.toEnv (a.insertions env n) n.bc n'.bc := by
  obtain ⟨c, hc⟩ := hn
  have hrows {bc : BlockChain} (hbc : bc.localChains = n.bc.localChains) (l : List Insertion) :
      Fate env.toEnv l n.bc bc := by
    refine fate_of_subset ?_
    rw [hbc]
    exact List.Subset.refl _
  have hmerges {block : Block} {merged : Bool} {left : List Block} {s bc : BlockChain}
      (hresyncing : n.state = .resyncing)
      (hrun : merge env.toEnv (block :: n.receivedResyncBlocks) n.bc = .ok (merged, left) bc)
      (hs : s.localChains = bc.localChains) :
      Fate env.toEnv ((Act.handle (.resyncResponse (some block))).insertions env n) n.bc s := by
    rw [Act.insertions, if_pos hresyncing]
    intro r hr
    rw [hs]
    exact merge_fate hc hrun r hr
  cases h with
  | quiet h => exact hrows (congrArg _ h.bc) _
  | rounds fuel bc hrun => exact fate_of_confirms _ ((updateRound_confirms fuel).of_ok hrun)
  | produced block hcreated hgenerated stored hrun _ =>
      rw [Act.insertions, hgenerated]
      simp only [if_pos hcreated]
      exact insert_fate hc hrun
  | delivered hlistening hadmits stored hrun _ =>
      rw [Act.insertions, if_pos ⟨hlistening, hadmits⟩]
      exact insert_fate hc hrun
  | started _ hbc _ _ _ => exact hrows (congrArg _ hbc) _
  | noBlock _ _ hrest => exact hrows (congrArg _ (hrest.bc.trans (chooseMissed_frame _ _).1)) _
  | aborted _ _ hrest => exact hrows (by rw [hrest.bc]) _
  | merged hresyncing left bc hrun hrest => exact hmerges hresyncing hrun (by rw [hrest.bc])
  | unmerged hresyncing left bc hrun hrest => exact hmerges hresyncing hrun (by rw [hrest.bc])

end Cpos
