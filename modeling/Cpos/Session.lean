import Cpos.NodeRun

/-!
# A resync session

The blocks of one peer arrive tip first. Each goes to the front of the
node's `received_resync_blocks` and the list is merged; `merge` takes the
head off that list when it finds an ancestor and refuses the head, so the
next attempt is made without it.

`session` is the node's loop during such a session, from the request that
`startResync` sends (`startResync_asking`). What it does to the store does
not depend on the rest of the node (`session_ends`): `sessionOn` is the
same loop on the store alone.
-/

namespace Cpos

open Python ByteString LinkedChain BlockChain

variable {K : Type} [PyNum K] {env : NodeEnv K} {n n' : Node} {s : BlockChain}

/-! ## The loop -/

/-- The answer of a peer with this chain; the genesis block is not sent. -/
def peerAnswer (peer : List Block) (blockIndex : Int) : Option Block :=
  if peer.length > |blockIndex| then peer[(peer.length + blockIndex).toNat]? else none

/-- As long as the node is resyncing and the peer has a block for it, the
answer to its request is treated. `answer` is `none` where no answer
comes; `turns` bounds the number of answers. -/
def session (env : NodeEnv K) (answer : Int → Option (Option Block)) : Nat → NodeCall Unit
  | 0 => return ()
  | turns + 1 => do
      let n ← get
      if n.state = .resyncing then
        match n.requestIndex.bind answer with
        | none => return ()
        | some blockReceived =>
            handleResyncResponse env blockReceived
            if blockReceived.isSome then session env answer turns

/-- The session on the store: the blocks still to come, tip first, and
the list of those received. Returns whether a merge succeeded. -/
def sessionOn (env : Env K) : List Block → List Block → Call Bool
  | [], _ => return false
  | block :: blocks, received => do
      let (merged, received) ← merge env (block :: received)
      if merged then return true else sessionOn env blocks received

/-- The node has asked its peer for the blocks up to the `j`-th from the
tip. -/
structure Asking (n : Node) (j : Nat) (received : List Block) : Prop where
  state : n.state = .resyncing
  requestIndex : n.requestIndex = some (-(j + 1 : Int))
  received : n.receivedResyncBlocks = received
  missed : n.missed.isSome

/-- How the node's session ends, by the outcome on the store. -/
inductive SessionEnds (n : Node) :
    EStateM.Result PyErr BlockChain Bool → EStateM.Result PyErr Node Unit → Prop
  | adopted {bc : BlockChain} {n' : Node} (hrows : n'.bc.localChains = bc.localChains)
      (hstate : n'.state = .listening)
      (hcount : n'.successfullResyncs = n.successfullResyncs + 1) :
      SessionEnds n (.ok true bc) (.ok () n')
  | unsuccessful {bc : BlockChain} {n' : Node} (hrows : n'.bc.localChains = bc.localChains) :
      SessionEnds n (.ok false bc) (.ok () n')
  | raised {e : PyErr} {bc : BlockChain} {n' : Node}
      (hrows : n'.bc.localChains = bc.localChains) : SessionEnds n (.error e bc) (.error e n')

theorem SessionEnds.of_count {n n₁ : Node} {r : EStateM.Result PyErr BlockChain Bool}
    {r' : EStateM.Result PyErr Node Unit} (h : SessionEnds n₁ r r')
    (hcount : n₁.successfullResyncs = n.successfullResyncs) : SessionEnds n r r' := by
  cases h with
  | adopted hrows hstate hn => exact .adopted hrows hstate (by rw [hn, hcount])
  | unsuccessful hrows => exact .unsuccessful hrows
  | raised hrows => exact .raised hrows

theorem SessionEnds.rows {x : Call Bool} {y : NodeCall Unit} (h : SessionEnds n (x n.bc) (y n)) :
    (after y n).bc.localChains = (after x n.bc).localChains := by
  unfold after
  generalize x n.bc = r, y n = r' at h ⊢
  cases h with
  | adopted hrows _ _ => exact hrows
  | unsuccessful hrows => exact hrows
  | raised hrows => exact hrows

/-! ## How a session starts -/

theorem chooseMissed_of_ne_nil (hne : n.missedBlocks ≠ []) :
    (chooseMissed env n).requestIndex = some (-1) ∧ (chooseMissed env n).missed.isSome ∧
      (chooseMissed env n).missedBlocks.length + 1 = n.missedBlocks.length := by
  have hpos : 0 < n.missedBlocks.length := List.length_pos_iff.mpr hne
  have hlt := Nat.mod_lt (env.choose n.missedBlocks.length n.choices) hpos
  obtain ⟨missed, hmissed⟩ : ∃ missed, n.missedBlocks[
      env.choose n.missedBlocks.length n.choices % n.missedBlocks.length]? = some missed :=
    ⟨_, List.getElem?_eq_getElem hlt⟩
  have hchosen : chooseMissed env n = { n with
      missed := some missed
      missedBlocks := n.missedBlocks.erase missed
      choices := n.choices + 1
      requestIndex := some (-1) } := by
    unfold chooseMissed
    simp only [hmissed]
  rw [hchosen]
  refine ⟨rfl, rfl, ?_⟩
  rw [List.length_erase_of_mem (List.mem_of_getElem? hmissed)]
  omega

theorem chooseMissed_frame (env : NodeEnv K) (n : Node) :
    (chooseMissed env n).bc = n.bc ∧ (chooseMissed env n).state = n.state ∧
      (chooseMissed env n).receivedResyncBlocks = n.receivedResyncBlocks := by
  unfold chooseMissed
  simp only
  split
  · exact ⟨rfl, rfl, rfl⟩
  · exact ⟨rfl, rfl, rfl⟩

theorem sendRequest_of_missed {missed : Block × Bytes} (h : n.missed = some missed) :
    sendRequest env n = sendMessage env missed.2 n := by
  obtain ⟨block, peerId⟩ := missed
  rw [sendRequest, bind_ok (get_ok n), h]

theorem sendRequest_of_none (h : n.missed = none) :
    sendRequest env n = .error .unboundLocalError n := by
  rw [sendRequest, bind_ok (get_ok n), h]
  rfl

/-- A request changes the network at most. -/
theorem sendRequest_network {sent : Bool} (hrun : sendRequest env n = .ok sent n') :
    ∃ network, n' = { n with network } := by
  cases hmissed : n.missed with
  | none =>
      rw [sendRequest_of_none hmissed] at hrun
      cases hrun
  | some missed =>
      rw [sendRequest_of_missed hmissed] at hrun
      have hafter := after_ok hrun
      rw [sendMessage, onNetwork, after_focus] at hafter
      exact ⟨_, hafter.symm.trans (by rw [hmissed])⟩

/-- One turn of the search: a request that gets through ends it. -/
theorem findResyncPeer_succ_ok {found : Bool} {turns : Nat}
    (hrun : findResyncPeer env (turns + 1) n = .ok found n') :
    ∃ sent n₁, sendRequest env (chooseMissed env n) = .ok sent n₁ ∧
      if sent then found = true ∧ n' = n₁ else findResyncPeer env turns n₁ = .ok found n' := by
  have hrun' : (sendRequest env >>= fun sent =>
      if sent then pure true else findResyncPeer env turns : NodeCall Bool) (chooseMissed env n)
      = .ok found n' := hrun
  obtain ⟨sent, n₁, hsend, hrest⟩ := bind_eq_ok hrun'
  refine ⟨sent, n₁, hsend, ?_⟩
  cases sent with
  | true =>
      cases hrest
      exact ⟨rfl, rfl⟩
  | false => exact hrest

/-- A resync that is due starts if the search finds a peer. -/
theorem startResync_ok (hrun : startResync env n = .ok () n') :
    (¬(n.state = .listening ∧ n.bc.forkDetected ∧ n.missedBlocks ≠ []) ∧ n' = n) ∨
    (n.state = .listening ∧ n.bc.forkDetected ∧ n.missedBlocks ≠ []) ∧ ∃ found n₁,
      findResyncPeer env n.missedBlocks.length n = .ok found n₁ ∧
      n' = if found then { n₁ with state := .resyncing, resyncs := n₁.resyncs + 1 } else n₁ := by
  have hrun' : (if n.state = .listening ∧ n.bc.forkDetected ∧ n.missedBlocks ≠ [] then
      findResyncPeer env n.missedBlocks.length >>= fun found =>
        if found then modify fun n => { n with state := .resyncing, resyncs := n.resyncs + 1 }
        else pure ()
      else pure () : NodeCall Unit) n = .ok () n' := hrun
  by_cases hdue : n.state = .listening ∧ n.bc.forkDetected ∧ n.missedBlocks ≠ []
  swap
  · rw [if_neg hdue] at hrun'
    cases hrun'
    exact .inl ⟨hdue, rfl⟩
  rw [if_pos hdue] at hrun'
  obtain ⟨found, n₁, hfind, hrest⟩ := bind_eq_ok hrun'
  refine .inr ⟨hdue, found, n₁, hfind, ?_⟩
  cases found with
  | true =>
      cases hrest
      rfl
  | false =>
      cases hrest
      rfl

/-- The missed blocks do not run out before the turns. -/
theorem findResyncPeer_asks {found : Bool} : ∀ (turns : Nat) {n : Node},
    turns ≤ n.missedBlocks.length → findResyncPeer env turns n = .ok found n' →
      n'.state = n.state ∧ (found = true → n'.requestIndex = some (-1) ∧ n'.missed.isSome ∧
        n'.receivedResyncBlocks = n.receivedResyncBlocks ∧ n'.bc = n.bc) := by
  intro turns
  induction turns with
  | zero =>
      intro n _ hrun
      cases hrun
      exact ⟨rfl, by simp⟩
  | succ turns ih =>
      intro n hle hrun
      have hne : n.missedBlocks ≠ [] := by
        intro hnil
        rw [hnil] at hle
        simp at hle
      obtain ⟨hindex, hmissed, hlength⟩ := @chooseMissed_of_ne_nil _ _ env n hne
      obtain ⟨hbc, hstate, hreceived⟩ := chooseMissed_frame env n
      obtain ⟨sent, n₁, hsend, hrest⟩ := findResyncPeer_succ_ok hrun
      obtain ⟨network, rfl⟩ := sendRequest_network hsend
      cases sent with
      | true =>
          obtain ⟨rfl, rfl⟩ := hrest
          exact ⟨hstate, fun _ => ⟨hindex, hmissed, hreceived, hbc⟩⟩
      | false =>
          have hle' : turns ≤ (chooseMissed env n).missedBlocks.length := by omega
          obtain ⟨hstate', hfound⟩ := @ih { chooseMissed env n with network } hle' hrest
          refine ⟨hstate'.trans hstate, fun hf => ?_⟩
          obtain ⟨hindex', hmissed', hreceived', hbc'⟩ := hfound hf
          exact ⟨hindex', hmissed', hreceived'.trans hreceived, hbc'.trans hbc⟩

/-- The loop starts a session by asking for the tip. -/
theorem startResync_asking (hlistening : n.state = .listening)
    (hreceived : n.receivedResyncBlocks = []) (hrun : startResync env n = .ok () n')
    (hresyncing : n'.state = .resyncing) : Asking n' 0 [] ∧ n'.bc = n.bc := by
  rcases startResync_ok hrun with ⟨-, rfl⟩ | ⟨-, found, n₁, hfind, rfl⟩
  · rw [hlistening] at hresyncing
    cases hresyncing
  obtain ⟨hstate, hfound⟩ := findResyncPeer_asks _ (le_refl _) hfind
  cases found with
  | true =>
      obtain ⟨hindex, hmissed, hreceived', hbc⟩ := hfound rfl
      exact ⟨⟨rfl, hindex, hreceived'.trans hreceived, hmissed⟩, hbc⟩
  | false =>
      rw [if_neg Bool.false_ne_true, hstate, hlistening] at hresyncing
      cases hresyncing

/-! ## One answer -/

section Answer

variable (hdelivers : ∀ k, env.delivers k = true)
include hdelivers

/-- A request goes out whoever it is for. -/
theorem run_sendRequest (hmissed : n.missed.isSome) :
    ∃ sent network, sendRequest env n = .ok sent { n with network } := by
  obtain ⟨missed, hm⟩ := Option.isSome_iff_exists.mp hmissed
  rw [sendRequest_of_missed hm]
  by_cases hpeer : missed.2 ∈ n.network.knownPeers
  · exact ⟨_, _, onNetwork_ok (Network.run_send_delivered hpeer (hdelivers _))⟩
  · exact ⟨_, _, onNetwork_ok (Network.run_send_unknown hpeer)⟩

/-- Another missed block is chosen, or the resync ends. -/
theorem run_handleResyncResponse_none (hmissed : n.missed.isSome) :
    ∃ n', handleResyncResponse env none n = .ok () n' ∧
      n'.bc.localChains = n.bc.localChains := by
  let n₁ : Node := { n with receivedResyncBlocks := [] }
  show ∃ n', (if n₁.missedBlocks ≠ [] then _ else _ : NodeCall Unit) n₁ = _ ∧ _
  by_cases hblocks : n₁.missedBlocks ≠ []
  · rw [if_pos hblocks]
    have hchosen : (chooseMissed env n₁).missed.isSome := by
      unfold chooseMissed
      simp only
      split
      · exact hmissed
      · rfl
    have hbc : (chooseMissed env n₁).bc = n.bc := by
      unfold chooseMissed
      simp only
      split <;> rfl
    obtain ⟨sent, network, hrun⟩ := run_sendRequest hdelivers hchosen
    refine ⟨{ chooseMissed env n₁ with network }, ?_, congrArg BlockChain.localChains hbc⟩
    show (sendRequest env >>= fun _ => pure ()) (chooseMissed env n₁) = _
    rw [bind_ok hrun]
    rfl
  · rw [if_neg hblocks]
    exact ⟨_, rfl, rfl⟩

theorem run_requestOlder {j : Nat} {received : List Block} (h : Asking n j received) :
    ∃ n', requestOlder env n = .ok () n' ∧ n'.bc = n.bc ∧ Asking n' (j + 1) received ∧
      n'.successfullResyncs = n.successfullResyncs := by
  obtain ⟨hstate, hindex, hreceived, hmissed⟩ := h
  let n₁ : Node := { n with requestIndex := some (-((j : Int) + 1) - 1) }
  have hmissed₁ : n₁.missed.isSome := hmissed
  obtain ⟨sent, network, hsend⟩ := run_sendRequest hdelivers hmissed₁
  refine ⟨{ n₁ with network }, ?_, rfl, ⟨hstate, ?_, hreceived, hmissed⟩, rfl⟩
  · rw [requestOlder, bind_ok (get_ok n), hindex]
    show (sendRequest env >>= fun _ => pure ()) n₁ = _
    rw [bind_ok hsend]
    rfl
  · show some (-((j : Int) + 1) - 1) = _
    congr 1

/-- A block is put in front and the list is merged. -/
theorem run_handleResyncResponse_some {j : Nat} {received : List Block}
    (h : Asking n j received) (block : Block) :
    match merge env.toEnv (block :: received) n.bc with
    | .ok (true, _) bc => ∃ n', handleResyncResponse env (some block) n = .ok () n' ∧
        n'.bc.localChains = bc.localChains ∧ n'.state = .listening ∧
        n'.successfullResyncs = n.successfullResyncs + 1
    | .ok (false, left) bc => ∃ n', handleResyncResponse env (some block) n = .ok () n' ∧
        n'.bc = bc ∧ Asking n' (j + 1) left ∧ n'.successfullResyncs = n.successfullResyncs
    | .error e bc => ∃ n', handleResyncResponse env (some block) n = .error e n' ∧
        n'.bc = bc := by
  obtain ⟨hstate, hindex, rfl, hmissed⟩ := h
  let n₁ : Node := { n with receivedResyncBlocks := block :: n.receivedResyncBlocks }
  have hhandle : handleResyncResponse env (some block) n
      = (mergeReceived env >>= fun merged =>
          if merged then completeResync else requestOlder env : NodeCall Unit) n₁ := rfl
  have hreceived : mergeReceived env n₁
      = (onChain (merge env.toEnv n₁.receivedResyncBlocks) >>= fun r => do
          modify fun n => { n with receivedResyncBlocks := r.2 }
          return r.1 : NodeCall Bool) n₁ := rfl
  rw [hhandle]
  cases hmerge : merge env.toEnv (block :: n.receivedResyncBlocks) n.bc with
  | error e bc =>
      have hrun : mergeReceived env n₁ = .error e { n₁ with bc } := by
        rw [hreceived]
        exact bind_error (onChain_error hmerge)
      exact ⟨{ n₁ with bc }, bind_error hrun, rfl⟩
  | ok r bc =>
      obtain ⟨merged, left⟩ := r
      let n₂ : Node := { n₁ with bc, receivedResyncBlocks := left }
      have hrun : mergeReceived env n₁ = .ok merged n₂ := by
        have hchain : onChain (merge env.toEnv n₁.receivedResyncBlocks) n₁
            = .ok (merged, left) { n₁ with bc } := onChain_ok hmerge
        rw [hreceived, bind_ok hchain]
        rfl
      rw [bind_ok hrun]
      cases merged with
      | true => exact ⟨_, rfl, rfl, rfl, rfl⟩
      | false =>
          have hasking : Asking n₂ j left := ⟨hstate, hindex, rfl, hmissed⟩
          exact run_requestOlder hdelivers hasking

/-! ## The whole session -/

omit hdelivers in
theorem peerAnswer_eq (peer : List Block) (j : Nat) :
    peerAnswer peer (-(j + 1 : Int)) = peer.tail.reverse[j]? := by
  have habs : |-(j + 1 : Int)| = j + 1 := by rw [abs_neg, abs_of_nonneg (by omega)]
  rw [peerAnswer, habs]
  split
  · next hlt =>
    have hj : j < peer.tail.length := by
      rw [List.length_tail]
      omega
    rw [List.getElem?_reverse hj, List.getElem?_tail, List.length_tail]
    congr 1
    rw [List.length_tail] at hj
    omega
  · next hge =>
    rw [List.getElem?_eq_none]
    rw [List.length_reverse, List.length_tail]
    omega

omit hdelivers in
theorem session_of_listening (answer : Int → Option (Option Block)) (turns : Nat)
    (h : n.state = .listening) : session env answer turns n = .ok () n := by
  cases turns with
  | zero => rfl
  | succ turns =>
      show (if n.state = .resyncing then _ else _ : NodeCall Unit) n = _
      rw [if_neg (by rw [h]; simp)]
      rfl

omit hdelivers in
theorem session_of_asking {answer : Int → Option (Option Block)} {j : Nat}
    {received : List Block} {blockReceived : Option Block} (h : Asking n j received)
    (hanswer : answer (-(j + 1 : Int)) = some blockReceived) (turns : Nat) :
    session env answer (turns + 1) n = (handleResyncResponse env blockReceived >>= fun _ =>
      if blockReceived.isSome then session env answer turns else pure ()) n := by
  show (if n.state = .resyncing then _ else _ : NodeCall Unit) n = _
  rw [if_pos h.state, h.requestIndex, Option.bind_some, hanswer]

omit hdelivers in
/-- What comes for the request is the first of the blocks that are left. -/
theorem answer_asked {peer blocks : List Block} {answer : Int → Option (Option Block)} {j : Nat}
    (hanswer : ∀ i < 0, answer i = some (peerAnswer peer i))
    (hblocks : blocks = peer.tail.reverse.drop j) :
    answer (-(j + 1 : Int)) = some blocks.head? := by
  rw [hanswer _ (by omega), peerAnswer_eq, hblocks, List.head?_drop]

/-- The session of a node and the one on the store, from the moment the
node has asked for the first of `blocks`. -/
theorem session_ends {peer : List Block} {answer : Int → Option (Option Block)}
    (hanswer : ∀ i < 0, answer i = some (peerAnswer peer i)) :
    ∀ (blocks : List Block) {turns j : Nat} {n : Node} {received : List Block},
      Asking n j received → blocks = peer.tail.reverse.drop j → blocks.length ≤ turns →
        SessionEnds n (sessionOn env.toEnv blocks received n.bc) (session env answer turns n) := by
  intro blocks
  induction blocks with
  | nil =>
      intro turns j n received h hblocks hturns
      rw [sessionOn]
      cases turns with
      | zero => exact .unsuccessful rfl
      | succ turns =>
          obtain ⟨n', hrun, hrows⟩ := run_handleResyncResponse_none hdelivers h.missed
          rw [session_of_asking h (answer_asked hanswer hblocks), List.head?_nil, bind_ok hrun]
          exact .unsuccessful hrows
  | cons block blocks ih =>
      intro turns j n received h hblocks hturns
      obtain ⟨turns, rfl⟩ : ∃ m, turns = m + 1 := ⟨turns - 1, by
        rw [List.length_cons] at hturns; omega⟩
      have hrest : blocks = peer.tail.reverse.drop (j + 1) := by
        rw [← List.drop_drop, ← hblocks]
        rfl
      have hstep := run_handleResyncResponse_some hdelivers h block
      rw [session_of_asking h (answer_asked hanswer hblocks), List.head?_cons, sessionOn]
      cases hmerge : merge env.toEnv (block :: received) n.bc with
      | error e bc =>
          rw [hmerge] at hstep
          obtain ⟨n', hrun, hrows⟩ := hstep
          rw [bind_error hmerge, bind_error hrun]
          exact .raised (congrArg _ hrows)
      | ok r bc =>
          obtain ⟨merged, left⟩ := r
          rw [hmerge] at hstep
          rw [bind_ok hmerge]
          cases merged with
          | true =>
              obtain ⟨n', hrun, hrows, hstate, hcount⟩ := hstep
              rw [bind_ok hrun]
              show SessionEnds n _ (session env answer turns n')
              rw [session_of_listening answer turns hstate]
              exact .adopted hrows hstate hcount
          | false =>
              obtain ⟨n', hrun, rfl, hasking, hcount⟩ := hstep
              rw [bind_ok hrun]
              exact (ih hasking hrest (by rw [List.length_cons] at hturns; omega)).of_count hcount

end Answer

/-! ## A node that resyncs -/

/-- The node while it resyncs, with the chain `bc`. -/
def resyncingNode (bc : BlockChain) : Node :=
  { sampleNode with
    bc
    state := .resyncing
    missed := some (b2, bob)
    requestIndex := some (-1) }

end Cpos
