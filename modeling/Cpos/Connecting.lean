import Cpos.Broadcasts
import Cpos.Waiting

/-!
# Calls and the table of peers

What sending does to the table of peers, every call does that sends: a
relation between tables that `send` respects is respected by each act that
neither reads nor looks after the number of peers (`Act.Leads.network`).

A table is consistent if each known peer has a count. Sending over a
consistent table returns and leaves one (`Connects`), and a node that
`_init_network` has connected has one at all times (`Acts.consistent`).
-/

namespace Cpos

open Python ByteString LinkedChain BlockChain

variable {K : Type} [PyNum K]

/-! ## Relations between networks -/

/-- The networks of the two nodes are so related. -/
def OnNetwork (R : Network → Network → Prop) (n n' : Node) : Prop := R n.network n'.network

/-- The peers a node knows when it looks after their number. -/
def peersNamed (env : LoopEnv K) (n : Node) (additionalPeers : Option (List Bytes)) : Network :=
  if n.network.knownPeers.length < env.minimumNumPeers then
    n.network.connectAll env.id (additionalPeers.getD [])
  else n.network

section Frame

variable {R : Network → Network → Prop} {env : NodeEnv K}

instance [Std.Refl R] : Std.Refl (OnNetwork R) where
  refl n := refl_of R n.network

instance [IsTrans Network R] : IsTrans Node (OnNetwork R) where
  trans _ _ _ h h' := trans_of R h h'

theorem keeps_modify_onNetwork [Std.Refl R] {f : Node → Node}
    (hf : ∀ n, (f n).network = n.network) :
    Keeps (OnNetwork R) (modify f : NodeCall Unit) := fun n => by
  show R n.network (f n).network
  rw [hf]
  exact refl_of R _

theorem onChain_onNetwork [Std.Refl R] {α : Type} (x : Call α) :
    Keeps (OnNetwork R) (onChain x) := fun n => by
  rw [onChain, after_focus]
  exact refl_of R n.network

theorem onNetwork_onNetwork {α : Type} {x : Network.Call α} (hx : Keeps R x) :
    Keeps (OnNetwork R) (onNetwork x) := fun n => by
  rw [onNetwork, after_focus]
  exact hx n.network

theorem sendMessage_onNetwork (hsend : ∀ peerId, Keeps R (Network.send env.delivers peerId))
    (peerId : Bytes) : Keeps (OnNetwork R) (sendMessage env peerId) :=
  onNetwork_onNetwork (hsend peerId)

section Sending

variable [Std.Refl R] [IsTrans Network R]
  (hsend : ∀ peerId, Keeps R (Network.send env.delivers peerId))

include hsend

theorem broadcastFrom_onNetwork (invalidPeers : List Bytes) :
    ∀ turns i, Keeps (OnNetwork R) (broadcastFrom env invalidPeers turns i)
  | 0, _ => keeps_pure _
  | turns + 1, i => by
      rw [broadcastFrom]
      refine keeps_bind keeps_get fun n => ?_
      split
      · exact keeps_pure _
      · split
        · exact keeps_bind (keeps_modify_onNetwork fun _ => rfl) fun _ =>
            keeps_bind (sendMessage_onNetwork hsend _) fun _ => broadcastFrom_onNetwork _ turns _
        · exact broadcastFrom_onNetwork _ turns _

theorem broadcastMessage_onNetwork (invalidPeers : List Bytes) :
    Keeps (OnNetwork R) (broadcastMessage env invalidPeers) :=
  keeps_bind keeps_get fun _ => broadcastFrom_onNetwork hsend _ _ _

theorem produceBlock_onNetwork (mock : Int → TransactionList) :
    Keeps (OnNetwork R) (produceBlock env mock) := by
  refine keeps_bind (onChain_onNetwork _) fun r => ?_
  cases r with
  | none => exact keeps_pure _
  | some newBlock =>
      show Keeps (OnNetwork R) (if env.broadcastCreatedBlock then _ else pure () : NodeCall Unit)
      split
      · exact keeps_bind (keeps_modify_onNetwork fun _ => rfl) fun _ =>
          keeps_bind (onChain_onNetwork _) fun _ => broadcastMessage_onNetwork hsend []
      · exact keeps_pure _

theorem handleNewBlock_onNetwork (block : Block) (peerId : Bytes) :
    Keeps (OnNetwork R) (handleNewBlock env block peerId) := by
  have hdiscard : Keeps (OnNetwork R) discard :=
    keeps_bind (keeps_modify_onNetwork fun _ => rfl) fun _ => keeps_pure _
  have hforward : Keeps (OnNetwork R) (forwardBlock env block peerId) := by
    unfold forwardBlock
    split
    · exact broadcastMessage_onNetwork hsend _
    · exact keeps_pure _
  have hinsert : Keeps (OnNetwork R) (insertNewBlock env block peerId) := by
    refine keeps_bind hforward fun _ => keeps_bind (onChain_onNetwork _) fun stored => ?_
    cases stored with
    | true => exact keeps_bind (keeps_modify_onNetwork fun _ => rfl) fun _ => keeps_pure _
    | false =>
        exact keeps_bind (keeps_modify_onNetwork fun _ => rfl) fun _ =>
          keeps_bind hdiscard fun _ => keeps_pure _
  intro n
  rw [after, run_handleNewBlock]
  by_cases hadmits : admits env n block = true
  · rw [if_pos hadmits]
    exact hinsert n
  · rw [if_neg hadmits]
    exact hdiscard n

theorem sendRequest_onNetwork : Keeps (OnNetwork R) (sendRequest env) := by
  refine keeps_bind keeps_get fun n => ?_
  split
  · exact keeps_throw _
  · exact sendMessage_onNetwork hsend _

theorem findResyncPeer_onNetwork : ∀ turns, Keeps (OnNetwork R) (findResyncPeer env turns)
  | 0 => keeps_pure _
  | turns + 1 => by
      refine keeps_bind (keeps_modify_onNetwork (chooseMissed_network env)) fun _ =>
        keeps_bind (sendRequest_onNetwork hsend) fun sent => ?_
      split
      · exact keeps_pure _
      · exact findResyncPeer_onNetwork turns

theorem startResync_onNetwork : Keeps (OnNetwork R) (startResync env) := by
  refine keeps_bind keeps_get fun n => ?_
  split
  · refine keeps_bind (findResyncPeer_onNetwork hsend _) fun found => ?_
    split
    · exact keeps_modify_onNetwork fun _ => rfl
    · exact keeps_pure _
  · exact keeps_pure _

theorem handleResyncResponse_onNetwork (answer : Option Block) :
    Keeps (OnNetwork R) (handleResyncResponse env answer) := by
  have hend : Keeps (OnNetwork R) endResync := keeps_modify_onNetwork fun _ => rfl
  cases answer with
  | none =>
      refine keeps_bind (keeps_modify_onNetwork fun _ => rfl) fun _ =>
        keeps_bind keeps_get fun n => ?_
      split
      · exact keeps_bind (keeps_modify_onNetwork (chooseMissed_network env)) fun _ =>
          keeps_bind (sendRequest_onNetwork hsend) fun _ => keeps_pure _
      · exact hend
  | some block =>
      have hmerge : Keeps (OnNetwork R) (mergeReceived env) :=
        keeps_bind keeps_get fun _ => keeps_bind (onChain_onNetwork _) fun _ =>
          keeps_bind (keeps_modify_onNetwork fun _ => rfl) fun _ => keeps_pure _
      refine keeps_bind (keeps_modify_onNetwork fun _ => rfl) fun _ =>
        keeps_bind hmerge fun merged => ?_
      split
      · exact keeps_bind hend fun _ => keeps_modify_onNetwork fun _ => rfl
      · refine keeps_bind keeps_get fun n => ?_
        split
        · exact keeps_throw _
        · exact keeps_bind (keeps_modify_onNetwork fun _ => rfl) fun _ =>
            keeps_bind (sendRequest_onNetwork hsend) fun _ => keeps_pure _

end Sending

/-- What sending does to the network, the acts do that neither read nor
look after the number of peers. -/
theorem Act.Leads.network [Std.Refl R] [IsTrans Network R] {env : LoopEnv K} {a : Act} {n n' : Node}
    (hsend : ∀ peerId, Keeps R (Network.send env.delivers peerId)) (h : a.Leads env n n')
    (hread : ∀ sender, a ≠ .read sender)
    (hcontrol : ∀ additionalPeers pick, a ≠ .controlPeers additionalPeers pick)
    (hforget : ∀ peerId, a = .handle (.peerForgetRequest peerId) →
      R n.network (n.network.forgetPeer peerId)) : R n.network n'.network := by
  have hkeeps {x : NodeCall Unit} (hx : Keeps (OnNetwork R) x) (h : x n = .ok () n') :
      R n.network n'.network := hx.of_ok h
  cases a with
  | startResync => exact hkeeps (startResync_onNetwork hsend) h
  | updateRound fuel => exact hkeeps (onChain_onNetwork _) h
  | produce mock => exact hkeeps (produceBlock_onNetwork hsend mock) h
  | read sender => exact absurd rfl (hread sender)
  | controlPeers additionalPeers pick => exact absurd rfl (hcontrol additionalPeers pick)
  | handle msg =>
      have hrun : handleMessage env.toNodeEnv msg n = .ok () n' := h
      by_cases hmsg : ∃ peerId, msg = .peerForgetRequest peerId
      · obtain ⟨peerId, rfl⟩ := hmsg
        rw [handleMessage, bind_ok (get_ok n)] at hrun
        cases hstate : n.state with
        | listening =>
            rw [hstate] at hrun
            cases hrun
            exact hforget peerId rfl
        | resyncing =>
            rw [hstate] at hrun
            cases hrun
            exact refl_of R _
      · have hkept : Keeps (OnNetwork R) (handleMessage env.toNodeEnv msg) := by
          unfold handleMessage
          refine keeps_bind keeps_get fun n => ?_
          split
          · exact keeps_bind (handleNewBlock_onNetwork hsend _ _) fun _ => keeps_pure _
          · exact absurd ⟨_, rfl⟩ hmsg
          · exact handleResyncResponse_onNetwork hsend _
          · exact keeps_bind (onChain_onNetwork _) fun _ =>
              keeps_bind (sendMessage_onNetwork hsend _) fun _ => keeps_pure _
          · exact keeps_pure _
        exact hkeeps hkept hrun

/-! ### The number of peers -/

section Control

variable [Std.Refl R] [IsTrans Network R] {env : LoopEnv K} {n n' : Node}
  (hsend : ∀ peerId, Keeps R (Network.send env.delivers peerId))
  (hforget : ∀ peerId network, R network (Network.forgetPeer peerId network))

include hsend hforget

theorem forgetSurplus_onNetwork (pick : Nat → Nat) :
    ∀ turns, Keeps (OnNetwork R) (forgetSurplus env pick turns)
  | 0 => keeps_pure _
  | turns + 1 => by
      refine keeps_bind keeps_get fun n => ?_
      simp only
      split
      · split
        · exact keeps_throw _
        · exact keeps_bind (sendMessage_onNetwork hsend _) fun _ =>
            keeps_bind (onNetwork_onNetwork (hforget _)) fun _ => forgetSurplus_onNetwork pick turns
      · exact keeps_pure _

theorem controlNumberOfPeers_onNetwork {additionalPeers : Option (List Bytes)} {pick : Nat → Nat}
    (h : controlNumberOfPeers env additionalPeers pick n = .ok () n') :
    R (peersNamed env n additionalPeers) n'.network := by
  have h' : (if n.network.knownPeers.length < env.minimumNumPeers then _ else _ : NodeCall Unit) n
      = .ok () n' := h
  unfold peersNamed
  by_cases hfew : n.network.knownPeers.length < env.minimumNumPeers
  · rw [if_pos hfew] at h' ⊢
    obtain ⟨_, n₁, hconnect, h₁⟩ := bind_eq_ok h'
    obtain ⟨network, hnetwork, rfl⟩ := focus_eq_ok hconnect
    cases hnetwork
    exact (forgetSurplus_onNetwork hsend hforget pick _).of_ok h₁
  · rw [if_neg hfew] at h' ⊢
    exact (forgetSurplus_onNetwork hsend hforget pick _).of_ok h'

end Control

end Frame

/-! ## Calls that use the network -/

/-- The call returns, and leaves a consistent table of peers. -/
def Connects {α : Type} (x : NodeCall α) (n : Node) : Prop :=
  Returns x n fun _ n' => n'.network.Consistent

section Network

variable {K : Type} [PyNum K] {env : NodeEnv K} {n : Node} {α : Type}

theorem onChain_connects {x : Call α} (hx : Returns x n.bc fun _ _ => True)
    (h : n.network.Consistent) : Connects (onChain x) n :=
  hx.focus fun _ _ _ => h

theorem sendMessage_connects (h : n.network.Consistent) (peerId : Bytes) :
    Connects (sendMessage env peerId) n := by
  obtain ⟨sent, network', hrun, hsent⟩ := h.run_send env.delivers peerId
  exact ⟨sent, _, onNetwork_ok hrun, h.sent hsent⟩

theorem broadcastTo_connects (h : n.network.Consistent) (peer : Bytes) :
    Connects (broadcastTo env peer) n :=
  (returns_modify (Q := fun _ n' => n'.network.Consistent) h).bind fun _ _ h₁ =>
    (sendMessage_connects h₁ peer).bind fun _ _ h₂ => returns_pure h₂

theorem broadcastFrom_connects (invalidPeers : List Bytes) (turns : Nat) :
    ∀ (i : Nat) {n : Node}, n.network.Consistent →
      Connects (broadcastFrom env invalidPeers turns i) n := by
  induction turns with
  | zero => exact fun _ _ h => returns_pure h
  | succ turns ih =>
      intro i n h
      cases hi : n.network.knownPeers[i]? with
      | none => exact ⟨(), n, broadcastFrom_end hi, h⟩
      | some peer =>
          unfold Connects Returns
          rw [broadcastFrom_peer hi]
          split
          · exact (broadcastTo_connects h peer).bind fun _ _ h₁ => ih (i + 1) h₁
          · exact ih (i + 1) h

theorem broadcastMessage_connects (h : n.network.Consistent) (invalidPeers : List Bytes) :
    Connects (broadcastMessage env invalidPeers) n :=
  .of_get (broadcastFrom_connects invalidPeers _ 0 h)

theorem forwardBlock_connects (env : NodeEnv K) (h : n.network.Consistent) (block : Block)
    (peerId : Bytes) : Connects (forwardBlock env block peerId) n := by
  unfold forwardBlock
  exact returns_ite (fun _ => broadcastMessage_connects h _) fun _ => returns_pure h

theorem sendRequest_connects (env : NodeEnv K) (h : n.network.Consistent)
    (hmissed : n.missed.isSome) : Connects (sendRequest env) n := by
  obtain ⟨missed, hmissed⟩ := Option.isSome_iff_exists.mp hmissed
  unfold Connects Returns
  rw [sendRequest_of_missed hmissed]
  exact sendMessage_connects h missed.2

/-- A delivery returns where `insert` does. -/
theorem insertNewBlock_connects (h : n.network.Consistent) {block : Block}
    (hinsert : Returns (insert env.toEnv block) n.bc fun _ _ => True) (peerId : Bytes) :
    Connects (insertNewBlock env block peerId) n := by
  obtain ⟨_, n₁, hforward, h₁⟩ := forwardBlock_connects env h block peerId
  obtain ⟨hbc, -⟩ := (forwardBlock_sameStore block peerId).of_ok hforward
  obtain ⟨stored, bc, hinsert, -⟩ := hinsert
  unfold Connects Returns
  rw [run_insertNewBlock hforward, hbc, hinsert]
  cases stored with
  | true => exact ⟨true, _, rfl, h₁⟩
  | false => exact ⟨false, _, rfl, h₁⟩

theorem handleNewBlock_connects (h : n.network.Consistent) {block : Block}
    (hinsert : Returns (insert env.toEnv block) n.bc fun _ _ => True) (peerId : Bytes) :
    Connects (handleNewBlock env block peerId) n := by
  unfold Connects Returns
  rw [run_handleNewBlock]
  split
  · exact insertNewBlock_connects h hinsert peerId
  · exact ⟨false, _, rfl, h⟩

end Network

/-! ## Runs of acts -/

/-- The table stays consistent, if it was. -/
def StaysConsistent (network network' : Network) : Prop := network.Consistent → network'.Consistent

instance : Std.Refl StaysConsistent where
  refl _ := id

instance : IsTrans Network StaysConsistent where
  trans _ _ _ h h' := h' ∘ h

theorem send_staysConsistent (delivers : Nat → Bool) (peerId : Bytes) :
    Keeps StaysConsistent (Network.send delivers peerId) := fun network h => by
  obtain ⟨sent, network', hrun, hsent⟩ := h.run_send delivers peerId
  rw [after_ok hrun]
  exact h.sent hsent

theorem Act.Leads.staysConsistent {env : LoopEnv K} {a : Act} {n n' : Node} (h : a.Leads env n n') :
    StaysConsistent n.network n'.network := by
  by_cases hcontrol : ∃ additionalPeers pick, a = .controlPeers additionalPeers pick
  · obtain ⟨additionalPeers, pick, rfl⟩ := hcontrol
    intro hn
    refine controlNumberOfPeers_onNetwork (R := StaysConsistent) (send_staysConsistent env.delivers)
      (fun peerId _ h => h.forgetPeer peerId) h ?_
    unfold peersNamed
    split
    · exact hn.connectAll _ env.id
    · exact hn
  by_cases hreads : ∃ sender, a = .read sender
  · obtain ⟨sender, rfl⟩ := hreads
    have hcall : onNetwork (modify (Network.read sender)) n = .ok () n' := h
    obtain ⟨network, hnetwork, rfl⟩ := focus_eq_ok hcall
    cases hnetwork
    exact fun hn => hn.read sender
  · exact h.network (R := StaysConsistent) (send_staysConsistent env.delivers)
      (fun sender ha => hreads ⟨sender, ha⟩)
      (fun additionalPeers pick ha => hcontrol ⟨additionalPeers, pick, ha⟩)
      fun peerId _ hn => hn.forgetPeer peerId

theorem Acts.consistent {env : LoopEnv K} {n n' : Node} (h : Acts env n n')
    (hn : n.network.Consistent) : n'.network.Consistent := by
  induction h with
  | refl => exact hn
  | tail _ hact ih =>
      obtain ⟨a, hleads⟩ := hact
      exact hleads.staysConsistent ih

theorem startLoop_connected (env : LoopEnv ℚ) (h : bob ≠ env.id) :
    (startLoop env).node.Connected env.id := by
  refine ⟨some [bob], List.nodup_singleton bob, ?_⟩
  show (startLoop env).node.network
    = if bob = env.id then Network.init else Network.init.connect bob
  rw [if_neg h]
  simp only [startLoop, Network.connect, Network.setFailedMsgCount, Network.init,
    Network.mk.injEq, List.nil_append, true_and, and_true]
  funext peerId
  rw [Function.update_apply]

end Cpos
