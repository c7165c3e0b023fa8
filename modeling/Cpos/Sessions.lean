import Cpos.Outstanding

/-!
# Resync sessions between nodes

What a resyncing node has gathered comes from one peer, the one that it
asks: the peer has answered the requests -1, -2, … of this session so far,
and the received blocks are among its answers, in their order
(`gathered`). The list can have gaps, for `merge` drops its head when the
head does not win.

The answer to the last request is all that takes a session further. Once
neither it nor the request is under way, the node resyncs for ever, and
never again stores a block that is not its own (`stranded`).
-/

namespace Cpos

open Python ByteString LinkedChain BlockChain Actors

variable {ι K : Type} [PyNum K]

theorem returned_merge_sublist {env : Env K} {s s' : BlockChain} {c : Chain (rules env)}
    (h : Represents env s c) {first : Block} {rest left : List Block} {merged : Bool}
    (hrun : merge env (first :: rest) s = .ok (merged, left) s') :
    left.Sublist (first :: rest) := by
  have hspec := merge_spec h (allPrintable_of_returned (returned_ok hrun))
  rw [hrun] at hspec
  cases hspec with
  | noAncestor _ => exact List.Sublist.refl _
  | rejected _ _ _ _ => exact List.sublist_cons_self ..
  | sameRound _ _ _ _ _ _ => exact List.sublist_cons_self ..
  | adopted _ _ _ _ _ _ _ _ => exact List.sublist_cons_self ..

theorem Node.Asks.unique {n : Node} {peerId peerId' : Bytes} {requestIndex requestIndex' : Int}
    (h : n.Asks peerId requestIndex) (h' : n.Asks peerId' requestIndex') :
    peerId = peerId' ∧ requestIndex = requestIndex' := by
  obtain ⟨block, hmissed⟩ := h.missed
  obtain ⟨block', hmissed'⟩ := h'.missed
  have hpair := Option.some.inj (hmissed.symm.trans hmissed')
  exact ⟨congrArg Prod.snd hpair, Option.some.inj (h.requestIndex.symm.trans h'.requestIndex)⟩

/-! ## The answers of a session -/

/-- The node has nothing from an earlier session. If it resyncs, it has
asked one peer and has had `answers` to its requests, the newest first;
`G` says of a peer, an index and a block that this was the answer. -/
structure Node.InSession (G : Bytes → Int → Block → Prop) (n : Node) : Prop where
  idle : n.state = .listening → n.receivedResyncBlocks = []
  session : n.state = .resyncing → ∃ peerId answers, n.Asks peerId (-(answers.length + 1 : Nat)) ∧
    n.receivedResyncBlocks.Sublist answers ∧
    ∀ (m : Nat) b, answers.reverse[m]? = some b → G peerId (-(m + 1 : Nat)) b

section Acts

variable {env : LoopEnv K} {n n' : Node} {a : Act} {G : Bytes → Int → Block → Prop}

theorem Node.InSession.same (hn : n.InSession G) (hsame : SameAsk n n')
    (hreceived : n'.receivedResyncBlocks = n.receivedResyncBlocks) : n'.InSession G := by
  refine ⟨fun hlistening => ?_, fun hresyncing => ?_⟩
  · rw [hreceived]
    exact hn.idle (hsame.state ▸ hlistening)
  · obtain ⟨peerId, answers, hasks, hsub, hgiven⟩ := hn.session (hsame.state ▸ hresyncing)
    exact ⟨peerId, answers, hasks.same hsame, hreceived ▸ hsub, hgiven⟩

theorem Node.InSession.mono {G' : Bytes → Int → Block → Prop}
    (hG : ∀ {peerId requestIndex b}, G peerId requestIndex b → G' peerId requestIndex b)
    (hn : n.InSession G) : n.InSession G' := by
  refine ⟨hn.idle, fun hresyncing => ?_⟩
  obtain ⟨peerId, answers, hasks, hsub, hgiven⟩ := hn.session hresyncing
  exact ⟨peerId, answers, hasks, hsub, fun m b hb => hG (hgiven m b hb)⟩

/-- The session with a peer begins. -/
theorem Node.InSession.of_begun (hmissed : n.missed.isSome) (hindex : n.requestIndex = some (-1))
    (hreceived : n.receivedResyncBlocks = []) : n.InSession G := by
  obtain ⟨⟨block, peerId⟩, hpeer⟩ := Option.isSome_iff_exists.mp hmissed
  refine ⟨fun _ => hreceived, fun hresyncing => ?_⟩
  refine ⟨peerId, [], ⟨hresyncing, ⟨block, hpeer⟩, hindex⟩, ?_, by simp⟩
  rw [hreceived]

/-- The node listens, and has put away what it received. -/
theorem Node.InSession.of_ended (hlistening : n.state = .listening)
    (hreceived : n.receivedResyncBlocks = []) : n.InSession G := by
  refine ⟨fun _ => hreceived, fun hresyncing => ?_⟩
  rw [hlistening] at hresyncing
  cases hresyncing

theorem startResync_inSession (h : startResync env.toNodeEnv n = .ok () n')
    (hn : n.InSession G) : n'.InSession G := by
  rcases startResync_ok h with ⟨-, rfl⟩ | ⟨hdue, found, n₁, hfind, rfl⟩
  · exact hn
  obtain ⟨hstate, hfound⟩ := findResyncPeer_asks _ (le_refl _) hfind
  have hreceived : n₁.receivedResyncBlocks = [] :=
    (findResyncPeer_frame _ hfind).2.2.trans (hn.idle hdue.1)
  cases found with
  | true =>
      obtain ⟨hindex, hmissed, -⟩ := hfound rfl
      exact .of_begun hmissed hindex hreceived
  | false => exact .of_ended (hstate.trans hdue.1) hreceived

/-- A response that is treated. The peer has given the block for the
index that the node asked for. -/
theorem handleResyncResponse_inSession {answer : Option Block}
    (hc : ∃ c, Represents env.toEnv n.bc c) (hresyncing : n.state = .resyncing)
    (h : handleResyncResponse env.toNodeEnv answer n = .ok () n')
    (hgiven : ∀ b peerId requestIndex, answer = some b → n.Asks peerId requestIndex →
      G peerId requestIndex b)
    (hn : n.InSession G) : n'.InSession G := by
  cases answer with
  | none =>
      rcases response_none_ok h with ⟨hmissed, sent, hsend⟩ | ⟨-, rfl⟩
      · obtain ⟨network, rfl⟩ := sendRequest_network hsend
        let emptied : Node := { n with receivedResyncBlocks := [] }
        obtain ⟨-, -, hreceived⟩ := chooseMissed_frame env.toNodeEnv emptied
        obtain ⟨hindex, hchosen, -⟩ := @chooseMissed_of_ne_nil _ _ env.toNodeEnv emptied hmissed
        exact .of_begun hchosen hindex hreceived
      · exact .of_ended rfl rfl
  | some block =>
      obtain ⟨merged, n₁, hmerge, hrest⟩ := response_some_ok h
      obtain ⟨left, bc, hrun, rfl⟩ := mergeReceived_ok hmerge
      cases merged with
      | true =>
          obtain rfl : n' = _ := hrest
          exact .of_ended rfl rfl
      | false =>
          obtain ⟨sent, hsend⟩ := hrest
          obtain ⟨network, rfl⟩ := sendRequest_network hsend
          obtain ⟨peerId, answers, hasks, hsub, hanswers⟩ := hn.session hresyncing
          obtain ⟨c, hc⟩ := hc
          have hleft : left.Sublist (block :: answers) :=
            (returned_merge_sublist hc hrun).trans (hsub.cons_cons block)
          refine ⟨fun hlistening => ?_, fun _ => ⟨peerId, block :: answers,
            ⟨hresyncing, hasks.missed, ?_⟩, hleft, fun m b hb => ?_⟩⟩
          · have hstate : n.state = .listening := hlistening
            rw [hresyncing] at hstate
            cases hstate
          · show n.requestIndex.map _ = _
            rw [hasks.requestIndex, Option.map_some, List.length_cons]
            congr 1
          · -- the newest answer is the last of the reversed list
            rw [List.reverse_cons] at hb
            rcases Nat.lt_or_ge m answers.reverse.length with hlt | hge
            · rw [List.getElem?_append_left hlt] at hb
              exact hanswers m b hb
            · rw [List.getElem?_append_right hge, List.getElem?_singleton] at hb
              split at hb
              · next hzero =>
                obtain rfl := Option.some.inj hb
                have hm : m = answers.length := by
                  rw [List.length_reverse] at hge hzero
                  omega
                rw [hm]
                exact hgiven block peerId _ rfl hasks
              · cases hb

/-- **One session at a time**: what an act does to the blocks received. -/
theorem Act.Leads.inSession (h : a.Leads env n n') (hc : ∃ c, Represents env.toEnv n.bc c)
    (hgiven : ∀ b peerId requestIndex, a = .handle (.resyncResponse (some b)) →
      n.Asks peerId requestIndex → G peerId requestIndex b)
    (hn : n.InSession G) : n'.InSession G := by
  by_cases hstart : a = .startResync ∧ Due n
  · obtain ⟨rfl, -⟩ := hstart
    exact startResync_inSession h hn
  by_cases hresponse : ∃ answer, a = .handle (.resyncResponse answer)
  swap
  · have hnot (answer : Option Block) : a ≠ .handle (.resyncResponse answer) :=
      fun ha => hresponse ⟨answer, ha⟩
    have hbystands := h.effect.bystands hstart fun answer ha => absurd ha (hnot answer)
    exact hn.same (h.sameAsk hstart hnot) hbystands.receivedResyncBlocks
  obtain ⟨answer, rfl⟩ := hresponse
  have hrun : handleMessage env.toNodeEnv (.resyncResponse answer) n = .ok () n' := h
  cases hstate : n.state with
  | listening =>
      rw [handleMessage, bind_ok (get_ok n), hstate] at hrun
      cases hrun
      exact hn
  | resyncing =>
      rw [run_handleMessage_response hstate] at hrun
      refine handleResyncResponse_inSession hc hstate hrun (fun b peerId requestIndex hb => ?_) hn
      exact hgiven b peerId requestIndex (congrArg _ (congrArg _ hb))

end Acts

/-! ## The sessions of a system -/

section Moves

variable {env : LoopEnv K} {p p' : Process} {input : Option (Bytes × Message)} {posts : List Post}
  {G : Bytes → Int → Block → Prop}

/-- A move that reads no response with a block, or the one that the node
asks for. -/
theorem Process.Move.inSession (h : Process.Move env p input p' posts)
    (hc : ∃ c, Represents env.toEnv p.node.bc c)
    (hgiven : ∀ sender b peerId requestIndex, input = some (sender, .resyncResponse (some b)) →
      p.node.Asks peerId requestIndex → G peerId requestIndex b)
    (hp : p.node.InSession G) : p'.node.InSession G := by
  cases h with
  | @advances fuel mock reading loop _ _ h =>
      have hkeeps := runActs_keeps (G := fun _ => True) (M := fun _ => True) (J := fun _ => True)
        (I := fun n => (∃ c, Represents env.toEnv n.bc c) ∧ n.InSession G)
        (fun {a n n'} ha hleads _ hn => ⟨⟨hleads.effect.represents hn.1,
          hleads.inSession hn.1 (fun b _ _ hb _ => by
            rcases (ha : _ ∨ _ ∨ _) with rfl | rfl | rfl
            · cases hb
            · cases hb
            · cases hb) hn.2⟩, fun _ _ => trivial, fun _ _ => trivial⟩)
        (fun a ha => mem_advanceActs ha) (advance_ok h).runActs (fun _ _ => trivial) ⟨hc, hp⟩
      exact hkeeps.1.2
  | @reads t loop _ h =>
      obtain ⟨n', hn', rfl⟩ := onNode_eq_ok h
      have hrun := receiveMessage_runActs hn'
      unfold receiveActs at hrun
      split at hrun
      · cases hrun
        exact hp
      · next sender msg hreceived =>
        obtain ⟨n₁, hread, hrest⟩ := runActs_cons hrun
        obtain ⟨n₂, hhandle, hrest⟩ := runActs_cons hrest
        obtain ⟨n₃, hcontrol, hrest⟩ := runActs_cons hrest
        cases hrest
        have hsends : Sends p.node n₁ := (onNetwork_modify_sends (Network.read sender)).of_ok hread
        have hc₁ : ∃ c, Represents env.toEnv n₁.bc c := hsends.quiet.bc ▸ hc
        have hn₁ : n₁.InSession G := hp.same hsends.sameAsk hsends.quiet.receivedResyncBlocks
        have hn₂ : n₂.InSession G := by
          refine hhandle.inSession hc₁ (fun b peerId requestIndex hb hasks => ?_) hn₁
          cases hb
          exact hgiven sender b peerId requestIndex hreceived
            (hasks.same ⟨hsends.sameAsk.state.symm, hsends.sameAsk.missed.symm,
              hsends.sameAsk.requestIndex.symm⟩)
        exact hcontrol.inSession (hhandle.effect.represents hc₁) (by simp) hn₂

end Moves

namespace Deployment

variable {D : Deployment ι K} {S₀ S S' : System ι} {i : ι}

/-- The chain of this peer has given the block for this index, while node
`i` was asking it for that. -/
def Given (D : Deployment ι K) (i : ι) (S₀ S : System ι) (peerId : Bytes) (requestIndex : Int)
    (b : Block) : Prop :=
  ∃ j, peerId = (D.member j).id ∧
    Once D.parties S₀ (fun S₁ => (S₁.party i).node.Asks peerId requestIndex ∧
      returned (resyncAnswer requestIndex) (S₁.party j).node.bc = some (some b)) S

theorem Given.step {peerId : Bytes} {requestIndex : Int} {b : Block}
    (h : D.Given i S₀ S peerId requestIndex b) (hstep : Step D.parties S S') :
    D.Given i S₀ S' peerId requestIndex b := by
  obtain ⟨j, hpeer, honce⟩ := h
  exact ⟨j, hpeer, honce.step hstep⟩

/-- **Sessions.** In every run, a node that listens has nothing left of a
resync. One that resyncs asks a peer for the block at `-(k + 1)`, having
had `k` answers; they are, in turn, what that peer's chain gave for -1 to
`-k` while the node was asking for it, and the received blocks are among
them in this order. -/
theorem gathered (hstarted : D.Started S₀) (h : LeadsTo D.parties S₀ S) (i : ι) :
    (S.party i).node.InSession (D.Given i S₀ S) := by
  have hholds : S.Holds (fun S i p => p.node.InSession (D.Given i S₀ S)) fun _ _ => True := by
    refine h.holds_of_stable ?_ (fun _ _ => trivial) ?_ ⟨fun i => ?_, fun _ _ => trivial⟩
    · exact fun hstep hp => hp.mono fun hgiven => hgiven.step hstep
    · intro S i input rest posts S' hleadsTo hholds hmoves _
      have hreachable : D.Reachable S := ⟨S₀, hstarted, hleadsTo⟩
      have hbefore := (hholds.parties i).mono fun hgiven => Given.step hgiven hmoves.step
      refine ⟨Process.Move.inSession hmoves.move (hreachable.represented i) ?_ hbefore,
        fun _ _ => trivial⟩
      rintro sender b peerId requestIndex rfl hasks
      obtain ⟨i', j, requestIndex', hdest, hsender, hasks', honce⟩ :=
        underWay_awaited hstarted hleadsTo _ hmoves.mem
      obtain rfl : i = i' := D.id_injective hdest
      obtain ⟨rfl, rfl⟩ := hasks.unique hasks'
      exact ⟨j, rfl, honce.step hmoves.step⟩
    · exact .of_ended (hstarted.nodes i).node.state (hstarted.nodes i).node.receivedResyncBlocks
  exact hholds.parties i

end Deployment

/-! ## Waiting in vain -/

section Acts

variable {env : LoopEnv K} {n n' n₀ : Node} {a : Act}

/-- A node that resyncs looks at no block but those of responses. -/
theorem Effect.rows_of_resyncing (h : Effect env n a n') (hc : ∃ c, Represents env.toEnv n.bc c)
    (hresyncing : n.state = .resyncing)
    (hresponse : ∀ block, a ≠ .handle (.resyncResponse block)) :
    ∀ r ∈ n'.bc.localChains.map Row.static, r ∈ n.bc.localChains.map Row.static ∨
      ∃ b ∈ a.made env n, r = rowOf b := by
  have hsame {bc : BlockChain} (hbc : bc = n.bc) : ∀ r ∈ bc.localChains.map Row.static,
      r ∈ n.bc.localChains.map Row.static ∨ ∃ b ∈ a.made env n, r = rowOf b := by
    rw [hbc]
    exact fun r hr => .inl hr
  have hlistens (hlistening : n.state = .listening) : False := by
    rw [hresyncing] at hlistening
    cases hlistening
  cases h with
  | quiet h => exact hsame h.bc
  | rounds fuel bc hrun =>
      have hstatic := confirms_map_static ((updateRound_confirms fuel).of_ok hrun)
      intro r hr
      exact .inl (hstatic ▸ hr)
  | @produced mock _ block hcreated hgenerated stored hrun hrest =>
      have hmade : block ∈ (Act.produce mock).made env n := by
        rw [Act.made, if_pos hcreated, hgenerated]
        exact List.mem_singleton_self _
      obtain ⟨c, hc⟩ := hc
      obtain ⟨c', hc', hsub⟩ := insert_represents hc block
      rw [after_ok hrun] at hc'
      intro r hr
      rw [hc'.rows] at hr
      obtain ⟨b, hb, rfl⟩ := List.mem_map.mp hr
      rcases List.mem_append.mp (hsub hb) with hb | hb
      · rw [hc.rows]
        exact .inl (List.mem_map_of_mem hb)
      · exact .inr ⟨block, hmade, congrArg rowOf (List.mem_singleton.mp hb)⟩
  | delivered hlistening _ _ _ _ => exact (hlistens hlistening).elim
  | started hdue _ _ _ _ => exact (hlistens hdue.1).elim
  | noBlock _ _ _ => exact absurd rfl (hresponse _)
  | aborted _ _ _ => exact absurd rfl (hresponse _)
  | merged _ _ _ _ _ => exact absurd rfl (hresponse _)
  | unmerged _ _ _ _ _ => exact absurd rfl (hresponse _)

/-- The node waits for the same as before. Its rows are those it had, in
whatever state of confirmation, and rows of its own blocks. -/
structure Idles (env : LoopEnv K) (n₀ n : Node) : Prop where
  represents : ∃ c, Represents env.toEnv n.bc c
  sameAsk : SameAsk n₀ n
  received : n.receivedResyncBlocks = n₀.receivedResyncBlocks
  rows : ∀ r ∈ n.bc.localChains.map Row.static, r ∈ n₀.bc.localChains.map Row.static ∨
    r.ownerPubkey = hex env.publicKey

theorem Idles.refl (hc : ∃ c, Represents env.toEnv n.bc c) : Idles env n n :=
  ⟨hc, refl_of SameAsk _, rfl, fun _ hr => .inl hr⟩

theorem Idles.act (hn : Idles env n₀ n) (hresyncing : n₀.state = .resyncing)
    (hresponse : ∀ block, a ≠ .handle (.resyncResponse block)) (h : a.Leads env n n') :
    Idles env n₀ n' := by
  have hstate : n.state = .resyncing := hn.sameAsk.state.trans hresyncing
  have hstart : ¬(a = .startResync ∧ Due n) := fun hboth => by
    have hlistening := hboth.2.1
    rw [hstate] at hlistening
    cases hlistening
  have hbystands := h.effect.bystands hstart fun block ha => absurd ha (hresponse block)
  refine ⟨h.effect.represents hn.represents,
    trans_of SameAsk hn.sameAsk (h.sameAsk hstart hresponse),
    hbystands.receivedResyncBlocks.trans hn.received, fun r hr => ?_⟩
  rcases h.effect.rows_of_resyncing hn.represents hstate hresponse r hr with hr | ⟨b, hb, rfl⟩
  · exact hn.rows r hr
  · obtain ⟨mock, -, hrun⟩ := of_mem_made hb
    exact .inr (congrArg hex (generateBlock_ok hrun).ownerPubkey)

theorem Process.Move.idles {p p' : Process} {input : Option (Bytes × Message)} {posts : List Post}
    (h : Process.Move env p input p' posts)
    (hinput : ∀ sender block, input ≠ some (sender, .resyncResponse block))
    (hresyncing : n₀.state = .resyncing) (hp : Idles env n₀ p.node) : Idles env n₀ p'.node := by
  refine (Process.Move.keeps (J := fun _ => True) (M := fun _ => True)
    (fun {a n n'} hallowed hleads _ hn => ⟨?_, fun _ _ => trivial, fun _ _ => trivial⟩) h hp).1
  refine hn.act hresyncing (fun block ha => ?_) hleads
  obtain ⟨sender, hread⟩ := (ha ▸ hallowed).handled
  exact hinput sender block hread

end Acts

namespace Deployment

variable {D : Deployment ι K} {S S' : System ι} {i : ι}

/-- Nothing is under way that could take the resync of the node further. -/
def Unheard (D : Deployment ι K) (i : ι) (S : System ι) : Prop :=
  ∀ e ∈ S.underWay, counts (D.member i).id e = 0

theorem unheard_iff : D.Unheard i S ↔ charge (counts (D.member i).id) S.underWay = 0 := by
  rw [charge, List.sum_eq_zero_iff_forall_eq_nat, List.forall_mem_map]
  exact Iff.rfl

/-- A move by which no further resync starts. -/
theorem Unheard.moves {j : ι} {input : Option (Bytes × Message)}
    {rest : List (Envelope Bytes Message)} {posts : List Post} (h : D.Unheard i S)
    (hmoves : Moves D.parties S j input rest posts S')
    (hdue : (S'.party i).node.due ≤ (S.party i).node.due) : D.Unheard i S' := by
  have hzero := unheard_iff.mp h
  have htaken : charge (counts (D.member i).id) S.underWay
      = chargeOf (counts (D.member i).id) (D.member j).id input
        + charge (counts (D.member i).id) rest := hmoves.takes.charge _
  obtain ⟨acts, hrun, rfl, hintake⟩ := Process.Move.intake hmoves.move (D.member i).id
  rw [unheard_iff, hmoves.underWay, charge_append, charge_posted]
  by_cases hij : j = i
  · subst hij
    have hle := runActs_charge_own hrun
    omega
  · have hid : (D.member j).id ≠ (D.member i).id := fun heq => hij (D.id_injective heq)
    have hle := runActs_charge_other hid hrun
    omega

theorem Unheard.no_response {input : Option (Bytes × Message)}
    {rest : List (Envelope Bytes Message)} {posts : List Post} (h : D.Unheard i S)
    (hmoves : Moves D.parties S i input rest posts S') :
    ∀ sender block, input ≠ some (sender, .resyncResponse block) := by
  rintro sender block rfl
  have hone : counts (D.member i).id ⟨sender, (D.member i).id, .resyncResponse block⟩ = 1 :=
    if_pos rfl
  have hzero : counts (D.member i).id ⟨sender, (D.member i).id, .resyncResponse block⟩ = 0 :=
    h _ hmoves.mem
  omega

/-- **Waiting in vain.** A node that resyncs while neither its request nor
the response is under way, be it that the one was not sent or the other
was lost, does so in every later state: it asks no one, nothing is under
way for it, it has received what it had, and it stores no more blocks
than those it makes. -/
theorem stranded (h : D.Reachable S) (hresyncing : (S.party i).node.state = .resyncing)
    (hunheard : D.Unheard i S) (hafter : LeadsTo D.parties S S') :
    D.Unheard i S' ∧ Idles (D.member i) (S.party i).node (S'.party i).node := by
  induction hafter with
  | refl => exact ⟨hunheard, .refl (h.represented i)⟩
  | @tail S' S'' _ hstep ih =>
      obtain ⟨hunheard', hidles⟩ := ih
      cases hstep with
      | @loses e hperm hparty =>
          refine ⟨fun e' he' => hunheard' e' (hperm.symm.subset (List.mem_cons_of_mem _ he')), ?_⟩
          rw [hparty]
          exact hidles
      | @moves j input rest posts hmoves =>
          have hidles' : Idles (D.member i) (S.party i).node (S''.party i).node := by
            by_cases hij : j = i
            · subst hij
              exact Process.Move.idles hmoves.move (hunheard'.no_response hmoves) hresyncing hidles
            · rw [hmoves.others i (Ne.symm hij)]
              exact hidles
          refine ⟨hunheard'.moves hmoves (le_of_eq ?_), hidles'⟩
          rw [Node.due, Node.due, hidles.sameAsk.state, hidles'.sameAsk.state]

end Deployment

/-! ## The pair -/

/-- The first node answers with its last block, whose parent the second
node does not have. -/
def answeredSystem : System Pair :=
  (pair.happen pairSystem [.reads .first 0 none id, .reads .second 0 none id]).getD pairSystem

/-- The next request is lost. -/
def unheardSystem : System Pair := (pair.happen answeredSystem [.loses 0]).getD answeredSystem

/-- The first node makes another block, and the second reads it. -/
def ignoredSystem : System Pair :=
  (pair.happen unheardSystem [.advances .first 10 noRows, .advances .second 10 noRows,
    .reads .second 0 none id]).getD unheardSystem

/-- The three runs, and what the samples read off them. -/
structure SessionFacts (answered unheard ignored : System Pair) : Prop where
  resyncing : (answered.party .second).node.state = .resyncing
  received : (answered.party .second).node.receivedResyncBlocks.length = 1
  resyncing_unheard : (unheard.party .second).node.state = .resyncing
  underWay : unheard.underWay.length = 0
  messageCount : (unheard.party .second).messageCount < (ignored.party .second).messageCount

instance (S₁ S₂ S₃ : System Pair) : Decidable (SessionFacts S₁ S₂ S₃) :=
  decidable_of_iff (_ ∧ _ ∧ _ ∧ _ ∧ _)
    ⟨fun ⟨h₁, h₂, h₃, h₄, h₅⟩ => ⟨h₁, h₂, h₃, h₄, h₅⟩,
      fun ⟨h₁, h₂, h₃, h₄, h₅⟩ => ⟨h₁, h₂, h₃, h₄, h₅⟩⟩

theorem session_runs :
    LeadsTo pair.parties pairSystem answeredSystem ∧
      LeadsTo pair.parties answeredSystem unheardSystem ∧
        LeadsTo pair.parties unheardSystem ignoredSystem ∧
          SessionFacts answeredSystem unheardSystem ignoredSystem := by
  have hrun : ((pair.happen pairSystem [.reads .first 0 none id, .reads .second 0 none id]).any
      fun S₁ => (pair.happen S₁ [.loses 0]).any fun S₂ =>
        (pair.happen S₂ [.advances .first 10 noRows, .advances .second 10 noRows,
          .reads .second 0 none id]).any fun S₃ => SessionFacts S₁ S₂ S₃) = true := by
    decide +kernel
  obtain ⟨S₁, h₁, hrun⟩ := (Option.any_eq_true _ _).mp hrun
  obtain ⟨S₂, h₂, hrun⟩ := (Option.any_eq_true _ _).mp hrun
  obtain ⟨S₃, h₃, hfacts⟩ := (Option.any_eq_true _ _).mp hrun
  obtain rfl : answeredSystem = S₁ := by rw [answeredSystem, h₁, Option.getD_some]
  obtain rfl : unheardSystem = S₂ := by rw [unheardSystem, h₂, Option.getD_some]
  obtain rfl : ignoredSystem = S₃ := by rw [ignoredSystem, h₃, Option.getD_some]
  exact ⟨Deployment.happen_leadsTo h₁, Deployment.happen_leadsTo h₂, Deployment.happen_leadsTo h₃,
    of_decide_eq_true hfacts⟩

theorem pair_gathered :
    (answeredSystem.party .second).node.state = .resyncing ∧
      (answeredSystem.party .second).node.receivedResyncBlocks.length = 1 ∧
        (answeredSystem.party .second).node.InSession
          (pair.Given .second pairStart answeredSystem) := by
  obtain ⟨hanswered, -, -, hfacts⟩ := session_runs
  exact ⟨hfacts.resyncing, hfacts.received,
    Deployment.gathered pairStart_started (pair_leadsTo.trans hanswered) .second⟩

/-- The block that the first node posts then is read and forgotten. -/
theorem pair_stranded :
    (unheardSystem.party .second).messageCount < (ignoredSystem.party .second).messageCount ∧
      pair.Unheard .second ignoredSystem ∧
        Idles (pair.member .second) (unheardSystem.party .second).node
          (ignoredSystem.party .second).node := by
  obtain ⟨hanswered, hunheard, hignored, hfacts⟩ := session_runs
  have hleadsTo := (pair_leadsTo.trans hanswered).trans hunheard
  have hnone : pair.Unheard .second unheardSystem := by
    intro e he
    rw [List.length_eq_zero_iff.mp hfacts.underWay] at he
    cases he
  exact ⟨hfacts.messageCount, Deployment.stranded ⟨pairStart, pairStart_started, hleadsTo⟩
    hfacts.resyncing_unheard hnone hignored⟩

end Cpos
