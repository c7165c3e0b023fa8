import Cpos.Connecting
import Cpos.Failures
import Cpos.Growth
import Cpos.Outstanding
import Cpos.Serving

/-!
# What stops a node

A node whose loop raises has stopped. Of the blocks that it may be sent,
those with a negative index or ticket, or with a value that does not fit
its column, can make it stop. A node that has never been sent one handles
every message that does not bear one (`Node.Ready.receives`), and in exact
arithmetic nothing before the read raises but `update_round`, and
`MockTransactionList` where transactions are made up.

The nodes of a deployment make no harmful blocks, as long as their clocks
show rounds in the range of the column. So no message ever stops one of
them, whatever the network does (`only_rounds_raise`).
-/

namespace Cpos

open Python ByteString Sha256 LinkedChain BlockChain Actors

/-! ## Harmless blocks -/

/-- `insert` stores the block or returns `False`, it can be served, and
there is room for the index of a block above it. -/
structure Block.Harmless (b : Block) : Prop where
  index_nonneg : 0 ≤ b.index
  ticketNumber_nonneg : 0 ≤ b.ticketNumber
  storable : b.Storable
  room : b.round + 1 < 2 ^ 31

section Chain

variable {env : Env ℚ} {s : BlockChain} {c : Chain (rules env)} {b : Block}

theorem Block.Harmless.not_breaks (h : b.Harmless) : ¬Breaks env c b := by
  rintro (⟨-, hneg⟩ | ⟨-, -, -, hfits⟩)
  · exact absurd h.index_nonneg (by omega)
  · exact hfits h.storable

theorem insert_harmless (hstake : 1 ≤ env.parameters.totalStake) (hc : Represents env s c)
    (hb : b.Harmless) : Returns (insert env b) s fun _ _ => True := by
  refine returns_iff.mpr ((insert_returns_iff hc b).mpr ?_)
  rw [raises_iff_breaks hstake]
  exact hb.not_breaks

theorem merge_harmless (hstake : 1 ≤ env.parameters.totalStake) (hc : Represents env s c)
    {first : Block} {rest : List Block} (hblocks : ∀ b ∈ first :: rest, b.Harmless) :
    Returns (merge env (first :: rest)) s fun _ _ => True := by
  refine returns_iff.mpr ((merge_returns_iff hc first rest).mpr
    ⟨fun b hb => (hblocks b hb).storable.printable, ?_⟩)
  rintro ⟨i, p, -, hraises⟩
  rw [tailRaises_iff_breaksInTurn hstake] at hraises
  obtain ⟨before, b, after, heq, -, hbreaks⟩ := hraises
  exact (hblocks b (by simp [heq])).not_breaks hbreaks

/-- Any block asked for is served. -/
theorem resyncAnswer_harmless (hc : Represents env s c) (hholds : Chain.Holds Block.Harmless c)
    (k : Int) : Returns (resyncAnswer k) s fun _ _ => True := by
  have hanswers : AnswersAll s := by
    refine (answersAll_iff hc).mpr fun r hr => ?_
    obtain ⟨i, hi⟩ := List.mem_iff_getElem?.mp hr
    obtain ⟨b, hb, hst⟩ := hc.block_at hi
    rw [hst.ticketNumber]
    rcases hholds b (List.mem_of_getElem? hb) with rfl | hharmless
    · exact le_refl _
    · exact hharmless.ticketNumber_nonneg
  refine returns_iff.mpr ?_
  by_cases hk : |k| < s.localChains.length
  · obtain ⟨b, hb⟩ := hanswers k hk
    exact ⟨some b, hb⟩
  · refine ⟨none, ?_⟩
    have hrun : resyncAnswer k s = .ok none s := by
      rw [resyncAnswer, bind_ok hc.run_numberOfBlocks, if_neg (by rw [← hc.length]; exact hk)]
      rfl
    exact returned_ok hrun

end Chain

/-! ## What is handled -/

/-- No harmful block has come to the node. -/
structure Node.Ready (env : NodeEnv ℚ) (n : Node) : Prop where
  holds : n.Holds env.toEnv Block.Harmless
  network : n.network.Consistent
  asked : n.state = .resyncing → n.missed.isSome

section Handling

variable {env : NodeEnv ℚ} {n : Node}

theorem answerRequest_connects (hn : n.Ready env) (peerId : Bytes) (blockIndex : Int) :
    Connects (answerRequest env peerId blockIndex) n := by
  obtain ⟨c, hc, hblocks⟩ := hn.holds.chain
  have hanswer := resyncAnswer_harmless hc hblocks blockIndex
  exact (onChain_connects hanswer hn.network).bind fun _ _ h₁ =>
    (sendMessage_connects h₁ peerId).bind fun _ _ h₂ => returns_pure h₂

theorem requestOlder_connects (h : n.network.Consistent) (hmissed : n.missed.isSome)
    (hindex : n.requestIndex.isSome) : Connects (requestOlder env) n := by
  obtain ⟨requestIndex, hindex⟩ := Option.isSome_iff_exists.mp hindex
  refine .of_get ?_
  rw [hindex]
  have hasked : ({ n with requestIndex := some (requestIndex - 1) } : Node).network.Consistent ∧
      ({ n with requestIndex := some (requestIndex - 1) } : Node).missed.isSome := ⟨h, hmissed⟩
  exact (returns_modify (Q := fun _ n' => n'.network.Consistent ∧ n'.missed.isSome) hasked).bind
    fun _ _ h₁ => (sendRequest_connects env h₁.1 h₁.2).bind fun _ _ h₂ => returns_pure h₂

theorem handleResyncResponse_connects (hstake : 1 ≤ env.parameters.totalStake)
    (hn : n.Ready env) (hresyncing : n.state = .resyncing) {answer : Option Block}
    (hanswer : ∀ block, answer = some block → block.Harmless) :
    Connects (handleResyncResponse env answer) n := by
  cases answer with
  | none =>
      let n₁ : Node := { n with receivedResyncBlocks := [] }
      show Returns (if n.missedBlocks ≠ [] then _ else endResync : NodeCall Unit) n₁ _
      refine returns_ite (fun hmissed => ?_) fun _ => ⟨(), _, rfl, hn.network⟩
      have hasks := (@chooseMissed_of_ne_nil _ _ env n₁ hmissed).2.1
      have hnetwork : (chooseMissed env n₁).network.Consistent := by
        rw [chooseMissed_network]
        exact hn.network
      exact (sendRequest_connects env hnetwork hasks).bind fun _ _ h => returns_pure h
  | some block =>
      let n₁ : Node := { n with receivedResyncBlocks := block :: n.receivedResyncBlocks }
      obtain ⟨c, hc, -⟩ := hn.holds.chain
      have hblocks : ∀ b ∈ block :: n.receivedResyncBlocks, b.Harmless :=
        List.forall_mem_cons.mpr ⟨hanswer block rfl, hn.holds.received⟩
      obtain ⟨⟨merged, left⟩, bc, hmerge, -⟩ := merge_harmless hstake hc hblocks
      have hreceived : mergeReceived env n₁
          = .ok merged { n₁ with bc, receivedResyncBlocks := left } := by
        show (onChain (merge env.toEnv n₁.receivedResyncBlocks) >>= fun r => do
          modify fun n => { n with receivedResyncBlocks := r.2 }
          return r.1 : NodeCall Bool) n₁ = _
        rw [bind_ok (onChain_ok (n := n₁) hmerge)]
        rfl
      show Returns (mergeReceived env >>= fun merged =>
        if merged then completeResync else requestOlder env : NodeCall Unit) n₁ _
      unfold Returns
      rw [bind_ok hreceived]
      cases merged with
      | true => exact ⟨(), _, rfl, hn.network⟩
      | false =>
          obtain ⟨index, -, hindex⟩ := hn.holds.asks hresyncing
          have hasked : n.requestIndex.isSome := by rw [hindex]; rfl
          exact requestOlder_connects (n := { n₁ with bc, receivedResyncBlocks := left })
            hn.network (hn.asked hresyncing) hasked

theorem handleMessage_connects (hstake : 1 ≤ env.parameters.totalStake) (hn : n.Ready env)
    {msg : Message} (hmsg : msg.Bears Block.Harmless) : Connects (handleMessage env msg) n := by
  refine .of_get ?_
  split
  · obtain ⟨c, hc, -⟩ := hn.holds.chain
    have hinsert := insert_harmless hstake hc hmsg
    exact (handleNewBlock_connects hn.network hinsert _).bind fun _ _ h => returns_pure h
  · exact ⟨(), _, rfl, hn.network.forgetPeer _⟩
  · next answer _ hresyncing =>
    refine handleResyncResponse_connects hstake hn hresyncing fun block hblock => ?_
    subst hblock
    exact hmsg
  · exact answerRequest_connects hn _ _
  · exact returns_pure hn.network

end Handling

/-! ## Starting a resync -/

section Starting

variable {env : NodeEnv ℚ} {n n' : Node}

theorem findResyncPeer_connects (turns : Nat) : ∀ {n : Node}, n.network.Consistent →
    turns ≤ n.missedBlocks.length → Connects (findResyncPeer env turns) n := by
  induction turns with
  | zero => exact fun h _ => returns_pure h
  | succ turns ih =>
      intro n h hturns
      have hne : n.missedBlocks ≠ [] := List.length_pos_iff.mp (by omega)
      obtain ⟨-, hmissed, hlength⟩ := @chooseMissed_of_ne_nil _ _ env n hne
      have hnetwork : (chooseMissed env n).network.Consistent := by
        rw [chooseMissed_network]
        exact h
      obtain ⟨sent, n₁, hsend, h₁⟩ := sendRequest_connects env hnetwork hmissed
      show Returns (sendRequest env >>= fun sent =>
        if sent then pure true else findResyncPeer env turns : NodeCall Bool)
        (chooseMissed env n) _
      unfold Returns
      rw [bind_ok hsend]
      cases sent with
      | true => exact ⟨true, n₁, rfl, h₁⟩
      | false =>
          obtain ⟨network, rfl⟩ := sendRequest_network hsend
          exact ih h₁ (show turns ≤ (chooseMissed env n).missedBlocks.length by omega)

theorem startResync_connects (env : NodeEnv ℚ) (h : n.network.Consistent) :
    Connects (startResync env) n := by
  refine .of_get (returns_ite (fun _ => ?_) fun _ => returns_pure h)
  refine (findResyncPeer_connects _ h (le_refl _)).bind fun found n₁ h₁ => ?_
  exact returns_ite (fun _ => ⟨(), _, rfl, h₁⟩) fun _ => returns_pure h₁

/-- Whoever starts to resync has chosen a missed block. -/
theorem startResync_asked (h : startResync env n = .ok () n')
    (hasked : n.state = .resyncing → n.missed.isSome) :
    n'.state = .resyncing → n'.missed.isSome := by
  rcases startResync_ok h with ⟨-, rfl⟩ | ⟨hdue, found, n₁, hfind, rfl⟩
  · exact hasked
  · obtain ⟨hstate, hfound⟩ := findResyncPeer_asks _ (le_refl _) hfind
    cases found with
    | true => exact fun _ => (hfound rfl).2.1
    | false =>
        intro hresyncing
        have hlistening : n₁.state = .resyncing := hresyncing
        rw [hstate, hdue.1] at hlistening
        cases hlistening

theorem handleResyncResponse_asked {answer : Option Block}
    (h : handleResyncResponse env answer n = .ok () n') (hasked : n.missed.isSome) :
    n'.state = .resyncing → n'.missed.isSome := by
  cases answer with
  | none =>
      rcases response_none_ok h with ⟨hmissed, sent, hsend⟩ | ⟨-, rfl⟩
      · obtain ⟨network, rfl⟩ := sendRequest_network hsend
        exact fun _ =>
          (chooseMissed_of_ne_nil (n := { n with receivedResyncBlocks := [] }) hmissed).2.1
      · intro hlistening
        cases hlistening
  | some block =>
      obtain ⟨merged, n₁, hmerge, hrest⟩ := response_some_ok h
      obtain ⟨left, bc, -, rfl⟩ := mergeReceived_ok hmerge
      cases merged with
      | true =>
          intro hlistening
          rw [if_pos rfl] at hrest
          rw [hrest] at hlistening
          cases hlistening
      | false =>
          obtain ⟨sent, hsend⟩ := hrest
          obtain ⟨network, rfl⟩ := sendRequest_network hsend
          exact fun _ => hasked

end Starting

/-! ## Producing -/

section Unmocked

variable {K : Type} [PyNum K]

/-- Where transactions are not made up, it does not matter which would
be. -/
theorem generateBlock_unmocked {env : NodeEnv K} (h : env.useMockTransactions = false)
    (mock mock' : Int → TransactionList) : generateBlock env mock = generateBlock env mock' := by
  have hcandidate : generateCandidate env mock = generateCandidate env mock' := by
    funext candidate i
    simp only [generateCandidate, h]
    rfl
  rw [generateBlock, hcandidate, generateBlock]

theorem advance_unmocked {env : LoopEnv K} (h : env.useMockTransactions = false) (fuel : Nat)
    (mock mock' : Int → TransactionList) : advance env fuel mock = advance env fuel mock' := by
  simp only [advance, newRound, produceBlock, generateBlock_unmocked h mock mock']

end Unmocked

section Producing

variable {env : NodeEnv ℚ} {mock : Int → TransactionList} {s : BlockChain}
  {c : Chain (rules env.toEnv)} {b b' : Block}

theorem hex_length (bs : Bytes) : (hex bs).length = 2 * bs.length := by
  induction bs with
  | nil => rfl
  | cons b bs ih =>
      rw [hex, List.length_cons, List.length_cons, ih, List.length_cons]
      omega

/-- What makes the row of a block fit. -/
structure Block.Fits (b : Block) : Prop where
  index : -2 ^ 31 ≤ b.index ∧ b.index < 2 ^ 31
  round : -2 ^ 31 ≤ b.round ∧ b.round < 2 ^ 31
  ticketNumber : -2 ^ 31 ≤ b.ticketNumber ∧ b.ticketNumber < 2 ^ 31
  texts : ∀ x ∈ [b.hash, b.parentHash, b.ownerPubkey, b.signedNodeHash, b.transactionHash,
    b.proofHash], x.length ≤ 127
  transactions : fitsLongtext b.transactions = true

theorem Block.storable_iff : b.Storable ↔ b.Fits := by
  have htext (x : Bytes) : fitsVarchar (hex x) = true ↔ x.length ≤ 127 := by
    rw [fitsVarchar, decide_eq_true_eq, hex_length]
    omega
  have hint (k : Int) : fitsInteger k = true ↔ -2 ^ 31 ≤ k ∧ k < 2 ^ 31 := by
    rw [fitsInteger, Bool.and_eq_true, decide_eq_true_eq, decide_eq_true_eq]
  show (rowOf b).fits = true ↔ _
  simp only [Row.fits, rowOf, Block.toRow, Bool.and_eq_true, htext, hint]
  constructor
  · rintro ⟨⟨⟨⟨⟨⟨⟨⟨⟨⟨⟨h₁, h₂⟩, h₃⟩, h₄⟩, -⟩, h₅⟩, h₆⟩, h₇⟩, h₈⟩, h₉⟩, -⟩, h₁₀⟩
    exact ⟨h₁, h₃, h₈, by simp [h₂, h₄, h₅, h₆, h₇, h₁₀], h₉⟩
  · rintro ⟨h₁, h₂, h₃, htexts, h₄⟩
    simp only [List.forall_mem_cons, List.not_mem_nil, false_imp_iff, implies_true,
      and_true] at htexts
    obtain ⟨h₅, h₆, h₇, h₈, h₉, h₁₀⟩ := htexts
    exact ⟨⟨⟨⟨⟨⟨⟨⟨⟨⟨⟨h₁, h₅⟩, h₂⟩, h₆⟩, h₅⟩, h₇⟩, h₈⟩, h₉⟩, h₃⟩, h₄⟩, by decide⟩, h₁₀⟩

/-- Read back, a block is as harmless as it was. -/
theorem Block.Harmless.reloaded (h : b.Harmless) (hb : b.Bound) (hre : b.reloaded = .ok b') :
    b'.Harmless := by
  have hb' := hb.reloaded_eq hre
  have hhash : b'.hash.length ≤ 127 := by
    obtain ⟨_, _, -, -, -, -, hhash, -⟩ := (Block.Bound.of_update hre).hashes
    rw [hhash, sha256_length]
    decide
  have hfits := Block.storable_iff.mp h.storable
  refine ⟨?_, ?_, Block.storable_iff.mpr ⟨?_, ?_, ?_, fun x hx => ?_, ?_⟩, ?_⟩
  · rw [hb']; exact h.index_nonneg
  · rw [hb']; exact h.ticketNumber_nonneg
  · rw [hb']; exact hfits.index
  · rw [hb']; exact hfits.round
  · rw [hb']; exact hfits.ticketNumber
  · rw [hb'] at hx
    have htexts := hfits.texts
    simp only [List.mem_cons, List.not_mem_nil, or_false] at hx htexts
    rcases hx with rfl | rfl | rfl | rfl | rfl | rfl
    · exact hhash
    · exact htexts _ (by simp)
    · exact htexts _ (by simp)
    · exact htexts _ (by simp)
    · exact Nat.zero_le _
    · exact htexts _ (by simp)
  · rw [hb']; exact hfits.transactions
  · rw [hb']; exact h.room

/-- A block of this round can be made and stored, and leaves room for one
above it. -/
def Datable (round : Int) : Prop := 0 ≤ round ∧ round + 1 < 2 ^ 31

theorem Datable.update_ok {b : Block} (hround : Datable b.round) (hticket : b.ticketNumber = 0) :
    ∃ b', b.update = .ok b' := by
  refine Block.update_ok_iff.mpr ⟨?_, ?_⟩
  · obtain ⟨hnonneg, hroom⟩ := hround
    omega
  · rw [hticket]
    decide

theorem ticketBlock_returns (mock : Int → TransactionList) (hs : Represents env.toEnv s c)
    (hround : Datable s.currentRound) :
    ∃ b, ticketBlock env mock 0 s = .ok b s := by
  obtain ⟨tip, htip⟩ := c.exists_tip
  let tx := if env.useMockTransactions then mock 0 else TransactionList.new
  obtain ⟨b₁, hinit⟩ : ∃ b₁, Block.init tip.hash tx env.publicKey [] s.currentRound
      s.localChains.length 0 = .ok b₁ := Datable.update_ok hround rfl
  obtain ⟨_, _, -, -, hb₁⟩ := Block.update_eq_ok hinit
  obtain ⟨b₂, hsign⟩ : ∃ b₂, b₁.sign env.sign = .ok b₂ := by
    refine Datable.update_ok (b := { b₁ with signedNodeHash := env.sign b₁.nodeHash }) ?_ ?_
    · rw [hb₁]
      exact hround
    · rw [hb₁]
  refine ⟨{ b₂ with ticketNumber := 0 }, ?_⟩
  have hnumber : numberOfBlocks s = .ok (s.localChains.length : Int) s := rfl
  rw [ticketBlock, bind_ok (hs.run_getLastBlockHash htip), bind_ok (get_ok s), bind_ok hnumber]
  show (eval (Block.init tip.hash tx env.publicKey [] s.currentRound s.localChains.length 0)
    >>= _ : Call Block) s = _
  rw [hinit, bind_ok (eval_ok b₁), hsign, bind_ok (eval_ok b₂)]
  rfl

theorem generated_harmless (hdraws : Draws mock) (hsign : ∀ msg, (env.sign msg).length = 64)
    (hs : Represents env.toEnv s c) (hblocks : Chain.Holds Block.Harmless c)
    (hround : Datable s.currentRound) (h : generateBlock env mock s = .ok (some b) s) :
    b.Harmless := by
  have hkey := (generateBlock_ok h).valid.key_length
  have hticket := generateBlock_ticket h
  have hmade := ticketBlock_ok hticket
  obtain ⟨hsigned, htransactions⟩ := ticketBlock_signed hticket
  obtain ⟨_, _, _, _, _, hproof, hhash, -⟩ := hmade.bound.hashes
  obtain ⟨tip, htip⟩ := c.exists_tip
  have hparent : b.parentHash = tip.hash := by
    have hlast := hmade.parentHash.symm.trans (hs.run_getLastBlockHash htip)
    exact (EStateM.Result.ok.inj hlast).1
  have hlength : b.index = c.blocks.length := by rw [hmade.index, hs.length]
  have hle := le_round_at (List.getLast?_eq_getElem?.symm.trans htip)
  have hpos := c.length_pos
  obtain ⟨hroom, htext⟩ : tip.round + 1 < 2 ^ 31 ∧ tip.hash.length ≤ 127 := by
    rcases hblocks tip (List.mem_of_mem_getLast? htip) with rfl | htip
    · decide
    · exact ⟨htip.room, (Block.storable_iff.mp htip.storable).texts _ (by simp)⟩
  obtain ⟨hnonneg, hlt⟩ := hround
  have hround : b.round = s.currentRound := hmade.round
  have hzero := hmade.ticketNumber
  refine ⟨by omega, by omega, Block.storable_iff.mpr ⟨by omega, by omega, by omega, ?_, ?_⟩,
    by omega⟩
  · have hsha : ∀ x : Bytes, (sha256 x).length ≤ 127 := fun x => by
      rw [sha256_length]
      decide
    have htx : b.transactionHash.length ≤ 127 := by
      rw [htransactions]
      split
      · obtain ⟨rows, hrows, -⟩ := hdraws 0
        rw [hrows]
        show (mockGetHash (strList rows)).length ≤ 127
        rw [mockGetHash, if_neg (strList_ne_empty rows)]
        exact hsha _
      · exact Nat.zero_le _
    simp only [List.forall_mem_cons, List.not_mem_nil, false_imp_iff, implies_true, and_true]
    refine ⟨hhash ▸ hsha _, hparent ▸ htext, by omega, ?_, htx, hproof ▸ hsha _⟩
    rw [hsigned, hsign]
    decide
  · rw [hmade.transactions]
    split
    · obtain ⟨rows, hrows, hfits⟩ := hdraws 0
      rw [hrows]
      exact hfits
    · rfl

/-- A block is generated, or none; in exact arithmetic its validation
returns. -/
theorem generateBlock_returns (mock : Int → TransactionList)
    (hstake : 1 ≤ env.parameters.totalStake) (hs : Represents env.toEnv s c)
    (hround : Datable s.currentRound) : ∃ r, generateBlock env mock s = .ok r s := by
  obtain ⟨b, hticket⟩ := ticketBlock_returns mock hs hround
  obtain ⟨r, hvalid⟩ := validateBlock_returns hstake b
  rw [generateBlock_eq, generateCandidate_eq, bind_ok hticket, hvalid, bind_ok (eval_ok r)]
  cases r with
  | none => exact ⟨none, rfl⟩
  | some w =>
      by_cases hw : w = 0
      · exact ⟨none, by simp only [if_pos hw]; rfl⟩
      · exact ⟨some b, by simp only [if_neg hw]; rfl⟩

end Producing

/-! ## Acts -/

/-- Settings that a node can run with. -/
structure LoopEnv.Sound (env : LoopEnv ℚ) : Prop where
  totalStake : 1 ≤ env.parameters.totalStake
  maximumNumPeers : 0 ≤ env.maximumNumPeers
  period : env.period ≠ some 0
  signature_length : ∀ msg, (env.sign msg).length = 64
  rounds : ∀ k r, roundAt env.toEnv k = .ok r → Datable r

section Acts

variable {env : LoopEnv ℚ} {n n' : Node} {a : Act}

theorem produceBlock_connects (hsound : env.Sound) {mock : Int → TransactionList}
    (hdraws : Draws mock) (hn : n.Ready env.toNodeEnv) (hround : Datable n.bc.currentRound) :
    Connects (produceBlock env.toNodeEnv mock) n := by
  obtain ⟨c, hc, hblocks⟩ := hn.holds.chain
  obtain ⟨r, hgenerate⟩ := generateBlock_returns mock hsound.totalStake hc hround
  unfold Connects Returns
  rw [produceBlock, bind_ok (onChain_ok hgenerate)]
  cases r with
  | none => exact ⟨(), n, rfl, hn.network⟩
  | some newBlock =>
      have hharmless : newBlock.Harmless :=
        generated_harmless hdraws hsound.signature_length hc hblocks hround hgenerate
      refine returns_ite (fun _ => ?_) fun _ => returns_pure hn.network
      let n₁ : Node := { n with producedBlocks := n.producedBlocks + 1 }
      have hinsert : Connects (onChain (insert env.toEnv newBlock)) n₁ :=
        onChain_connects (insert_harmless hsound.totalStake hc hharmless) hn.network
      exact (returns_modify (Q := fun _ n' => n' = n₁) rfl).bind fun _ _ h₁ =>
        h₁ ▸ hinsert.bind fun _ _ h₂ => broadcastMessage_connects h₂ []

theorem controlNumberOfPeers_connects (hsound : env.Sound) (h : n.network.Consistent)
    (additionalPeers : Option (List Bytes)) (pick : Nat → Nat) :
    Connects (controlNumberOfPeers env additionalPeers pick) n := by
  have htrim {n : Node} (h : n.network.Consistent) :
      Connects (forgetSurplus env pick (n.network.knownPeers.length + 1)) n := by
    obtain ⟨n', hrun, h', -⟩ := run_forgetSurplus hsound.maximumNumPeers pick
      (n.network.knownPeers.length + 1) h (Nat.le_succ _)
    exact ⟨(), n', hrun, h'⟩
  refine .of_get (returns_ite (fun _ => ?_) fun _ => htrim h)
  exact htrim (n := { n with network := n.network.connectAll env.id (additionalPeers.getD []) })
    (h.connectAll _ env.id)

/-- All acts return but `update_round`. -/
theorem Act.connects (hsound : env.Sound) (hn : n.Ready env.toNodeEnv)
    (hupdate : ∀ fuel, a = .updateRound fuel →
      Returns (Cpos.updateRound env.toEnv fuel) n.bc fun _ _ => True)
    (hproduce : ∀ mock, a = .produce mock → Draws mock ∧ Datable n.bc.currentRound)
    (hmsg : ∀ msg, a = .handle msg → msg.Bears Block.Harmless) : Connects (a.call env) n := by
  cases a with
  | startResync => exact startResync_connects _ hn.network
  | updateRound fuel => exact onChain_connects (hupdate fuel rfl) hn.network
  | produce mock =>
      obtain ⟨hdraws, hround⟩ := hproduce mock rfl
      exact produceBlock_connects hsound hdraws hn hround
  | read sender => exact ⟨(), _, rfl, hn.network.read sender⟩
  | handle msg => exact handleMessage_connects hsound.totalStake hn (hmsg msg rfl)
  | controlPeers additionalPeers pick =>
      exact controlNumberOfPeers_connects hsound hn.network additionalPeers pick

theorem Act.Leads.asked (h : a.Leads env n n') (hasked : n.state = .resyncing → n.missed.isSome) :
    n'.state = .resyncing → n'.missed.isSome := by
  have hsame {n₁ : Node} (hsame : SameAsk n n₁) : n₁.state = .resyncing → n₁.missed.isSome := by
    rw [hsame.state, hsame.missed]
    exact hasked
  by_cases hstart : a = .startResync
  · subst hstart
    exact startResync_asked h hasked
  by_cases hresponse : ∃ answer, a = .handle (.resyncResponse answer)
  swap
  · exact hsame (h.sameAsk (fun hboth => hstart hboth.1) fun answer ha => hresponse ⟨answer, ha⟩)
  obtain ⟨answer, rfl⟩ := hresponse
  cases hstate : n.state with
  | listening =>
      have hrun : handleMessage env.toNodeEnv (.resyncResponse answer) n = .ok () n' := h
      rw [handleMessage, bind_ok (get_ok n), hstate] at hrun
      cases hrun
      exact hasked
  | resyncing =>
      have hrun : handleMessage env.toNodeEnv (.resyncResponse answer) n = .ok () n' := h
      rw [run_handleMessage_response hstate] at hrun
      exact handleResyncResponse_asked hrun (hasked hstate)

theorem Node.Holds.represents {O : Block → Prop} (hn : n.Holds env.toEnv O) :
    ∃ c, Represents env.toEnv n.bc c := by
  obtain ⟨c, hc, -⟩ := hn.chain
  exact ⟨c, hc⟩

theorem Act.Leads.ticked (h : a.Leads env n n') (hn : ∃ c, Represents env.toEnv n.bc c)
    (hticked : Ticked env.toEnv n.bc) : Ticked env.toEnv n'.bc := by
  by_cases ha : ∃ fuel, a = .updateRound fuel
  · obtain ⟨fuel, rfl⟩ := ha
    have hupdate : onChain (Cpos.updateRound env.toEnv fuel) n = .ok () n' := h
    obtain ⟨bc, hrun, rfl⟩ := focus_eq_ok hupdate
    obtain ⟨hround, hlt⟩ := updateRound_round hrun
    exact ⟨_, hlt, hround⟩
  · exact hticked.of_sameRound (h.sameRound hn fun fuel hfuel => ha ⟨fuel, hfuel⟩)

theorem Act.Leads.ready (hsound : env.Sound) (h : a.Leads env n n') (hn : n.Ready env.toNodeEnv)
    (hproduce : ∀ mock, a = .produce mock → Draws mock ∧ Datable n.bc.currentRound)
    (hmsg : ∀ msg, a = .handle msg → msg.Bears Block.Harmless) : n'.Ready env.toNodeEnv := by
  refine ⟨h.effect.holds (fun b hb => ?_) hmsg hn.holds, ?_, h.asked hn.asked⟩
  · obtain ⟨mock, rfl, hrun⟩ := of_mem_made hb
    obtain ⟨hdraws, hround⟩ := hproduce mock rfl
    obtain ⟨c, hc, hblocks⟩ := hn.holds.chain
    exact generated_harmless hdraws hsound.signature_length hc hblocks hround hrun
  · have hconnects : Connects (a.call env) n := by
      refine Act.connects hsound hn (fun fuel ha => ?_) hproduce hmsg
      subst ha
      have hcall : onChain (Cpos.updateRound env.toEnv fuel) n = .ok () n' := h
      obtain ⟨bc, hrun, -⟩ := focus_eq_ok hcall
      exact ⟨(), bc, hrun, trivial⟩
    exact hconnects.of_ok h

end Acts

/-! ## A turn -/

section Turns

variable {env : LoopEnv ℚ} {n : Node}

theorem Message.str_ok {msg : Message} (h : msg.Bears Block.Harmless) : msg.str = .ok () := by
  cases msg with
  | blockBroadcast block peerId =>
      obtain ⟨text, htext⟩ := (show block.Harmless from h).storable.printable.str_ok
      rw [Message.str, htext]
      rfl
  | _ => rfl

/-- The second half of a turn: a node that is ready reads any message that
bears no harmful block. -/
theorem Node.Ready.receives (hsound : env.Sound) (hn : n.Ready env.toNodeEnv) {t : Turn}
    (hmsg : ∀ sender msg, t.received = some (sender, msg) → msg.Bears Block.Harmless) :
    Connects (receiveMessage env t) n := by
  unfold receiveMessage
  split
  · exact returns_pure hn.network
  · next sender msg hreceived =>
    let n₁ : Node := { n with network := n.network.read sender }
    have hn₁ : n₁.Ready env.toNodeEnv :=
      ⟨⟨hn.holds.chain, hn.holds.missed, hn.holds.received, hn.holds.asks⟩,
        hn.network.read sender, hn.asked⟩
    have hhandle := handleMessage_connects hsound.totalStake hn₁ (hmsg sender msg hreceived)
    have hread : Returns (onNetwork (modify (Network.read sender))) n fun _ n' => n' = n₁ :=
      ⟨(), n₁, rfl, rfl⟩
    have hprint : Returns (eval msg.str) n₁ fun _ n' => n' = n₁ := by
      rw [Message.str_ok (hmsg sender msg hreceived)]
      exact returns_pure rfl
    exact hread.bind fun _ _ h₁ => h₁ ▸ hprint.bind fun _ _ h₁' => h₁' ▸
      hhandle.bind fun _ _ h₂ => controlNumberOfPeers_connects hsound h₂ t.additionalPeers t.pick

theorem joinConsensus_returns (hperiod : env.period ≠ some 0) (l : Loop) :
    ∃ joined, joinConsensus env l
      = .ok joined (if joined then { l with nodeOnConsensus := true } else l) := by
  have hreturns : Returns (joinConsensus env) l fun _ _ => True := by
    show Returns (if l.nodeOnConsensus then pure true else _ : LoopCall Bool) l _
    refine returns_ite (fun _ => returns_pure trivial) fun _ => ?_
    split
    · exact returns_pure trivial
    · next period hsome =>
      have hzero : period ≠ 0 := fun hzero => hperiod (by rw [hsome, hzero])
      simp only [if_neg hzero]
      show Returns (if l.node.bc.currentRound % period = 0 then
        (do set { l with nodeOnConsensus := true }; return true) else pure false :
        LoopCall Bool) l _
      exact returns_ite (fun _ => ⟨true, _, rfl, trivial⟩) fun _ => returns_pure trivial
  obtain ⟨joined, l', hrun, -⟩ := hreturns
  exact ⟨joined, hrun.trans (by rw [joinConsensus_ok hrun])⟩

theorem beginTurn_returns (env : LoopEnv ℚ) (h : n.network.Consistent) : ∃ goesOn n₁,
    beginTurn env.toNodeEnv n = .ok goesOn n₁ ∧ startResync env.toNodeEnv n = .ok () n₁ := by
  obtain ⟨_, n₁, hstart, -⟩ := startResync_connects env.toNodeEnv h
  refine ⟨!(n.state = .listening ∧ n.bc.forkDetected ∧ n.missedBlocks ≠ [])
    || n₁.state = .resyncing, n₁, ?_, hstart⟩
  rw [beginTurn, bind_ok (get_ok n), bind_ok hstart]
  rfl

theorem onNode_returns {α : Type} {x : NodeCall α} {l : Loop} {Q : α → Node → Prop}
    (h : Returns x l.node Q) : Returns (onNode x) l fun _ _ => True :=
  h.focus fun _ _ _ => trivial

theorem newRound_returns (hsound : env.Sound) {mock : Int → TransactionList}
    (hdraws : Draws mock) {l : Loop} (hn : l.node.Ready env.toNodeEnv)
    (hround : Datable l.node.bc.currentRound) : Returns (newRound env mock) l fun _ _ => True := by
  show Returns (if roundChanged env l then _ else pure true : LoopCall Bool) l _
  refine returns_ite (fun _ => ?_) fun _ => returns_pure trivial
  let l₁ : Loop := { l with round := some l.node.bc.currentRound }
  obtain ⟨joined, hjoin⟩ := joinConsensus_returns hsound.period l₁
  show Returns (joinConsensus env >>= fun joined =>
    if !joined then pure false else onNode (produceBlock env.toNodeEnv mock) >>= fun _ =>
      pure true : LoopCall Bool) l₁ _
  unfold Returns
  rw [bind_ok hjoin]
  cases joined with
  | false => exact ⟨false, l₁, rfl, trivial⟩
  | true =>
      have hproduce := onNode_returns (l := { l₁ with nodeOnConsensus := true })
        (produceBlock_connects hsound hdraws hn hround)
      exact hproduce.bind fun _ _ _ => returns_pure trivial

/-- The first half of a turn returns, unless `update_round` raises. -/
theorem Node.Ready.advances (hsound : env.Sound) {l : Loop} (hn : l.node.Ready env.toNodeEnv)
    {mock : Int → TransactionList} (hdraws : Draws mock) (fuel : Nat) :
    Returns (advance env fuel mock) l (fun _ _ => True) ∨
      ∃ n₁ e, startResync env.toNodeEnv l.node = .ok () n₁ ∧
        raised (updateRound env.toEnv fuel) n₁.bc = some e := by
  obtain ⟨goesOn, n₁, hbegin, hstart⟩ := beginTurn_returns env hn.network
  have hleads₁ : Act.startResync.Leads env l.node n₁ := hstart
  have hn₁ := hleads₁.ready hsound hn (by simp) (by simp)
  cases hupdate : updateRound env.toEnv fuel n₁.bc with
  | error e bc => exact .inr ⟨n₁, e, hstart, by rw [raised, hupdate]⟩
  | ok _ bc =>
      left
      show Returns (if halts env l then pure false else _ : LoopCall Bool) l _
      refine returns_ite (fun _ => returns_pure trivial) fun _ => ?_
      have hnode : onNode (beginTurn env.toNodeEnv) l = .ok goesOn { l with node := n₁ } :=
        focus_ok hbegin
      unfold Returns
      rw [bind_ok hnode]
      refine returns_ite (fun _ => returns_pure trivial) fun _ => ?_
      have hchain : onChain (updateRound env.toEnv fuel) n₁ = .ok () { n₁ with bc } :=
        onChain_ok hupdate
      have hnode₁ : onNode (onChain (updateRound env.toEnv fuel)) { l with node := n₁ }
          = .ok () { l with node := { n₁ with bc } } := focus_ok hchain
      have hleads₂ : (Act.updateRound fuel).Leads env n₁ { n₁ with bc } := hchain
      have hn₂ := hleads₂.ready hsound hn₁ (by simp) (by simp)
      unfold Returns
      rw [bind_ok hnode₁]
      exact newRound_returns hsound hdraws (l := { l with node := { n₁ with bc } }) hn₂
        (hsound.rounds _ _ (updateRound_round hupdate).1)

end Turns

/-! ## The deployment -/

namespace Deployment

variable {ι : Type} {D : Deployment ι ℚ} {S : System ι} {i : ι}

/-- The blocks that the nodes send each other. -/
def Sendable (D : Deployment ι ℚ) (b : Block) : Prop := D.Authored b ∧ b.Harmless

theorem Sendable.reloaded {b b' : Block} (h : D.Sendable b) (hre : b.reloaded = .ok b') :
    D.Sendable b' := by
  obtain ⟨⟨j, hj⟩, hharmless⟩ := h
  exact ⟨Authored.reloaded ⟨j, hj⟩ hre, hharmless.reloaded hj.isSealed.bound hre⟩

/-- What is the case of every node in every run. -/
structure Healthy (D : Deployment ι ℚ) (i : ι) (n : Node) : Prop where
  holds : n.Holds (D.member i).toEnv D.Sendable
  network : n.network.Consistent
  asked : n.state = .resyncing → n.missed.isSome
  ticked : Ticked (D.member i).toEnv n.bc

theorem Healthy.ready {n : Node} (h : D.Healthy i n) : n.Ready (D.member i).toNodeEnv :=
  ⟨h.holds.mono fun _ hb => hb.2, h.network, h.asked⟩

theorem Healthy.datable (hsound : ∀ i, (D.member i).Sound) {n : Node} (h : D.Healthy i n) :
    Datable n.bc.currentRound := by
  obtain ⟨k, -, hround⟩ := h.ticked
  exact (hsound i).rounds k _ hround

/-- An act of a healthy node that has been sent such blocks only. -/
theorem Healthy.act (hsound : ∀ i, (D.member i).Sound) {input : Option (Bytes × Message)}
    {a : Act} {n n' : Node} (hn : D.Healthy i n) (hallowed : Allowed input a)
    (h : a.Leads (D.member i) n n')
    (hinput : ∀ sender msg, input = some (sender, msg) → msg.Bears D.Sendable) :
    D.Healthy i n' ∧ ∀ post ∈ a.posts (D.member i) n, post.2.Bears D.Sendable := by
  have hround := hn.datable hsound
  have hmsg : ∀ msg, a = .handle msg → msg.Bears D.Sendable := fun msg ha => by
    obtain ⟨sender, hread⟩ := (ha ▸ hallowed).handled
    exact hinput sender msg hread
  have hmade : ∀ b ∈ a.made (D.member i) n, D.Sendable b := fun b hb => by
    obtain ⟨mock, rfl, hrun⟩ := of_mem_made hb
    have hauthored := madeBy_of_generated hallowed.draws (hn.holds.mono fun _ hb => hb.1) hrun
    obtain ⟨c, hc, hblocks⟩ := hn.ready.holds.chain
    exact ⟨⟨i, hauthored⟩,
      generated_harmless hallowed.draws (hsound i).signature_length hc hblocks hround hrun⟩
  obtain ⟨hholds, hposts⟩ := h.bears Sendable.reloaded hmade hmsg hn.holds
  have hready := h.ready (hsound i) hn.ready
    (fun mock ha => ⟨(ha ▸ hallowed).draws, hround⟩)
    (fun msg ha => (hmsg msg ha).mono fun _ hb => hb.2)
  exact ⟨⟨hholds, hready.network, hready.asked, h.ticked hn.holds.represents hn.ticked⟩, hposts⟩

theorem Reachable.healthy (hsound : ∀ i, (D.member i).Sound) (h : D.Reachable S) :
    S.Holds (fun _ i p => D.Healthy i p.node) fun _ e => e.msg.Bears D.Sendable := by
  obtain ⟨S₀, hstarted, hleadsTo⟩ := h
  refine hleadsTo.always ?_ ⟨fun i => ?_, fun e he => ?_⟩
  · intro i p input p' posts hmove hp hinput
    have hkeeps := Process.Move.keeps (M := fun _ => True)
      (fun hallowed hleads _ hn => by
        obtain ⟨hn', hposts⟩ := Healthy.act hsound hn hallowed hleads hinput
        exact ⟨hn', hposts, fun _ _ => trivial⟩) hmove hp
    exact ⟨hkeeps.1, hkeeps.2.1⟩
  · have hnode := (hstarted.nodes i).node
    obtain ⟨fuel, hrun⟩ := hnode.bc
    obtain ⟨hround, hlt⟩ := updateRound_round hrun
    refine ⟨hnode.holds, (hstarted.nodes i).connected.consistent, fun hresyncing => ?_,
      ⟨_, hlt, hround⟩⟩
    rw [hnode.state] at hresyncing
    cases hresyncing
  · rw [(hstarted.hellos e he).1]
    trivial

/-- **Only update_round raises.** In every reachable system, a node can
read any message that is under way to it, and, unless its transactions are
made up, come to its read unless `update_round` raises. -/
theorem only_rounds_raise (hsound : ∀ i, (D.member i).Sound) (h : D.Reachable S) (i : ι) :
    (∀ t : Turn, (∀ sender msg, t.received = some (sender, msg) →
        ⟨sender, (D.member i).id, msg⟩ ∈ S.underWay) →
      ∃ l, onNode (receiveMessage (D.member i) t) (S.party i).loop = .ok () l) ∧
    ((D.member i).useMockTransactions = false →
      ∀ (fuel : Nat) (mock : Int → TransactionList),
        (∃ r l, advance (D.member i) fuel mock (S.party i).loop = .ok r l) ∨
          ∃ n₁ e, startResync (D.member i).toNodeEnv (S.party i).node = .ok () n₁ ∧
            raised (updateRound (D.member i).toEnv fuel) n₁.bc = some e) := by
  have hhealthy := h.healthy hsound
  have hready := (hhealthy.parties i).ready
  constructor
  · intro t hunderWay
    obtain ⟨_, l, hrun, -⟩ := onNode_returns (l := (S.party i).loop)
      (hready.receives (hsound i) fun sender msg hreceived =>
        (hhealthy.messages _ (hunderWay sender msg hreceived)).mono fun _ hb => hb.2)
    exact ⟨l, hrun⟩
  · intro hmock fuel mock
    rw [advance_unmocked hmock fuel mock fun _ => mockTransactionList []]
    refine (hready.advances (hsound i) (fun _ => ⟨[], rfl, rfl⟩) fuel).imp_left ?_
    rintro ⟨r, l, hrun, -⟩
    exact ⟨r, l, hrun⟩

end Deployment

/-! ## The pair -/

/-- A clock whose readings are whole rounds. -/
theorem roundAt_pair {seconds : Nat → Nat} {k m : Nat} (h : seconds k = 5 * m) (hm : m ≤ 1000) :
    roundAt (pairEnv.withTime (.ofNat seconds)) k = .ok m := by
  have hquotient : (Clock.ofNat seconds k - 0) / 5 = (m : ℚ) := by
    rw [Clock.ofNat_apply (by omega), h]
    push_cast
    ring
  show ((if (5 : ℚ) = 0 then _ else .ok ((Clock.ofNat seconds k - 0) / 5) : Except PyErr ℚ)
    >>= PyNum.trunc) = _
  rw [if_neg (by norm_num), hquotient]
  show Except.ok ((m : ℚ).num.tdiv (m : ℚ).den) = _
  rw [Rat.num_natCast, Rat.den_natCast, Nat.cast_one, Int.tdiv_one]

theorem datable_of_le {env : Env ℚ} {k m : Nat} {r : Int} (h : roundAt env k = .ok m)
    (hm : m ≤ 1000) (hr : roundAt env k = .ok r) : Datable r := by
  obtain rfl := Except.ok.inj (hr.symm.trans h)
  constructor <;> omega

theorem pair_sound (i : Pair) : (pair.member i).Sound where
  totalStake := by cases i <;> decide
  maximumNumPeers := by cases i <;> decide
  period := by cases i <;> decide
  signature_length := pair.signature_length i
  rounds k r hr := by
    cases i with
    | first =>
        have hle : min ((k + 1) / 2) 1000 ≤ 1000 := by omega
        exact datable_of_le (roundAt_pair rfl hle) hle hr
    | second =>
        have hround : ∃ m, (if k = 0 then 0 else if k ≤ 4 then 5 else 15) = 5 * m ∧ m ≤ 1000 := by
          split_ifs
          · exact ⟨0, by norm_num⟩
          · exact ⟨1, by norm_num⟩
          · exact ⟨3, by norm_num⟩
        obtain ⟨m, hm, hle⟩ := hround
        exact datable_of_le (roundAt_pair hm hle) hle hr

/-- The request of the second node, to the first. -/
theorem pair_only_rounds_raise :
    pairSystem.underWay.length = 1 ∧
      (∀ t : Turn, (∀ sender msg, t.received = some (sender, msg) →
          ⟨sender, (pair.member .first).id, msg⟩ ∈ pairSystem.underWay) →
        ∃ l, onNode (receiveMessage (pair.member .first) t) (pairSystem.party .first).loop
          = .ok () l) ∧
      ∀ (fuel : Nat) (mock : Int → TransactionList),
        (∃ r l, advance (pair.member .first) fuel mock (pairSystem.party .first).loop = .ok r l) ∨
          ∃ n₁ e, startResync (pair.member .first).toNodeEnv (pairSystem.party .first).node
              = .ok () n₁ ∧
            raised (updateRound (pair.member .first).toEnv fuel) n₁.bc = some e :=
  have hboth := Deployment.only_rounds_raise pair_sound pairSystem_reachable .first
  ⟨pairSystem_run.2.underWay, hboth.1, hboth.2 rfl⟩

end Cpos
