import Cpos.Provenance
import Cpos.Tolerance

/-!
# One block a round

A node makes a block only when its round has changed. Where its clock does
not go back, the rounds of the blocks that it makes rise
(`Process.Steady`). And since every block has an author, two blocks
anywhere in the system with one owner and one round are one block: the
same height, the same parent, the same ticket and transactions
(`no_equivocation`). Only the hash can differ, of a block read back from a
row that does not hold its transaction hash.
-/

namespace Cpos

open Python ByteString Sha256 LinkedChain BlockChain Actors

variable {ι K : Type} [PyNum K]

/-! ## Rounds never fall -/

/-- The current round is one that the clock has shown. -/
def Ticked (env : Env K) (s : BlockChain) : Prop :=
  ∃ k < s.clock, roundAt env k = .ok s.currentRound

theorem Ticked.of_sameRound {env : Env K} {s s' : BlockChain} (h : Ticked env s)
    (hsame : SameRound s s') : Ticked env s' := by
  obtain ⟨k, hk, hround⟩ := h
  exact ⟨k, lt_of_lt_of_le hk hsame.clock, by rw [hround, hsame.round]⟩

section Acts

variable {env : LoopEnv K} {n n' : Node} {a : Act}

/-- Only `update_round` changes the round. -/
theorem Act.Leads.sameRound (hn : ∃ c, Represents env.toEnv n.bc c)
    (ha : ∀ fuel, a ≠ .updateRound fuel) (h : a.Leads env n n') : SameRound n.bc n'.bc := by
  obtain ⟨c, hc⟩ := hn
  have hsame {bc : BlockChain} (hbc : bc = n.bc) : SameRound n.bc bc := by
    rw [hbc]
    exact refl_of SameRound _
  cases h.effect with
  | quiet h => exact hsame h.bc
  | rounds fuel bc hrun => exact absurd rfl (ha fuel)
  | produced block _ _ _ hrun _ => exact after_ok hrun ▸ insert_sameRound hc block
  | @delivered block _ _ _ _ _ hrun _ => exact after_ok hrun ▸ insert_sameRound hc block
  | started _ hbc _ _ _ => exact hsame hbc
  | noBlock _ _ hrest => exact hsame (hrest.bc.trans (chooseMissed_frame _ _).1)
  | aborted _ _ hrest =>
      rw [hrest.bc]
      exact ⟨rfl, le_refl _⟩
  | merged _ left bc hrun hrest =>
      have hmerge := after_ok hrun ▸ merge_sameRound hc _
      rw [hrest.bc]
      exact ⟨hmerge.round, hmerge.clock⟩
  | unmerged _ left bc hrun hrest =>
      rw [hrest.bc]
      exact after_ok hrun ▸ merge_sameRound hc _

/-- The current round comes from the clock, and does not fall. -/
structure Rising (env : LoopEnv K) (n n' : Node) : Prop where
  represents : ∃ c, Represents env.toEnv n'.bc c
  ticked : Ticked env.toEnv n'.bc
  round : n.bc.currentRound ≤ n'.bc.currentRound

theorem Act.Leads.rising (hclock : ClockRises env.toEnv)
    (hn : ∃ c, Represents env.toEnv n.bc c) (hticked : Ticked env.toEnv n.bc)
    (h : a.Leads env n n') : Rising env n n' := by
  have hn' := h.effect.represents hn
  by_cases ha : ∃ fuel, a = .updateRound fuel
  · obtain ⟨fuel, rfl⟩ := ha
    have hupdate : onChain (Cpos.updateRound env.toEnv fuel) n = .ok () n' := h
    obtain ⟨bc, hrun, rfl⟩ := focus_eq_ok hupdate
    obtain ⟨hround, hlt⟩ := updateRound_round hrun
    obtain ⟨k, hk, hround'⟩ := hticked
    exact ⟨hn', ⟨_, hlt, hround⟩, hclock k _ _ _ (le_of_lt hk) hround' hround⟩
  · have hsame := h.sameRound hn fun fuel hfuel => ha ⟨fuel, hfuel⟩
    exact ⟨hn', hticked.of_sameRound hsame, le_of_eq hsame.round.symm⟩

theorem Rising.trans {n₁ : Node} (h : Rising env n n₁) (h' : Rising env n₁ n') : Rising env n n' :=
  ⟨h'.represents, h'.ticked, h.round.trans h'.round⟩

theorem runActs_rising (hclock : ClockRises env.toEnv) {acts : List Act} : ∀ {n n' : Node},
    runActs env n acts = some n' → (∃ c, Represents env.toEnv n.bc c) → Ticked env.toEnv n.bc →
      Rising env n n' := by
  induction acts with
  | nil =>
      intro n n' h hn hticked
      cases h
      exact ⟨hn, hticked, le_refl _⟩
  | cons a acts ih =>
      intro n n' h hn hticked
      obtain ⟨n₁, hleads, hrest⟩ := runActs_cons h
      have h₁ := hleads.rising hclock hn hticked
      exact h₁.trans (ih hrest h₁.represents h₁.ticked)

end Acts

/-! ## A process -/

/-- An act makes one block at most. -/
theorem pairwise_made {env : LoopEnv K} {n : Node} {R : Block → Block → Prop} :
    ∀ a : Act, (a.made env n).Pairwise R
  | .produce mock => by
      rw [Act.made]
      split
      · cases (returned (generateBlock env.toNodeEnv mock) n.bc).getD none with
        | none => exact List.Pairwise.nil
        | some b => exact List.pairwise_singleton R b
      · exact List.Pairwise.nil
  | .startResync => List.Pairwise.nil
  | .updateRound _ => List.Pairwise.nil
  | .read _ => List.Pairwise.nil
  | .handle _ => List.Pairwise.nil
  | .controlPeers _ _ => List.Pairwise.nil

/-- `loop.round` is a round that the node has been in, and the blocks it
has made are of that round or of earlier ones, one a round. -/
structure Process.Steady (env : LoopEnv K) (p : Process) : Prop where
  represents : ∃ c, Represents env.toEnv p.node.bc c
  ticked : Ticked env.toEnv p.node.bc
  seen : ∀ r ∈ p.loop.round, r ≤ p.node.bc.currentRound ∧ ∀ m ∈ p.made, m.round ≤ r
  unseen : p.loop.round = none → p.made = []
  increasing : p.made.Pairwise fun m m' => m.round < m'.round

section Steady

variable {env : LoopEnv K} {p p' : Process}

/-- The node goes on in its round, or takes note of the one it is in. -/
theorem Process.Steady.sees (hp : p.Steady env) (hrising : Rising env p.node p'.node)
    (hmade : p'.made = p.made)
    (hround : p'.loop.round = p.loop.round ∨ p'.loop.round = some p'.node.bc.currentRound) :
    p'.Steady env := by
  refine ⟨hrising.represents, hrising.ticked, fun r hr => ?_, fun hnone => ?_,
    hmade ▸ hp.increasing⟩
  · rw [hmade]
    rcases hround with hround | hround
    · rw [hround] at hr
      obtain ⟨hle, hall⟩ := hp.seen r hr
      exact ⟨hle.trans hrising.round, hall⟩
    · rw [hround] at hr
      obtain rfl := Option.some.inj hr
      refine ⟨le_refl _, fun m hm => ?_⟩
      cases hseen : p.loop.round with
      | none =>
          rw [hp.unseen hseen] at hm
          cases hm
      | some r =>
          obtain ⟨hle, hall⟩ := hp.seen r hseen
          exact (hall m hm).trans (hle.trans hrising.round)
  · rcases hround with hround | hround
    · rw [hmade]
      exact hp.unseen (hround ▸ hnone)
    · rw [hround] at hnone
      cases hnone

/-- A block is made in a round in which there was none. -/
theorem Process.Steady.lt_of_roundChanged (hp : p.Steady env) {n : Node}
    (hrising : Rising env p.node n) (hround : roundChanged env { p.loop with node := n } = true) :
    ∀ m ∈ p.made, m.round < n.bc.currentRound := by
  intro m hm
  cases hseen : p.loop.round with
  | none =>
      rw [hp.unseen hseen] at hm
      cases hm
  | some r =>
      obtain ⟨hle, hall⟩ := hp.seen r hseen
      have hne : r ≠ n.bc.currentRound := by
        rw [roundChanged, hseen] at hround
        simpa using hround
      have := hall m hm
      have := hrising.round
      omega

theorem Process.Steady.move (hclock : ClockRises env.toEnv) {input : Option (Bytes × Message)}
    {posts : List Post} (h : Process.Move env p input p' posts) (hp : p.Steady env) :
    p'.Steady env := by
  have hrises {acts : List Act} {n : Node} (hrun : runActs env p.node acts = some n) :
      Rising env p.node n := runActs_rising hclock hrun hp.represents hp.ticked
  cases h with
  | @reads t loop _ h =>
      obtain ⟨n', hn', rfl⟩ := onNode_eq_ok h
      refine hp.sees (hrises (receiveMessage_runActs hn')) ?_ (.inl rfl)
      unfold Process.count
      split
      · rfl
      · rfl
      · rfl
  | @advances fuel mock reading loop _ hdraws h =>
      have hadvanced := advance_ok h
      have hrising : Rising env p.node loop.node := hrises hadvanced.runActs
      generalize advanceActs env fuel mock p.loop = acts at hadvanced ⊢
      cases hadvanced with
      | halted _ => exact hp.sees hrising (List.append_nil _) (.inl rfl)
      | waits _ => exact hp.sees hrising (List.append_nil _) (.inl rfl)
      | stays _ _ _ => exact hp.sees hrising (List.append_nil _) (.inl rfl)
      | aside _ _ _ => exact hp.sees hrising (List.append_nil _) (.inr rfl)
      | @produces n₁ n₂ n₃ hbegin hupdate hround hproduce =>
          have hrising₁ := hbegin.rising hclock hp.represents hp.ticked
          have hrising₂ :=
            hrising₁.trans (hupdate.rising hclock hrising₁.represents hrising₁.ticked)
          have hlt := hp.lt_of_roundChanged hrising₂ hround
          have hsame := hproduce.sameRound hrising₂.represents (by simp)
          have hmade : madeOf env p.node [.startResync, .updateRound fuel, .produce mock]
              = (Act.produce mock).made env n₂ := madeOf_produces hbegin hupdate
          have hnow : ∀ b ∈ (Act.produce mock).made env n₂, b.round = n₂.bc.currentRound := by
            intro b hb
            obtain ⟨_, -, hrun⟩ := of_mem_made hb
            exact (generateBlock_ok hrun).round
          refine ⟨hrising.represents, hrising.ticked, fun r hr => ?_, fun hnone => ?_, ?_⟩
          · obtain rfl := Option.some.inj hr
            refine ⟨le_of_eq hsame.round.symm, fun m hm => ?_⟩
            rcases List.mem_append.mp hm with hm | hm
            · exact le_of_lt (hlt m hm)
            · rw [hmade] at hm
              exact le_of_eq (hnow m hm)
          · cases hnone
          · show (p.made ++ madeOf env p.node _).Pairwise _
            rw [hmade, List.pairwise_append]
            refine ⟨hp.increasing, pairwise_made _, fun m hm m' hm' => ?_⟩
            rw [hnow m' hm']
            exact hlt m hm

end Steady

/-! ## The system -/

/-- What is left of a block when its transaction hash is lost. -/
def Block.body (b : Block) : Block := { b with transactionHash := [], hash := [] }

/-- The same of a row. -/
def Row.body (r : Row) : Row := { r.static with id := [], hash := [], merkleRoot := [] }

theorem Stores.body {r : Row} {b : Block} (h : Stores r b) : r.body = rowOf b.body := by
  have hrow : ({ rowOf b with id := [], hash := [], merkleRoot := [] } : Row) = rowOf b.body := rfl
  have hstatic : r.static = rowOf b := h
  rw [← hrow, ← hstatic]
  rfl

namespace Deployment

variable {D : Deployment ι K} {S : System ι} {b b' : Block}

theorem Started.steady {p : Process} {env : LoopEnv K} (h : p.Started env) : p.Steady env := by
  have hround := h.round
  have hmade := h.made
  obtain ⟨fuel, hrun⟩ := h.node.bc
  obtain ⟨hshown, hlt⟩ := updateRound_round hrun
  refine ⟨h.node.represents, ⟨0, hlt, hshown⟩, fun r hr => ?_, fun _ => hmade, ?_⟩
  · rw [hround] at hr
    cases hr
  · rw [hmade]
    exact List.Pairwise.nil

theorem Reachable.steady (hclock : ∀ i, ClockRises (D.member i).toEnv) (h : D.Reachable S)
    (i : ι) : (S.party i).Steady (D.member i) := by
  obtain ⟨S₀, hstarted, hleadsTo⟩ := h
  have hholds : S.Holds (fun _ i p => p.Steady (D.member i)) fun _ _ => True := by
    refine hleadsTo.always (fun hmove hp _ => ⟨?_, fun _ _ => trivial⟩)
      ⟨fun i => Started.steady (hstarted.nodes i), fun _ _ => trivial⟩
    exact Process.Steady.move (hclock _) hmove hp
  exact hholds.parties i

theorem body_of_copy {m : Block} (hm : m.Bound) (hcopy : b = m ∨ m.reloaded = .ok b) :
    b.body = m.body := by
  rcases hcopy with rfl | hre
  · rfl
  · rw [hm.reloaded_eq hre]
    rfl

theorem MadeBy.author_unique {i j : ι} (hb : D.MadeBy i b) (hb' : D.MadeBy j b')
    (howner : b.ownerPubkey = b'.ownerPubkey) : i = j :=
  D.publicKey_injective (hb.ownerPubkey.symm.trans (howner.trans hb'.ownerPubkey))

/-- Blocks with one owner and one round are copies of one block. -/
theorem Original.common (hclock : ∀ i, ClockRises (D.member i).toEnv) (h : D.Reachable S)
    (hb : D.Original S b) (hb' : D.Original S b') (howner : b.ownerPubkey = b'.ownerPubkey)
    (hround : b.round = b'.round) : ∃ i m, D.MadeBy i m ∧
      (b = m ∨ m.reloaded = .ok b) ∧ (b' = m ∨ m.reloaded = .ok b') := by
  obtain ⟨i, hi, m, hm, hcopy⟩ := hb
  obtain ⟨j, hj, m', hm', hcopy'⟩ := hb'
  obtain rfl := hi.author_unique hj howner
  have hmade := (h.authored.parties i).2
  have hbody := body_of_copy (hmade m hm).isSealed.bound hcopy
  have hbody' := body_of_copy (hmade m' hm').isSealed.bound hcopy'
  have hrounds : m.round = m'.round := by
    have hr : b.body.round = m.body.round := by rw [hbody]
    have hr' : b'.body.round = m'.body.round := by rw [hbody']
    exact hr.symm.trans (hround.trans hr')
  have hnodup : ((S.party i).made.map Block.round).Nodup :=
    List.pairwise_map.mpr ((h.steady hclock i).increasing.imp fun hlt => ne_of_lt hlt)
  obtain rfl := List.inj_on_of_nodup_map hnodup hm hm' hrounds
  exact ⟨i, m, hmade m hm, hcopy, hcopy'⟩

theorem Original.body_eq (hclock : ∀ i, ClockRises (D.member i).toEnv) (h : D.Reachable S)
    (hb : D.Original S b) (hb' : D.Original S b') (howner : b.ownerPubkey = b'.ownerPubkey)
    (hround : b.round = b'.round) : b.body = b'.body := by
  obtain ⟨i, m, hm, hcopy, hcopy'⟩ := hb.common hclock h hb' howner hround
  rw [body_of_copy hm.isSealed.bound hcopy, body_of_copy hm.isSealed.bound hcopy']

/-- The rows above the genesis row store blocks that their owners have
made. -/
theorem Reachable.row_original (h : D.Reachable S) {i : ι} {k : Nat} {r : Row}
    (hr : (S.party i).node.bc.localChains[k + 1]? = some r) :
    ∃ b, Stores r b ∧ D.Original S b := by
  obtain ⟨c, hc, hblocks⟩ := (h.traced.parties i).chain
  obtain ⟨b, hb, hst⟩ := hc.block_at hr
  exact ⟨b, hst, h.original (Chain.Holds.at_succ hblocks hb)⟩

/-- **No equivocation.** The blocks that a node makes are of ever later
rounds, and two blocks of one owner and one round that turn up anywhere,
in particular in two tables, are one block, up to the hash of its
transactions. -/
theorem no_equivocation (hclock : ∀ i, ClockRises (D.member i).toEnv) (h : D.Reachable S) :
    (∀ i, (S.party i).made.Pairwise fun m m' => m.round < m'.round) ∧
      (∀ b b', D.Original S b → D.Original S b' → b.ownerPubkey = b'.ownerPubkey →
        b.round = b'.round → b.body = b'.body) ∧
      ∀ i j, ∀ r ∈ (S.party i).node.bc.localChains.tail,
        ∀ r' ∈ (S.party j).node.bc.localChains.tail,
          r.ownerPubkey = r'.ownerPubkey → r.round = r'.round → r.body = r'.body := by
  have hblocks : ∀ b b', D.Original S b → D.Original S b' → b.ownerPubkey = b'.ownerPubkey →
      b.round = b'.round → b.body = b'.body := fun b b' hb hb' => hb.body_eq hclock h hb'
  refine ⟨fun i => (h.steady hclock i).increasing, hblocks, fun i j r hr r' hr' howner hround => ?_⟩
  have hstored {k : ι} {x : Row} (hx : x ∈ (S.party k).node.bc.localChains.tail) :
      ∃ b, Stores x b ∧ D.Original S b := by
    obtain ⟨p, hp⟩ := List.mem_iff_getElem?.mp hx
    rw [List.getElem?_tail] at hp
    exact h.row_original hp
  obtain ⟨b, hst, hb⟩ := hstored hr
  obtain ⟨b', hst', hb'⟩ := hstored hr'
  rw [hst.ownerPubkey, hst'.ownerPubkey] at howner
  rw [hst.round, hst'.round] at hround
  rw [hst.body, hst'.body, hblocks b b' hb hb' (hex_inj.mp howner) hround]

end Deployment

theorem pairWith_clockRises {time : Clock ℚ}
    (h : ClockRises ((pairWith time).member .second).toEnv) (i : Pair) :
    ClockRises ((pairWith time).member i).toEnv := by
  have hfirst : ClockRises (pairMember alice tickingTime (some 1)).toEnv :=
    clockRises_of_monotone (by decide +kernel) tickingTime_monotone
  cases i with
  | first => exact hfirst
  | second => exact h

theorem pair_clockRises : ∀ i : Pair, ClockRises (pair.member i).toEnv :=
  pairWith_clockRises (clockRises_of_monotone (by decide +kernel) stepTime_monotone)

/-- The three blocks of the first node. -/
theorem pair_no_equivocation :
    (pairSystem.party .first).made.length = 3 ∧
      (∀ i, (pairSystem.party i).made.Pairwise fun m m' => m.round < m'.round) ∧
      (∀ b b', pair.Original pairSystem b → pair.Original pairSystem b' →
        b.ownerPubkey = b'.ownerPubkey → b.round = b'.round → b.body = b'.body) ∧
      ∀ i j, ∀ r ∈ (pairSystem.party i).node.bc.localChains.tail,
        ∀ r' ∈ (pairSystem.party j).node.bc.localChains.tail,
          r.ownerPubkey = r'.ownerPubkey → r.round = r'.round → r.body = r'.body :=
  ⟨pairSystem_run.2.made, Deployment.no_equivocation pair_clockRises pairSystem_reachable⟩

end Cpos
