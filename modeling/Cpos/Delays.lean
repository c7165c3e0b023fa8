import Cpos.Equivocation

/-!
# Delays that are noted

`update_round` notes the delay of every block that it confirms, in rounds.
The list only grows, while rows come and go: a confirmed row can leave the
table, and its delay stays. Still every note is one of a block that its
owner has made, with its index and a delay of two rounds at least that
have passed since the block's round; and no confirmed row but the genesis
row is without one (`delays_noted`).

The loop writes them to its dump in the middle of a turn, where the same
holds (`MidTurn.noting`).
-/

namespace Cpos

open Python ByteString LinkedChain BlockChain Actors

variable {ι K : Type} [PyNum K]

/-- The chain that `dump_data` writes. -/
def dumpedBlocks : Call (List Block) := do
  lastNBlocks (← numberOfBlocks)

/-! ## Notes -/

/-- `[id, block_index, delay]` is a note of the block, as of this round. -/
structure NoteOf (b : Block) (round : Int) (note : Bytes × Int × Int) : Prop where
  id : note.1 = b.hash
  index : note.2.1 = b.index
  delay : 2 ≤ note.2.2
  passed : b.round + note.2.2 ≤ round

/-- The notes are of blocks with `O`, and every confirmed row but the
genesis row has one. -/
structure Noting (O : Block → Prop) (s : BlockChain) : Prop where
  sound : ∀ note ∈ s.confirmationDelays, ∃ b, O b ∧ NoteOf b s.currentRound note
  complete : ∀ r ∈ s.localChains, r.confirmed = 1 → r.blockIndex ≠ 0 →
    ∃ b, O b ∧ Stores r b ∧ ∃ note ∈ s.confirmationDelays, NoteOf b s.currentRound note

theorem NoteOf.mono {b : Block} {round round' : Int} {note : Bytes × Int × Int}
    (h : NoteOf b round note) (hle : round ≤ round') : NoteOf b round' note :=
  ⟨h.id, h.index, h.delay, h.passed.trans hle⟩

theorem Noting.mono {O O' : Block → Prop} (hO : ∀ b, O b → O' b) {s : BlockChain}
    (h : Noting O s) : Noting O' s :=
  ⟨fun note hnote => (h.sound note hnote).imp fun b hb => ⟨hO b hb.1, hb.2⟩,
    fun r hr hone hindex => (h.complete r hr hone hindex).imp fun b hb => ⟨hO b hb.1, hb.2⟩⟩

/-- No row is confirmed and no delay noted. -/
structure NotesNone (s s' : BlockChain) : Prop where
  rows : ∀ r ∈ s'.localChains, r.confirmed = 1 → r ∈ s.localChains
  confirmationDelays : s'.confirmationDelays = s.confirmationDelays
  currentRound : s'.currentRound = s.currentRound

instance : Std.Refl NotesNone where
  refl _ := ⟨fun _ hr _ => hr, rfl, rfl⟩

instance : IsTrans BlockChain NotesNone where
  trans _ _ _ h h' :=
    ⟨fun r hr hone => h.rows r (h'.rows r hr hone) hone,
      h'.confirmationDelays.trans h.confirmationDelays, h'.currentRound.trans h.currentRound⟩

theorem Noting.notesNone {O : Block → Prop} {s s' : BlockChain} (hs : Noting O s)
    (h : NotesNone s s') : Noting O s' := by
  refine ⟨?_, fun r hr hone hindex => ?_⟩
  · rw [h.confirmationDelays, h.currentRound]
    exact hs.sound
  · rw [h.confirmationDelays, h.currentRound]
    exact hs.complete r (h.rows r hr hone) hone hindex

section Store

variable {env : Env K} {s s' : BlockChain} {c : Chain (rules env)} {O : Block → Prop}

/-- A row that is counted is not confirmed. -/
theorem counted_notesNone (s : BlockChain) (i w : Int) : NotesNone s (s.counted i w) := by
  refine ⟨fun r' hr' hone => ?_, rfl, rfl⟩
  obtain ⟨r, hr, rfl⟩ := List.mem_map.mp hr'
  unfold Row.count at hone ⊢
  split at hone
  · next hcond =>
    have hzero : r.confirmed = 1 := hone
    omega
  · next hcond =>
    rw [if_neg hcond]
    exact hr

theorem cutTo_notesNone (s : BlockChain) (n : Nat) : NotesNone s (s.cutTo n) :=
  ⟨fun _ hr _ => List.mem_of_mem_take hr, rfl, rfl⟩

theorem insert_notesNone (h : Represents env s c) (b : Block) :
    NotesNone s (after (insert env b) s) := by
  refine after_insert_cases h b (refl_of NotesNone s) ?counted ?stored ?unfit
  case counted => exact fun _ w _ => counted_notesNone s b.index w
  case stored =>
    intro p w _ _
    have hstored : NotesNone (s.counted b.index w) ((s.counted b.index w).stored env b) := by
      refine ⟨fun r hr hone => ?_, rfl, rfl⟩
      rcases List.mem_append.mp hr with hr | hr
      · exact List.mem_of_mem_take hr
      · -- the new row is not confirmed
        rw [List.mem_singleton.mp hr] at hone
        cases hone
    exact trans_of NotesNone (counted_notesNone s b.index w) hstored
  case unfit =>
    intro p w _
    have hcut : NotesNone (s.counted b.index w)
        ((s.counted b.index w).ticked.cutTo b.index.toNat) :=
      ⟨fun _ hr _ => List.mem_of_mem_take hr, rfl, rfl⟩
    exact trans_of NotesNone (counted_notesNone s b.index w) hcut

theorem merge_notesNone (h : Represents env s c) (bs : List Block) :
    NotesNone s (after (merge env bs) s) := by
  refine merge_keeps (P := NotesNone s) ?_ ?_ ?_ bs h (refl_of NotesNone s)
  · exact fun i _ hs => trans_of NotesNone hs (cutTo_notesNone _ _)
  · exact fun _ _ hs => trans_of NotesNone hs (counted_notesNone _ _ _)
  · exact fun b h' hs => trans_of NotesNone hs (insert_notesNone h' b)

/-! ## Updating the round -/

/-- What is confirmed in a turn of the loop is noted. -/
theorem Noting.confirmed (h : Represents env s c) (hs : Noting O s) {r : Row} {b : Block}
    (hr : r ∈ s.localChains) (hst : Stores r b) (hb : O b) (last : Int)
    (hdelta : 0 < s.currentRound - r.round - 1) :
    Noting O { s.confirmed b.hash with
      confirmationDelays := s.confirmationDelays
        ++ [(b.hash, r.blockIndex, s.currentRound - r.round)]
      lastConfirmationDelay := s.currentRound - last } := by
  have hnote : NoteOf b s.currentRound (b.hash, r.blockIndex, s.currentRound - r.round) := by
    have hround := hst.round
    refine ⟨rfl, hst.blockIndex, ?_, ?_⟩
    · show 2 ≤ s.currentRound - r.round
      omega
    · show b.round + (s.currentRound - r.round) ≤ s.currentRound
      omega
  refine ⟨fun note hmem => ?_, fun r' hr' hone hindex => ?_⟩
  · rcases List.mem_append.mp hmem with hmem | hmem
    · exact hs.sound note hmem
    · obtain rfl := List.mem_singleton.mp hmem
      exact ⟨b, hb, hnote⟩
  · obtain ⟨r₀, hr₀, rfl⟩ := List.mem_map.mp hr'
    by_cases hsame : r₀.id = hex b.hash
    · obtain rfl : r₀ = r := List.inj_on_of_nodup_map h.ids_nodup hr₀ hr (hsame.trans hst.id.symm)
      have hconfirm : Row.confirm b.hash r₀ = { r₀ with confirmed := 1 } := if_pos hsame
      rw [hconfirm]
      exact ⟨b, hb, hst, _, List.mem_append_right _ (List.mem_singleton_self _), hnote⟩
    · have hconfirm : Row.confirm b.hash r₀ = r₀ := if_neg hsame
      rw [hconfirm] at hone hindex ⊢
      obtain ⟨b₀, hb₀, hst₀, note, hmem, hnote⟩ := hs.complete r₀ hr₀ hone hindex
      exact ⟨b₀, hb₀, hst₀, note, List.mem_append_left _ hmem, hnote⟩

theorem confirmLoop_noting (hblocks : Chain.Holds O c) {round last : Int} {thresholdFuel : Nat}
    (fuel : Nat) : ∀ {s : BlockChain} {avg : Option K} {locals : RoundLocals K},
      Represents env s c → s.currentRound = round → Noting O s →
      confirmLoop env round last thresholdFuel avg fuel s = .ok locals s' → Noting O s' := by
  induction fuel with
  | zero =>
      intro s avg locals _ _ _ hrun
      cases hrun
  | succ fuel ih =>
      intro s avg locals h hround hs hrun
      rw [confirmLoop] at hrun
      cases hr : oldest s.localChains with
      | none =>
          rw [bind_error (run_oldestUnconfirmedBlock_none hr)] at hrun
          cases hrun
      | some r =>
          obtain ⟨id, hid, holdest⟩ := run_oldestUnconfirmedBlock h hr
          rw [bind_ok holdest] at hrun
          simp only at hrun
          split at hrun
          swap
          · cases hrun
            exact hs
          next hdelta =>
          obtain ⟨q, s₁, hq, hrun⟩ := bind_eq_ok hrun
          obtain ⟨-, rfl⟩ := eval_eq_ok hq
          obtain ⟨t, s₂, ht, hrun⟩ := bind_eq_ok hrun
          obtain ⟨-, rfl⟩ := eval_eq_ok ht
          split at hrun
          swap
          · cases hrun
            exact hs
          have hmem : r ∈ s.localChains := List.mem_of_find?_eq_some hr
          obtain ⟨k, hk⟩ := List.mem_iff_getElem?.mp hmem
          obtain ⟨b, hb, hst⟩ := h.block_at hk
          obtain rfl : b.hash = id := hex_inj.mp (hst.id.symm.trans hid)
          -- the loop passes by the genesis row
          have hO : O b := by
            have hindex := h.indexed k r hk
            cases k with
            | zero => omega
            | succ k => exact hblocks.at_succ hb
          let s₁ : BlockChain := { s.confirmed b.hash with
            confirmationDelays := s.confirmationDelays
              ++ [(b.hash, r.blockIndex, s.currentRound - r.round)]
            lastConfirmationDelay := s.currentRound - last }
          have h₁ : Represents env s₁ c := h.confirms (confirmed_confirms s b.hash)
          have hs₁ : Noting O s₁ := by
            refine hs.confirmed h hmem hst hO last ?_
            rw [hround]
            exact hdelta.1
          exact ih h₁ hround hs₁ hrun

theorem detectFork_notesNone (thresholdFuel : Nat) (locals : RoundLocals K) :
    Keeps NotesNone (detectFork env thresholdFuel locals) := by
  unfold detectFork
  split
  · refine keeps_bind (keeps_eval _) fun thresh => ?_
    split
    · exact keeps_throw _
    · split
      · exact fun s => ⟨fun _ hr _ => hr, rfl, rfl⟩
      · exact keeps_pure _
  · exact keeps_pure _

/-- The notes stay good in later rounds. -/
theorem Noting.inRound (hs : Noting O s) {round : Int} (hle : s.currentRound ≤ round) :
    Noting O (s.inRound round) := by
  refine ⟨fun note hnote => ?_, fun r hr hone hindex => ?_⟩
  · obtain ⟨b, hb, hof⟩ := hs.sound note hnote
    exact ⟨b, hb, hof.mono hle⟩
  · obtain ⟨b, hb, hst, note, hnote, hof⟩ := hs.complete r hr hone hindex
    exact ⟨b, hb, hst, note, hnote, hof.mono hle⟩

/-- `update_round`, if the notes are good as of the round that it sets. -/
theorem updateRound_noting (h : Represents env s c) (hblocks : Chain.Holds O c) {fuel : Nat}
    (hrun : updateRound env fuel s = .ok () s') (hs : Noting O (s.inRound s'.currentRound)) :
    Noting O s' := by
  obtain ⟨round, hcurrent⟩ : ∃ round, s'.currentRound = round := ⟨_, rfl⟩
  have hround := (updateRound_round hrun).1
  rw [hcurrent] at hround hs
  rw [run_updateRound hround] at hrun
  split at hrun
  · obtain rfl : s.ticked = s' := (EStateM.Result.ok.inj hrun).2
    exact hs.notesNone ⟨fun _ hr _ => hr, rfl, hcurrent⟩
  let s₁ := s.ticked.inRound round
  have h₁ : Represents env s₁ c := ⟨h.rows, h.genesis, h.arrived⟩
  have hs₁ : Noting O s₁ := hs.notesNone ⟨fun _ hr _ => hr, rfl, rfl⟩
  obtain ⟨info, s₂, hinfo, hrun⟩ := bind_eq_ok hrun
  obtain rfl : s₁ = s₂ := keeps_lastConfirmedBlockInfo.of_ok hinfo
  obtain ⟨lastId, s₃, hlast, hrun⟩ := bind_eq_ok hrun
  obtain rfl : s₁ = s₃ := keeps_lastBlockId.of_ok hlast
  split at hrun
  · obtain rfl : s₁ = s' := (EStateM.Result.ok.inj hrun).2
    exact hs₁
  · obtain ⟨locals, s₄, hloop, hfork⟩ := bind_eq_ok hrun
    exact (confirmLoop_noting hblocks fuel h₁ rfl hs₁ hloop).notesNone
      ((detectFork_notesNone fuel locals).of_ok hfork)

end Store

/-! ## Acts -/

section Acts

variable {env : LoopEnv K} {n n' : Node} {a : Act}

theorem Act.Leads.noting {O : Block → Prop} (h : a.Leads env n n') (hn : n.Holds env.toEnv O)
    (hle : n.bc.currentRound ≤ n'.bc.currentRound) (hnoting : Noting O n.bc) :
    Noting O n'.bc := by
  obtain ⟨c, hc, hblocks⟩ := hn.chain
  have hflag {bc : BlockChain} (hbc : Noting O bc) :
      Noting O { bc with forkDetected := false } := hbc.notesNone ⟨fun _ hr _ => hr, rfl, rfl⟩
  have hinsert {b : Block} {stored : Bool}
      (hrun : Cpos.insert env.toEnv b n.bc = .ok stored n'.bc) : Noting O n'.bc :=
    after_ok hrun ▸ hnoting.notesNone (insert_notesNone hc b)
  have hmerge {bs left : List Block} {merged : Bool} {bc : BlockChain}
      (hrun : merge env.toEnv bs n.bc = .ok (merged, left) bc) : Noting O bc :=
    after_ok hrun ▸ hnoting.notesNone (merge_notesNone hc bs)
  cases h.effect with
  | quiet h => exact h.bc ▸ hnoting
  | rounds fuel bc hrun => exact updateRound_noting hc hblocks hrun (hnoting.inRound hle)
  | produced _ _ _ _ hrun _ => exact hinsert hrun
  | delivered _ _ _ hrun _ => exact hinsert hrun
  | started _ hbc _ _ _ => exact hbc ▸ hnoting
  | noBlock _ _ hrest =>
      have hbc := hrest.bc.trans (chooseMissed_frame _ _).1
      exact hbc ▸ hnoting
  | aborted _ _ hrest =>
      rw [hrest.bc]
      exact hflag hnoting
  | merged _ _ _ hrun hrest =>
      rw [hrest.bc]
      exact hflag (hmerge hrun)
  | unmerged _ _ _ hrun hrest =>
      rw [hrest.bc]
      exact hmerge hrun

end Acts

/-! ## Runs -/

namespace Deployment

variable {D : Deployment ι K} {S : System ι}

theorem Started.noting {O : Block → Prop} {p : Process} {env : LoopEnv K} (h : p.Started env) :
    Noting O p.node.bc := by
  obtain ⟨fuel, hrun⟩ := h.node.bc
  have h₀ : Represents env.toEnv .init (genesisChain env.toEnv) := represents_genesis rfl
  have hblocks : Chain.Holds O (genesisChain env.toEnv) := fun b hb =>
    .inl (List.mem_singleton.mp hb)
  refine updateRound_noting h₀ hblocks hrun ⟨fun note hnote => ?_, fun r hr _ hindex => ?_⟩
  · cases hnote
  · -- there is no other row at the start
    obtain rfl := List.mem_singleton.mp hr
    exact absurd rfl hindex

/-- The notes of every node are of blocks that have been made. -/
theorem Reachable.noting (hclock : ∀ i, ClockRises (D.member i).toEnv) (h : D.Reachable S)
    (i : ι) : Noting (D.Original S) (S.party i).node.bc := by
  have hreach := h
  obtain ⟨S₀, hstarted, hleadsTo⟩ := h
  have hholds : S.Holds (fun S _ p => Noting (Traced S) p.node.bc)
      fun S e => e.msg.Bears (Traced S) := by
    refine hleadsTo.holds_of_stable (fun hstep hp => hp.mono fun b => Traced.step hstep)
      (fun hstep hJ => hJ.mono fun b => Traced.step hstep) ?_
      ⟨fun i => Started.noting (hstarted.nodes i), fun e he => ?_⟩
    · intro S i input rest posts S' hleadsTo hholds hmoves hinput
      have hreachable : D.Reachable S := ⟨S₀, hstarted, hleadsTo⟩
      have hsteady := hreachable.steady hclock i
      have htraced := (hreachable.traced.parties i).mono fun b => Traced.step hmoves.step
      have hnoting := (hholds.parties i).mono fun b => Traced.step hmoves.step
      have hkeeps := Process.Move.keeps (J := fun p => p.2.Bears (Traced S'))
        (M := fun _ => True) (I := fun n => (n.Holds (D.member i).toEnv (Traced S') ∧
          Ticked (D.member i).toEnv n.bc) ∧ Noting (Traced S') n.bc)
        (fun {a n n'} hallowed hleads hsub hn => ?_) hmoves.move
        ⟨⟨htraced, hsteady.ticked⟩, hnoting⟩
      · exact ⟨hkeeps.1.2, hkeeps.2.1⟩
      · obtain ⟨c, hc, -⟩ := hn.1.1.chain
        have hrising := hleads.rising (hclock i) ⟨c, hc⟩ hn.1.2
        obtain ⟨hn', hposts⟩ := leads_traced hallowed hleads hsub (fun sender msg hread =>
          (hinput sender msg hread).mono fun b => Traced.step hmoves.step) hn.1.1
        exact ⟨⟨⟨hn', hrising.ticked⟩, hleads.noting hn.1.1 hrising.round hn.2⟩, hposts,
          fun _ _ => trivial⟩
    · rw [(hstarted.hellos e he).1]
      trivial
  exact (hholds.parties i).mono fun b => hreach.original

/-- **Delays.** In every state that a system reaches, if the clocks do not
go back, the delays that a node has noted are of blocks that their owners
have made, each of two rounds at least that have passed since the block's
own, and every confirmed row but the genesis row has one. -/
theorem delays_noted (hclock : ∀ i, ClockRises (D.member i).toEnv) (h : D.Reachable S) (i : ι) :
    Noting (D.Original S) (S.party i).node.bc :=
  h.noting hclock i

/-! ## In the middle of a turn -/

/-- A node as it may be in its turn when it comes to `dump_data`: it has
updated its round, and has not yet made a block. -/
def MidTurn (D : Deployment ι K) (S : System ι) (i : ι) (n : Node) : Prop :=
  ∃ n₁ fuel, Act.startResync.Leads (D.member i) (S.party i).node n₁ ∧
    (Act.updateRound fuel).Leads (D.member i) n₁ n

section MidTurn

variable {i : ι} {n n' : Node} {a : Act}

/-- An act that makes no block and reads no message. -/
theorem leads_traced_of_made_nil (hallowed : Allowed none a) (hmade : a.made (D.member i) n = [])
    (hleads : a.Leads (D.member i) n n') (hn : n.Holds (D.member i).toEnv (Traced S)) :
    n'.Holds (D.member i).toEnv (Traced S) := by
  have hsub : a.made (D.member i) n ⊆ (S.party i).made := by
    rw [hmade]
    exact List.nil_subset _
  exact (leads_traced hallowed hleads hsub (fun _ _ hread => nomatch hread) hn).1

theorem MidTurn.chain (h : D.Reachable S) (hn : D.MidTurn S i n) :
    ∃ c : Chain (rules (D.member i).toEnv),
      Represents (D.member i).toEnv n.bc c ∧ Chain.Holds (D.Original S) c := by
  obtain ⟨n₁, fuel, hbegin, hupdate⟩ := hn
  have hn₁ := leads_traced_of_made_nil .startResync rfl hbegin (h.traced.parties i)
  have hn₂ := leads_traced_of_made_nil (.updateRound fuel) rfl hupdate hn₁
  obtain ⟨c, hc, hblocks⟩ := hn₂.chain
  exact ⟨c, hc, fun b hb => (hblocks b hb).imp_right h.original⟩

theorem MidTurn.noting (hclock : ∀ i, ClockRises (D.member i).toEnv) (h : D.Reachable S)
    (hn : D.MidTurn S i n) : Noting (D.Original S) n.bc := by
  obtain ⟨n₁, fuel, hbegin, hupdate⟩ := hn
  have hsteady := h.steady hclock i
  have hn₁ := leads_traced_of_made_nil .startResync rfl hbegin (h.traced.parties i)
  have hrising₁ := hbegin.rising (hclock i) hsteady.represents hsteady.ticked
  have hrising := hupdate.rising (hclock i) hrising₁.represents hrising₁.ticked
  have hnoting₁ := hbegin.noting ((h.traced.parties i).mono fun _ => h.original) hrising₁.round
    (h.noting hclock i)
  exact hupdate.noting (hn₁.mono fun _ => h.original) hrising.round hnoting₁

end MidTurn

end Deployment

/-! ## A late node -/

/-- A clock that a node reads in the first round, then in the third, and
then in the fourth. -/
def lateTime : Clock ℚ :=
  .ofNat fun k => if k = 0 then 0 else if k ≤ 7 then 5 else if k = 8 then 15 else 20

theorem lateTime_monotone : Monotone lateTime.reading := by
  refine Clock.ofNat_monotone fun j k hjk => ?_
  split_ifs
  all_goals omega

def late : Deployment Pair ℚ := pairWith lateTime

/-- The first node makes three blocks. The second node stores them in the
first round, and confirms one in the third. -/
def lateHappenings : List (Happening Pair) :=
  [.advances .first 10 noRows, .idles .first, .advances .first 10 noRows, .idles .first,
    .advances .first 10 noRows, .advances .second 10 noRows, .advances .second 10 noRows,
    .reads .second 0 none id, .advances .second 10 noRows, .reads .second 0 none id,
    .advances .second 10 noRows, .reads .second 0 none id, .advances .second 10 noRows]

def lateSystem : System Pair := (late.happen (startOf late) lateHappenings).getD (startOf late)

/-- The second node in its next turn, before it would make a block. -/
def lateTurn (S : System Pair) : Option Node :=
  runActs (late.member .second) (S.party .second).node [.startResync, .updateRound 10]

/-- What the samples below read off this run. -/
structure LateFacts (S : System Pair) : Prop where
  plain : ∀ m ∈ (S.party .first).made, m.transactionHash = []
  hashes : ((genesisBlock.reloaded.toOption.toList ++ (S.party .first).made).flatMap
    fun b => [b.nodeHash, b.proofHash, b.hash]).Nodup
  made_second : (S.party .second).made = []
  confirmationDelays : (S.party .second).node.bc.confirmationDelays.map Prod.snd = [(1, 2)]
  rows : (lateTurn S).map (fun n => n.bc.localChains.map
    fun r => (r.confirmed, r.blockIndex, r.merkleRoot))
      = some [(1, 0, hex [0]), (1, 1, []), (0, 2, []), (0, 3, [])]
  dumped : ((lateTurn S).bind fun n => returned dumpedBlocks n.bc).isSome = true
  last : ((lateTurn S).bind fun n => returned lastConfirmedBlockInfo n.bc).map Prod.fst = some 1

instance (S : System Pair) : Decidable (LateFacts S) :=
  decidable_of_iff (_ ∧ _ ∧ _ ∧ _ ∧ _ ∧ _ ∧ _)
    ⟨fun ⟨h₁, h₂, h₃, h₄, h₅, h₆, h₇⟩ => ⟨h₁, h₂, h₃, h₄, h₅, h₆, h₇⟩,
      fun ⟨h₁, h₂, h₃, h₄, h₅, h₆, h₇⟩ => ⟨h₁, h₂, h₃, h₄, h₅, h₆, h₇⟩⟩

theorem lateSystem_run :
    late.happen (startOf late) lateHappenings = some lateSystem ∧ LateFacts lateSystem := by
  have hrun : ((late.happen (startOf late) lateHappenings).any fun S => LateFacts S) = true := by
    decide +kernel
  obtain ⟨S, hS, hfacts⟩ := (Option.any_eq_true _ _).mp hrun
  have hS' : lateSystem = S := by rw [lateSystem, hS, Option.getD_some]
  rw [hS']
  exact ⟨hS, of_decide_eq_true hfacts⟩

theorem lateSystem_reachable : late.Reachable lateSystem :=
  ⟨startOf late, startOf_started (by decide +kernel), Deployment.happen_leadsTo lateSystem_run.1⟩

theorem late_clockRises : ∀ i : Pair, ClockRises (late.member i).toEnv :=
  pairWith_clockRises (clockRises_of_monotone (by decide +kernel) lateTime_monotone)

theorem midTurn_lateTurn {n : Node} (h : lateTurn lateSystem = some n) :
    late.MidTurn lateSystem .second n := by
  obtain ⟨n₁, hbegin, hrest⟩ := runActs_cons h
  obtain ⟨n₂, hupdate, hrest⟩ := runActs_cons hrest
  obtain rfl : n₂ = n := Option.some.inj hrest
  exact ⟨n₁, 10, hbegin, hupdate⟩

/-- The block that the second node has confirmed. -/
theorem late_delays_noted :
    (lateSystem.party .second).node.bc.confirmationDelays.map Prod.snd = [(1, 2)] ∧
      Noting (late.Original lateSystem) (lateSystem.party .second).node.bc :=
  ⟨lateSystem_run.2.confirmationDelays,
    Deployment.delays_noted late_clockRises lateSystem_reachable .second⟩

end Cpos
