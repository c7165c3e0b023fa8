import Cpos.Connecting

/-!
# Blocks that come before their parents

A block without a parent in the chain is rejected by `insert`, and
`handle_new_block` keeps it in `missed_blocks`. The list is also a filter:
a block that is in it is discarded ("already discarded"). When the parent
has come and the block is delivered again, it is stored exactly if
neither filter holds its hash any more, and nothing but a resync takes it
off the list (`late_child`).
-/

namespace Cpos

open Python ByteString LinkedChain BlockChain

variable {K : Type} [PyNum K] {env : LoopEnv K} {n n' : Node} {b : Block}

/-- A listening node lets the block through to `insert`, and has no parent
for it: there is a gap, or a different block below its index. -/
structure Orphaned (env : NodeEnv K) (n : Node) (b : Block) : Prop where
  listening : n.state = .listening
  admits : admits env n b = true
  parentless : ∀ r ∈ n.bc.localChains, ¬(r.blockIndex = b.index - 1 ∧ r.hash = hex b.parentHash)

/-- The parent is the tip of a listening node, in an earlier round than
the block, and the block is in the tolerance range. -/
structure Adoptable (env : NodeEnv K) (n : Node) (b : Block) : Prop where
  listening : n.state = .listening
  tip : ∃ r ∈ n.bc.localChains.getLast?, r.blockIndex = b.index - 1 ∧
    r.hash = hex b.parentHash ∧ r.round < b.round
  inRange : n.bc.currentRound ≤ b.round ∧ b.round < n.bc.currentRound + env.parameters.tolerance + 1

instance (env : NodeEnv K) (n : Node) (b : Block) : Decidable (Orphaned env n b) :=
  decidable_of_iff (n.state = .listening ∧ admits env n b = true ∧
      ∀ r ∈ n.bc.localChains, ¬(r.blockIndex = b.index - 1 ∧ r.hash = hex b.parentHash))
    ⟨fun ⟨hstate, hadmits, hrows⟩ => ⟨hstate, hadmits, hrows⟩,
      fun h => ⟨h.listening, h.admits, h.parentless⟩⟩

instance (env : NodeEnv K) (n : Node) (b : Block) : Decidable (Adoptable env n b) :=
  decidable_of_iff (n.state = .listening ∧
      (∃ r ∈ n.bc.localChains.getLast?, r.blockIndex = b.index - 1 ∧
        r.hash = hex b.parentHash ∧ r.round < b.round) ∧
      n.bc.currentRound ≤ b.round ∧ b.round < n.bc.currentRound + env.parameters.tolerance + 1)
    ⟨fun ⟨hstate, htip, hround⟩ => ⟨hstate, htip, hround⟩,
      fun h => ⟨h.listening, h.tip, h.inRange⟩⟩

/-! ## The first delivery -/

theorem Orphaned.not_accepts {env : NodeEnv K} (h : Orphaned env n b)
    {c : Chain (rules env.toEnv)} (hc : Represents env.toEnv n.bc c) : ¬c.Accepts b := by
  intro hacc
  obtain ⟨p, w, hcounted, -⟩ := counted_of_accepts hacc
  obtain ⟨r, hr, hst⟩ := hc.row_at hcounted.parentAt
  have hindex := hcounted.toCandidate.index_eq
  refine h.parentless r (List.mem_of_getElem? hr) ⟨?_, ?_⟩
  · rw [hst.blockIndex]
    omega
  · rw [hst.hash, hcounted.parent]

/-- The orphan is missed. -/
theorem Orphaned.missed {env : NodeEnv K} (h : Orphaned env n b)
    (hn : ∃ c, Represents env.toEnv n.bc c) {peerId : Bytes} {r : Bool}
    (hrun : handleNewBlock env b peerId n = .ok r n') :
    r = false ∧ n'.state = .listening ∧ (b, peerId) ∈ n'.missedBlocks := by
  obtain ⟨c, hc⟩ := hn
  rcases handleNewBlock_ok hrun with ⟨hno, -⟩ | ⟨-, hinsert, hrest⟩
  · rw [h.admits] at hno
    cases hno
  have hfalse : r = false := by
    by_contra hne
    have htrue : r = true := Bool.not_eq_false _ ▸ hne
    refine h.not_accepts hc ((returned_insert_iff hc b).mp ?_)
    rw [returned_ok hinsert, htrue]
  subst hfalse
  refine ⟨rfl, hrest.state.trans h.listening, ?_⟩
  rw [hrest.missedBlocks]
  exact List.mem_append_right _ (List.mem_singleton_self _)

/-! ## The second delivery -/

/-- An adoptable block that fits its columns is accepted, if it is new to
the chain. -/
theorem Adoptable.accepts {env : NodeEnv K} (h : Adoptable env n b)
    {c : Chain (rules env.toEnv)} (hc : Represents env.toEnv n.bc c) (hvalid : b.Valid env.toEnv)
    (hfits : b.Storable) (hnew : ∀ r ∈ n.bc.localChains, r.hash ≠ hex b.hash) : c.Accepts b := by
  obtain ⟨r, hr, hindex, hhash, hround⟩ := h.tip
  rw [Option.mem_def, List.getLast?_eq_getElem?, hc.length] at hr
  obtain ⟨p, hp, hst⟩ := hc.block_at hr
  have hpos := c.length_pos
  have hpindex := index_at hp
  have hpb : p.index = b.index - 1 := hst.blockIndex.symm.trans hindex
  have hparent : b.parentHash = p.hash := by rw [← hex_inj, ← hst.hash, hhash]
  have hfresh : b.hash ∉ c.blocks.map Block.hash := (hc.no_row_iff _).mp hnew
  refine accepts_of_tip ?_ (by omega) hparent hvalid hfresh (hst.round ▸ hround) hfits
  rw [List.getLast?_eq_getElem?]
  exact hp

/-- An adoptable block that fits its columns is stored exactly if no
filter holds it back, and is the tip then. -/
theorem Adoptable.delivered {env : NodeEnv K} (h : Adoptable env n b)
    (hn : ∃ c, Represents env.toEnv n.bc c) (hnetwork : n.network.Consistent)
    (hvalid : b.Valid env.toEnv) (hfits : b.Storable) (hforeign : b.ownerPubkey ≠ env.publicKey)
    (peerId : Bytes) : ∃ r n', handleNewBlock env b peerId n = .ok r n' ∧
      ((Unknown n b.hash ∧ r = true ∧ ∃ row ∈ n'.bc.localChains.getLast?, row.hash = hex b.hash) ∨
        (¬Unknown n b.hash ∧ r = false ∧ n'.bc = n.bc)) := by
  obtain ⟨c, hc⟩ := hn
  have hids : (∀ r ∈ n.bc.localChains, r.id ≠ hex b.hash) ↔
      ∀ r ∈ n.bc.localChains, r.hash ≠ hex b.hash :=
    forall₂_congr fun r hr => by rw [hc.id_eq_hash hr]
  by_cases hunknown : Unknown n b.hash
  · have hacc := h.accepts hc hvalid hfits hunknown.1
    have hreturns : Returns (insert env.toEnv b) n.bc fun _ _ => True :=
      returns_iff.mpr ⟨true, (returned_insert_iff hc b).mpr hacc⟩
    obtain ⟨r, n', hrun, -⟩ := handleNewBlock_connects hnetwork hreturns peerId
    refine ⟨r, n', hrun, .inl ?_⟩
    have hadmits : admits env n b = true :=
      admits_iff.mpr ⟨h.inRange, hforeign, hids.mpr hunknown.1, hunknown.2⟩
    rcases handleNewBlock_ok hrun with ⟨hno, -⟩ | ⟨-, hinsert, -⟩
    · rw [hadmits] at hno
      cases hno
    have hout := insert_outcome hc b
    rw [hinsert] at hout
    cases hout with
    | accepted hacc hgraft =>
        refine ⟨hunknown, rfl, ?_⟩
        have hlast : (c.graft b hacc.1).blocks.getLast? = some b := by
          rw [Chain.blocks_graft, List.getLast?_concat]
        obtain ⟨row, hrow, hst⟩ := hgraft.row_last hlast
        exact ⟨row, hrow, hst.hash⟩
    | refused hno _ _ => exact absurd hacc hno
  · -- one of the filters discards it
    have hno : ¬admits env n b = true := fun hadmits => by
      obtain ⟨-, -, hrows, hmissed⟩ := admits_iff.mp hadmits
      exact hunknown ⟨hids.mp hrows, hmissed⟩
    refine ⟨false, { n with discardedBlocks := n.discardedBlocks + 1 }, ?_,
      .inr ⟨hunknown, rfl, rfl⟩⟩
    rw [run_handleNewBlock, if_neg hno]

/-! ## In between -/

/-- Unless a due resync is started, a listening node goes on listening,
and nothing leaves the list. -/
theorem Effect.keepsMissed {a : Act} (h : Effect env n a n') (hlistening : n.state = .listening)
    (hstart : ¬(a = .startResync ∧ Due n)) :
    n'.state = .listening ∧ n.missedBlocks ⊆ n'.missedBlocks := by
  have hnot (block : Option Block) (_ : a = .handle (.resyncResponse block)) :
      n.state ≠ .resyncing := by
    rw [hlistening]
    simp
  have hbystands := h.bystands hstart hnot
  exact ⟨hbystands.state.trans hlistening, hbystands.missedBlocks⟩

/-- Acts in which no resync is due. -/
def Undisturbed (env : LoopEnv K) : Node → Node → Prop :=
  Relation.ReflTransGen fun n n' =>
    ∃ a : Act, a.Leads env n n' ∧ ¬(a = .startResync ∧ Due n)

theorem Undisturbed.keepsMissed (h : Undisturbed env n n') (hlistening : n.state = .listening) :
    n'.state = .listening ∧ n.missedBlocks ⊆ n'.missedBlocks := by
  induction h with
  | refl => exact ⟨hlistening, List.Subset.refl _⟩
  | tail _ hact ih =>
      obtain ⟨a, hleads, hstart⟩ := hact
      obtain ⟨hstate, hmissed⟩ := ih
      obtain ⟨hstate', hmissed'⟩ := hleads.effect.keepsMissed hstate hstart
      exact ⟨hstate', List.Subset.trans hmissed hmissed'⟩

/-! ## Both deliveries -/

/-- **A child that comes before its parent.** It is missed. Delivered
again on top of its parent, it is put into the chain exactly if neither
the chain nor `missed_blocks` holds its hash; and if no resync was due in
between, `missed_blocks` does. -/
theorem late_child {n₀ n₁ n₂ : Node} {peerId : Bytes} {r : Bool}
    (hstarted : n₀.Started env.toNodeEnv) (hconnected : n₀.Connected env.id)
    (hbefore : Acts env n₀ n) (horphaned : Orphaned env.toNodeEnv n b) (hvalid : b.Valid env.toEnv)
    (hfits : b.Storable) (hfirst : handleNewBlock env.toNodeEnv b peerId n = .ok r n₁)
    (hbetween : Acts env n₁ n₂) (hadoptable : Adoptable env.toNodeEnv n₂ b) (peerId' : Bytes) :
    r = false ∧ (b, peerId) ∈ n₁.missedBlocks ∧
    (Undisturbed env n₁ n₂ → ¬Unknown n₂ b.hash) ∧
    ∃ r' n₃, handleNewBlock env.toNodeEnv b peerId' n₂ = .ok r' n₃ ∧
      ((∃ row ∈ n₃.bc.localChains.getLast?, row.hash = hex b.hash) ∧ r' = true
        ↔ Unknown n₂ b.hash) ∧
      (r' = false ↔ ¬Unknown n₂ b.hash) ∧
      (¬Unknown n₂ b.hash → n₃.bc = n₂.bc) := by
  have hn := hbefore.represents hstarted.represents
  obtain ⟨hr, hstate, hmissed⟩ := horphaned.missed hn hfirst
  have hdelivers : (Act.handle (.blockBroadcast b peerId)).Leads env n n₁ := by
    show handleMessage env.toNodeEnv (.blockBroadcast b peerId) n = .ok () n₁
    rw [run_handleMessage_broadcast horphaned.listening, bind_ok hfirst]
    rfl
  have hn₂ := hbetween.represents (hdelivers.acts.represents hn)
  have hall : Acts env n₀ n₂ := hbefore.trans (hdelivers.acts.trans hbetween)
  have hnetwork := hall.consistent hconnected.consistent
  have hforeign := (admits_iff.mp horphaned.admits).2.1
  refine ⟨hr, hmissed, fun hquiet hunknown => ?_, ?_⟩
  · exact hunknown.2 _ ((hquiet.keepsMissed hstate).2 hmissed) rfl
  obtain ⟨r', n₃, hsecond, hor⟩ := hadoptable.delivered hn₂ hnetwork hvalid hfits hforeign peerId'
  refine ⟨r', n₃, hsecond, ?_⟩
  rcases hor with ⟨hunknown, rfl, hlast⟩ | ⟨hknown, rfl, hbc⟩
  · exact ⟨iff_of_true ⟨hlast, rfl⟩ hunknown, iff_of_false (by simp) (not_not.mpr hunknown),
      fun h => absurd hunknown h⟩
  · exact ⟨iff_of_false (by simp) hknown, iff_of_true rfl hknown, fun _ => hbc⟩

/-! ## Two children -/

/-- The node is in round 1 all the time; `a2` is a child of `a1`. -/
def lateChildEnv : LoopEnv ℚ := loopEnv (.ofNat fun _ => 5) [a1, a2]

/-- `bob` sends `a2`, and later `a1` and `a2` again. -/
def actsBefore : List Act := sampleActs [] ++ [.startResync, .updateRound 10, .read bob]

def actsBetween : List Act :=
  [.controlPeers none id] ++ sampleActs [.blockBroadcast a1 bob]
    ++ [.startResync, .updateRound 10, .read bob]

/-- The node comes to round 3 when `a1` and `a3` have been sent. -/
def resyncedEnv : LoopEnv ℚ := loopEnv stepTime [a1, a2, a3]

/-- `bob` sends `a1` and `a3`, and `a2` when he is asked. -/
def actsBeforeResync : List Act :=
  sampleActs [] ++ sampleActs [.blockBroadcast a1 bob]
    ++ [.startResync, .updateRound 10, .read bob]

def actsResyncing : List Act :=
  [.controlPeers none id] ++ sampleActs [] ++ sampleActs [.resyncResponse (some a2)]
    ++ [.startResync, .updateRound 10, .read bob]

section Delivering

variable (env : LoopEnv ℚ) (b : Block)

def deliverLate (n : Node) : Option (Bool × Node) :=
  match handleNewBlock env.toNodeEnv b bob n with
  | .ok r n' => some (r, n')
  | .error _ _ => none

/-- What can be seen at the stages of a run in which `b` is delivered
between these acts. -/
def seesLate (before between : List Act) (seen : Node → Bool) : Bool :=
  ((runActs env (startLoop env).node before).any fun n =>
    (deliverLate env b n).any fun first => (runActs env first.2 between).any fun n₂ =>
      Orphaned env.toNodeEnv n b && Adoptable env.toNodeEnv n₂ b && seen n₂)

variable {env b}

theorem deliverLate_eq_some {r : Bool} (h : deliverLate env b n = some (r, n')) :
    handleNewBlock env.toNodeEnv b bob n = .ok r n' := by
  rw [deliverLate] at h
  split at h
  · cases h
    assumption
  · cases h

theorem acts_of_seesLate {before between : List Act} {seen : Node → Bool}
    (h : seesLate env b before between seen = true) : ∃ n n₁ n₂ : Node, ∃ r : Bool,
      Acts env (startLoop env).node n ∧ Orphaned env.toNodeEnv n b ∧
      handleNewBlock env.toNodeEnv b bob n = .ok r n₁ ∧ Acts env n₁ n₂ ∧
      Adoptable env.toNodeEnv n₂ b ∧ seen n₂ = true := by
  obtain ⟨n, hn, h⟩ := (Option.any_eq_true _ _).mp h
  obtain ⟨⟨r, n₁⟩, hfirst, h⟩ := (Option.any_eq_true _ _).mp h
  obtain ⟨n₂, hn₂, h⟩ := (Option.any_eq_true _ _).mp h
  simp only [Bool.and_eq_true, decide_eq_true_eq] at h
  obtain ⟨⟨horphaned, hadoptable⟩, hseen⟩ := h
  exact ⟨n, n₁, n₂, r, runActs_acts hn, horphaned, deliverLate_eq_some hfirst, runActs_acts hn₂,
    hadoptable, hseen⟩

end Delivering

theorem a2_valid : a2.Valid lateChildEnv.toEnv :=
  ⟨1, by decide +kernel, by decide⟩

/-- The child is delivered again on top of its parent, and does not come
into the chain. -/
theorem late_child_discarded : ∃ n n₁ n₂ n₃ : Node, ∃ r r' : Bool,
    (startLoop lateChildEnv).node.Started lateChildEnv.toNodeEnv ∧
    Acts lateChildEnv (startLoop lateChildEnv).node n ∧ Orphaned lateChildEnv.toNodeEnv n a2 ∧
    a2.Valid lateChildEnv.toEnv ∧
    handleNewBlock lateChildEnv.toNodeEnv a2 bob n = .ok r n₁ ∧ Acts lateChildEnv n₁ n₂ ∧
    Adoptable lateChildEnv.toNodeEnv n₂ a2 ∧
    handleNewBlock lateChildEnv.toNodeEnv a2 bob n₂ = .ok r' n₃ ∧
    ∀ row ∈ n₃.bc.localChains, row.hash ≠ hex a2.hash := by
  have hrun : seesLate lateChildEnv a2 actsBefore actsBetween (fun n₂ =>
      (deliverLate lateChildEnv a2 n₂).any fun second =>
        second.2.bc.localChains.all fun row => row.hash ≠ hex a2.hash) = true := by decide +kernel
  obtain ⟨n, n₁, n₂, r, hbefore, horphaned, hfirst, hbetween, hadoptable, hseen⟩ :=
    acts_of_seesLate hrun
  obtain ⟨⟨r', n₃⟩, hsecond, hout⟩ := (Option.any_eq_true _ _).mp hseen
  simp only [List.all_eq_true, decide_eq_true_eq] at hout
  exact ⟨n, n₁, n₂, n₃, r, r', startLoop_started _ (by decide +kernel), hbefore, horphaned,
    a2_valid, hfirst, hbetween, hadoptable, deliverLate_eq_some hsecond, hout⟩

/-- `a2` is still on the list and is discarded; `a3`, which was chosen for
a resync, is stored. -/
theorem late_child_sample :
    (∃ n₂ n₃ : Node, Adoptable lateChildEnv.toNodeEnv n₂ a2 ∧ ¬Unknown n₂ a2.hash ∧
      handleNewBlock lateChildEnv.toNodeEnv a2 bob n₂ = .ok false n₃ ∧ n₃.bc = n₂.bc) ∧
    ∃ n₂ n₃ : Node, Adoptable resyncedEnv.toNodeEnv n₂ a3 ∧ Unknown n₂ a3.hash ∧
      handleNewBlock resyncedEnv.toNodeEnv a3 bob n₂ = .ok true n₃ ∧
      ∃ row ∈ n₃.bc.localChains.getLast?, row.hash = hex a3.hash := by
  have hbob : bob ≠ sampleNodeEnv.id := by decide
  have hdiscarded : seesLate lateChildEnv a2 actsBefore actsBetween
      (fun n₂ => ¬Unknown n₂ a2.hash) = true := by decide +kernel
  have hstored : seesLate resyncedEnv a3 actsBeforeResync actsResyncing
      (fun n₂ => Unknown n₂ a3.hash) = true := by decide +kernel
  constructor
  · obtain ⟨n, n₁, n₂, r, hbefore, horphaned, hfirst, hbetween, hadoptable, hknown⟩ :=
      acts_of_seesLate hdiscarded
    obtain ⟨-, -, -, r', n₃, hsecond, -, hheld, hbc⟩ :=
      late_child (startLoop_started _ (by decide +kernel)) (startLoop_connected _ hbob) hbefore
        horphaned a2_valid (by decide +kernel) hfirst hbetween hadoptable bob
    have hknown := of_decide_eq_true hknown
    obtain rfl := hheld.mpr hknown
    exact ⟨n₂, n₃, hadoptable, hknown, hsecond, hbc hknown⟩
  · obtain ⟨n, n₁, n₂, r, hbefore, horphaned, hfirst, hbetween, hadoptable, hunknown⟩ :=
      acts_of_seesLate hstored
    obtain ⟨-, -, -, r', n₃, hsecond, hput, -, -⟩ :=
      late_child (startLoop_started _ (by decide +kernel)) (startLoop_connected _ hbob) hbefore
        horphaned ⟨1, by decide +kernel, by decide⟩ (by decide +kernel) hfirst hbetween hadoptable
        bob
    have hunknown := of_decide_eq_true hunknown
    obtain ⟨hlast, rfl⟩ := hput.mpr hunknown
    exact ⟨n₂, n₃, hadoptable, hunknown, hsecond, hlast⟩

end Cpos
