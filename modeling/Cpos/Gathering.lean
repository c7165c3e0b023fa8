import Cpos.Acts
import Cpos.MergeLaws
import Cpos.Reload

/-!
# Gathering the blocks of a peer

A resyncing node asks its peer for one block after another, from the tip
down, and puts each in front of those it has received. A request names a
position counted back from the peer's tip, and the peer's chain may change
between two answers. `Gathering` follows the node together with the
peer's table, and the table from which the peer took its last answer.

The received blocks are hash-linked as long as the position asked for
holds the block that it held at the answer before, that block is read back
with the hash it is stored under, and `merge` takes no block off the list
(`received_linked`).
-/

namespace Cpos

open Python ByteString LinkedChain BlockChain

variable {K : Type} [PyNum K] {env : LoopEnv K} {peerEnv : Env K} {n n' : Node}
  {s : BlockChain} {c : Chain (rules peerEnv)}

/-! ## A node and its peer -/

structure Gathering where
  node : Node
  peer : BlockChain
  answered : Option BlockChain

inductive GatheringOp where
  | peer (op : Op)
  | act (a : Act)
  | answer

/-- The peer changes its chain, the node does something else than treat a
response, or the peer answers the node's request. -/
inductive Gathering.Step (env : LoopEnv K) (peerEnv : Env K) :
    GatheringOp → Gathering → Gathering → Prop
  | peer {g : Gathering} (op : Op) :
      Step env peerEnv (.peer op) g { g with peer := Cpos.step peerEnv g.peer op }
  | act {g : Gathering} {n' : Node} {a : Act}
      (hother : ∀ block, a = .handle (.resyncResponse block) → g.node.state ≠ .resyncing)
      (h : a.Leads env g.node n') : Step env peerEnv (.act a) g { g with node := n' }
  | answer {g : Gathering} {n' : Node} {i : Int} {block : Option Block}
      (hresyncing : g.node.state = .resyncing) (hindex : g.node.requestIndex = some i)
      (hanswer : returned (resyncAnswer i) g.peer = some block)
      (h : (Act.handle (.resyncResponse block)).Leads env g.node n') :
      Step env peerEnv .answer g ⟨n', g.peer, some g.peer⟩

/-- The row at a position counted back from the end. -/
def rowAt (s : BlockChain) (i : Int) : Option Row :=
  s.localChains[(s.localChains.length + i).toNat]?

/-- The row is read back with the hash it is stored under. -/
def Reloads (s : BlockChain) (r : Row) : Prop :=
  ∀ b ∈ returned (composeBlock r) s, hex b.hash = r.hash

instance (s : BlockChain) (r : Row) : Decidable (Reloads s r) :=
  inferInstanceAs (Decidable (∀ b ∈ returned (composeBlock r) s, _))

/-- A further block: the position holds the same block as at the answer
before, that block is read back with its hash, and `merge` stores it if
it finds its parent. -/
structure Further (env : LoopEnv K) (g : Gathering) (i : Int) (block : Block) : Prop where
  samePlace : ∀ s₀ ∈ g.answered, (rowAt g.peer i).map Row.hash = (rowAt s₀ i).map Row.hash
  reloads : ∀ r ∈ rowAt g.peer i, Reloads g.peer r
  taken : ∀ insertion ∈ (mergeInsertions env.toEnv g.node.bc
    (block :: g.node.receivedResyncBlocks)).head?, insertion.Stored env.toEnv

instance (env : LoopEnv K) (g : Gathering) (i : Int) (block : Block) :
    Decidable (Further env g i block) :=
  decidable_of_iff
    ((∀ s₀ ∈ g.answered, (rowAt g.peer i).map Row.hash = (rowAt s₀ i).map Row.hash) ∧
      (∀ r ∈ rowAt g.peer i, Reloads g.peer r) ∧
      ∀ insertion ∈ (mergeInsertions env.toEnv g.node.bc
        (block :: g.node.receivedResyncBlocks)).head?, insertion.Stored env.toEnv)
    ⟨fun ⟨hsame, hreloads, htaken⟩ => ⟨hsame, hreloads, htaken⟩,
      fun h => ⟨h.samePlace, h.reloads, h.taken⟩⟩

/-- The first answer may be any, and so may one without a block. -/
def Gathering.Keeps (env : LoopEnv K) (g : Gathering) : GatheringOp → Prop
  | .answer => g.node.receivedResyncBlocks ≠ [] → ∀ i ∈ g.node.requestIndex,
      ∀ answer ∈ returned (resyncAnswer i) g.peer, ∀ block ∈ answer, Further env g i block
  | _ => True

instance (env : LoopEnv K) (g : Gathering) : ∀ op, Decidable (g.Keeps env op)
  | .peer _ => inferInstanceAs (Decidable True)
  | .act _ => inferInstanceAs (Decidable True)
  | .answer => inferInstanceAs (Decidable (_ → ∀ i ∈ g.node.requestIndex, _))

/-! ## The peer's answer -/

/-- What a block comes from: the row at the position, and the row below
it, which is its parent's. -/
structure AnsweredFrom (s : BlockChain) (i : Int) (block : Block) (row parent : Row) : Prop where
  rowAt_eq : rowAt s i = some row
  composed : returned (composeBlock row) s = some block
  parentAt : rowAt s (i - 1) = some parent
  parentHash : parent.hash = hex block.parentHash

theorem Represents.answeredFrom (h : Represents peerEnv s c) {i : Int} (hi : i < 0) {block : Block}
    (hanswer : returned (resyncAnswer i) s = some (some block)) :
    ∃ row parent, AnsweredFrom s i block row parent := by
  have hrun : resyncAnswer i s = (if c.blocks.length > |i| then
      blockByIndex i >>= fun b => pure (some b) else pure none : Call (Option Block)) s := by
    rw [resyncAnswer, bind_ok h.run_numberOfBlocks]
  have hok := ok_of_returned hanswer
  rw [hrun] at hok
  by_cases hlt : c.blocks.length > |i|
  swap
  · rw [if_neg hlt] at hok
    cases hok
  rw [if_pos hlt] at hok
  have habs : |i| = -i := abs_of_neg hi
  obtain ⟨k, hk⟩ : ∃ k : Nat, c.blocks.length + i = (k + 1 : Nat) :=
    ⟨(c.blocks.length + i - 1).toNat, by omega⟩
  have hb := List.getElem?_eq_getElem (l := c.blocks) (i := k + 1) (by omega)
  have hp := List.getElem?_eq_getElem (l := c.blocks) (i := k) (by omega)
  obtain ⟨row, hrow, hst⟩ := h.row_at hb
  obtain ⟨parent, hparent, hst'⟩ := h.row_at hp
  rw [← h.length] at hk
  have hat : rowAt s i = some row := by rw [rowAt, hk, Int.toNat_natCast, hrow]
  have hat' : rowAt s (i - 1) = some parent := by
    rw [rowAt, show s.localChains.length + (i - 1) = (k : Int) by omega, Int.toNat_natCast, hparent]
  obtain ⟨b, s₁, hblock, hpure⟩ := bind_eq_ok hok
  cases hpure
  rw [h.run_blockByIndex (i := k + 1) (by rw [if_pos hi, ← h.length, hk]) hb] at hblock
  obtain ⟨hreloaded, -⟩ := eval_eq_ok hblock
  have hcomposed : returned (composeBlock row) s = some block := by
    rw [returned, run_composeBlock hst]
    simp only [eval, hreloaded]
  obtain ⟨_, _, -, -, hfields⟩ := Block.update_eq_ok hreloaded
  refine ⟨row, parent, hat, hcomposed, hat', ?_⟩
  rw [hst'.hash, hfields]
  exact congrArg hex (follows_at hp hb).parent.symm

/-! ## The list and the next request -/

/-- The received blocks are linked, and the position asked for next held
the parent of the oldest of them when the peer answered last. -/
structure Gathered (g : Gathering) : Prop where
  linked : Linked g.node.receivedResyncBlocks
  idle : g.node.state = .listening → g.node.receivedResyncBlocks = []
  asks : g.node.state = .resyncing → ∃ i < 0, g.node.requestIndex = some i
  next : ∀ oldest ∈ g.node.receivedResyncBlocks.head?, ∃ s₀ ∈ g.answered,
    ∃ i ∈ g.node.requestIndex, ∃ r ∈ rowAt s₀ i, r.hash = hex oldest.parentHash

/-- Nothing is received. -/
theorem gathered_nil {g : Gathering} (hreceived : g.node.receivedResyncBlocks = [])
    (hasks : g.node.state = .resyncing → ∃ i < 0, g.node.requestIndex = some i) :
    Gathered g := by
  refine ⟨?_, fun _ => hreceived, hasks, ?_⟩
  · rw [hreceived]
    exact List.isChain_nil
  · rw [hreceived]
    intro oldest hmem
    cases hmem

/-- What belongs to the resync is the same. -/
theorem Gathered.frame {g g' : Gathering} (hg : Gathered g) (hstate : g'.node.state = g.node.state)
    (hreceived : g'.node.receivedResyncBlocks = g.node.receivedResyncBlocks)
    (hindex : g'.node.requestIndex = g.node.requestIndex) (hanswered : g'.answered = g.answered) :
    Gathered g' := by
  obtain ⟨hlinked, hidle, hasks, hnext⟩ := hg
  refine ⟨?_, ?_, ?_, ?_⟩
  · rwa [hreceived]
  · rwa [hstate, hreceived]
  · rwa [hstate, hindex]
  · rwa [hreceived, hindex, hanswered]

theorem chooseMissed_asks {env : NodeEnv K} (hmissed : n.missedBlocks ≠ []) :
    (chooseMissed env n).requestIndex = some (-1) := (chooseMissed_of_ne_nil hmissed).1

/-- The node does something else than treat a response. -/
theorem Gathered.act {g : Gathering} (hg : Gathered g) {a : Act}
    (hother : ∀ block, a = .handle (.resyncResponse block) → g.node.state ≠ .resyncing)
    (h : Effect env g.node a n') : Gathered { g with node := n' } := by
  by_cases hstart : a = .startResync ∧ Due g.node
  swap
  · have hbystands := h.bystands hstart hother
    exact hg.frame hbystands.state hbystands.receivedResyncBlocks hbystands.requestIndex rfl
  obtain ⟨rfl, -⟩ := hstart
  cases h with
  | quiet h => exact hg.frame h.state h.receivedResyncBlocks h.requestIndex rfl
  | started hdue _ _ hreceived hasks =>
      refine gathered_nil (hreceived.trans (hg.idle hdue.1)) fun hresyncing => ?_
      exact ⟨-1, by decide, hasks hresyncing⟩

/-- A merge that fails leaves the list as it is, if the head is stored
where its parent is found, and less of it otherwise. -/
theorem unmerged_left {env : Env K} {s : BlockChain} (hn : ∃ c, Represents env s c)
    {block : Block} {received left : List Block} {bc : BlockChain}
    (hrun : merge env (block :: received) s = .ok (false, left) bc) :
    left = block :: received ∨
    left = received ∧ ∃ insertion ∈ (mergeInsertions env s (block :: received)).head?,
      ¬insertion.Stored env := by
  obtain ⟨c, hc⟩ := hn
  have hprints := allPrintable_of_returned (returned_ok hrun)
  have hspec := merge_spec hc hprints
  rw [hrun] at hspec
  have hpopped {k : Nat} {p : Block} (hf : ForkAt c block k p)
      (hno : ¬(upTo c k).Accepts block) : ∃ insertion ∈
        (mergeInsertions env s (block :: received)).head?, ¬insertion.Stored env := by
    rw [mergeInsertions_of_fork hc hf hprints, insertionsFrom]
    refine ⟨_, rfl, fun hstored => hno ?_⟩
    exact (returned_insert_iff (hc.upTo k) block).mp hstored
  cases hspec with
  | noAncestor _ => exact .inl rfl
  | rejected k p hf hrefused => exact .inr ⟨rfl, hpopped hf hrefused.not_accepts⟩
  | sameRound k p w hf hcounted hround =>
      exact .inr ⟨rfl, hpopped hf (hcounted.not_accepts fun _ => by omega)⟩

/-- The block that comes is the parent of the oldest one received. -/
theorem Gathered.linked_cons {g : Gathering} (hg : Gathered g) {i : Int} {block : Block}
    {row parent : Row} (hindex : g.node.requestIndex = some i)
    (hfrom : AnsweredFrom g.peer i block row parent)
    (hfurther : g.node.receivedResyncBlocks ≠ [] → Further env g i block) :
    Linked (block :: g.node.receivedResyncBlocks) := by
  obtain ⟨hlinked, -, -, hnext⟩ := hg
  cases hreceived : g.node.receivedResyncBlocks with
  | nil => exact List.isChain_singleton _
  | cons oldest rest =>
      rw [hreceived] at hlinked hnext hfurther
      obtain ⟨s₀, hs₀, i', hi', r, hr, hparent⟩ := hnext oldest rfl
      obtain rfl : i = i' := Option.some.inj (hindex.symm.trans hi')
      obtain ⟨hsame, hreloads, -⟩ := hfurther (List.cons_ne_nil _ _)
      have hplace := hsame s₀ hs₀
      rw [hfrom.rowAt_eq, show rowAt s₀ i = some r from hr] at hplace
      have hhash : row.hash = r.hash := Option.some.inj hplace
      have hblock := hreloads row hfrom.rowAt_eq block hfrom.composed
      refine List.isChain_cons_cons.mpr ⟨?_, hlinked⟩
      rw [← hex_inj, ← hparent, ← hhash, hblock]

/-- An answer without a block empties the list. -/
theorem received_of_none (hresyncing : n.state = .resyncing)
    (h : (Act.handle (.resyncResponse none)).Leads env n n') : n'.receivedResyncBlocks = [] := by
  have h' : handleMessage env.toNodeEnv (.resyncResponse none) n = .ok () n' := h
  rw [run_handleMessage_response hresyncing] at h'
  rcases response_none_ok h' with ⟨-, sent, hsend⟩ | ⟨-, rfl⟩
  · obtain ⟨network, rfl⟩ := sendRequest_network hsend
    exact (chooseMissed_frame env.toNodeEnv { n with receivedResyncBlocks := [] }).2.2
  · rfl

/-- An answer that is not treated. -/
theorem Gathered.answer_quiet {g : Gathering} (hg : Gathered g) {i : Int} {block : Block}
    (hindex : g.node.requestIndex = some i) (h : Quiet g.node n')
    (hfurther : g.node.receivedResyncBlocks ≠ [] → Further env g i block) :
    Gathered ⟨n', g.peer, some g.peer⟩ := by
  refine ⟨?_, ?_, ?_, ?_⟩
  · rw [h.receivedResyncBlocks]
    exact hg.linked
  · rw [h.state, h.receivedResyncBlocks]
    exact hg.idle
  · rw [h.state, h.requestIndex]
    exact hg.asks
  · rw [h.receivedResyncBlocks, h.requestIndex]
    intro oldest holdest
    obtain ⟨s₀, hs₀, i', hi', r, hr, hhash⟩ := hg.next oldest holdest
    obtain rfl : i = i' := Option.some.inj (hindex.symm.trans hi')
    have hne : g.node.receivedResyncBlocks ≠ [] := fun hnil => by
      rw [hnil] at holdest
      cases holdest
    have hplace := (hfurther hne).samePlace s₀ hs₀
    rw [show rowAt s₀ i = some r from hr, Option.map_some] at hplace
    obtain ⟨row, hrow, hsame⟩ := Option.map_eq_some_iff.mp hplace
    exact ⟨g.peer, rfl, i, hi', row, hrow, hsame.trans hhash⟩

/-- An answer that cannot be merged is kept, and the one below it asked
for. -/
theorem Gathered.answer_unmerged {g : Gathering} (hg : Gathered g) {i : Int} {block : Block}
    {row parent : Row} (hindex : g.node.requestIndex = some i) (hneg : i < 0)
    (hfrom : AnsweredFrom g.peer i block row parent)
    (hfurther : g.node.receivedResyncBlocks ≠ [] → Further env g i block)
    (hstate : n'.state = .resyncing) (hindex' : n'.requestIndex = some (i - 1))
    (hreceived : n'.receivedResyncBlocks = block :: g.node.receivedResyncBlocks) :
    Gathered ⟨n', g.peer, some g.peer⟩ := by
  refine ⟨?_, ?_, fun _ => ⟨i - 1, by omega, hindex'⟩, ?_⟩
  · rw [hreceived]
    exact hg.linked_cons hindex hfrom hfurther
  · rw [hstate]
    intro hno
    cases hno
  · rw [hreceived]
    rintro _ ⟨⟩
    exact ⟨g.peer, rfl, i - 1, hindex', parent, hfrom.parentAt, hfrom.parentHash⟩

/-- **An answer.** -/
theorem Gathered.answer {g : Gathering} (hg : Gathered g)
    (hn : ∃ c, Represents env.toEnv g.node.bc c) (hpeer : ∃ c, Represents peerEnv g.peer c)
    {i : Int} {block : Option Block} (hresyncing : g.node.state = .resyncing)
    (hindex : g.node.requestIndex = some i)
    (hanswer : returned (resyncAnswer i) g.peer = some block)
    (h : (Act.handle (.resyncResponse block)).Leads env g.node n')
    (hkeeps : g.Keeps env .answer) : Gathered ⟨n', g.peer, some g.peer⟩ := by
  have hfurther (b : Block) (hb : block = some b) (hne : g.node.receivedResyncBlocks ≠ []) :
      Further env g i b := hkeeps hne i hindex block hanswer b hb
  have hneg : i < 0 := by
    obtain ⟨i', hi', hindex'⟩ := hg.asks hresyncing
    obtain rfl := Option.some.inj (hindex.symm.trans hindex')
    exact hi'
  have hends (hstate : n'.state = .listening) (hreceived : n'.receivedResyncBlocks = []) :
      Gathered ⟨n', g.peer, some g.peer⟩ := by
    refine gathered_nil hreceived fun hno => ?_
    rw [show n'.state = .listening from hstate] at hno
    cases hno
  cases h.effect with
  | quiet hquiet =>
      cases block with
      | some b => exact hg.answer_quiet hindex hquiet (hfurther b rfl)
      | none =>
          refine gathered_nil (received_of_none hresyncing h) fun _ => ?_
          exact ⟨i, hneg, hquiet.requestIndex.trans hindex⟩
  | noBlock _ hmissed hrest =>
      have hframe := chooseMissed_frame env.toNodeEnv { g.node with receivedResyncBlocks := [] }
      refine gathered_nil (hrest.receivedResyncBlocks.trans hframe.2.2) fun _ => ?_
      exact ⟨-1, by decide, hrest.requestIndex.trans (chooseMissed_asks hmissed)⟩
  | aborted _ _ hrest => exact hends hrest.state hrest.receivedResyncBlocks
  | merged _ _ _ _ hrest => exact hends hrest.state hrest.receivedResyncBlocks
  | @unmerged block _ _ left bc hrun hrest =>
      have hindex' : n'.requestIndex = some (i - 1) := by
        rw [hrest.requestIndex, hindex]
        rfl
      rcases unmerged_left hn hrun with rfl | ⟨rfl, insertion, hfirst, hno⟩
      · obtain ⟨c, hc⟩ := hpeer
        obtain ⟨row, parent, hfrom⟩ := hc.answeredFrom hneg hanswer
        exact hg.answer_unmerged hindex hneg hfrom (hfurther block rfl)
          (hrest.state.trans hresyncing) hindex' hrest.receivedResyncBlocks
      · -- the head is popped only where nothing else has been received
        by_cases hnil : g.node.receivedResyncBlocks = []
        · exact gathered_nil (hrest.receivedResyncBlocks.trans hnil) fun _ =>
            ⟨i - 1, by omega, hindex'⟩
        · exact absurd ((hfurther block rfl hnil).taken insertion hfirst) hno

/-! ## Runs -/

/-- Steps that keep the list linked. -/
def Gathering.Reaches (env : LoopEnv K) (peerEnv : Env K) : Gathering → Gathering → Prop :=
  Relation.ReflTransGen fun g g' =>
    ∃ op, Gathering.Step env peerEnv op g g' ∧ g.Keeps env op

/-- The node's chain and the peer's are chains all the time. -/
structure Gathering.Represented (env : LoopEnv K) (peerEnv : Env K) (g : Gathering) : Prop where
  node : ∃ c, Represents env.toEnv g.node.bc c
  peer : ∃ c, Represents peerEnv g.peer c

theorem Gathering.Represented.step {op : GatheringOp} {g g' : Gathering}
    (h : Gathering.Step env peerEnv op g g') (hg : g.Represented env peerEnv) :
    g'.Represented env peerEnv := by
  obtain ⟨hnode, hpeer⟩ := hg
  cases h with
  | peer op =>
      obtain ⟨c, hc⟩ := hpeer
      obtain ⟨c', hc', -⟩ := step_represents hc op
      exact ⟨hnode, c', hc'⟩
  | act _ hleads => exact ⟨hleads.effect.represents hnode, hpeer⟩
  | answer _ _ _ hleads => exact ⟨hleads.effect.represents hnode, hpeer⟩

theorem Gathered.step {op : GatheringOp} {g g' : Gathering} (hg : Gathered g)
    (hrepresented : g.Represented env peerEnv) (h : Gathering.Step env peerEnv op g g')
    (hkeeps : g.Keeps env op) : Gathered g' := by
  cases h with
  | peer op => exact hg.frame rfl rfl rfl rfl
  | act hother hleads => exact hg.act hother hleads.effect
  | answer hresyncing hindex hanswer hleads =>
      exact hg.answer hrepresented.node hrepresented.peer hresyncing hindex hanswer hleads hkeeps

/-- **One chain segment.** In every run in which the positions asked for
keep their blocks, these are read back with their hashes, and no block is
popped from the list, the received blocks are hash-linked. -/
theorem received_linked {g₀ g : Gathering} (hstarted : g₀.node.Started env.toNodeEnv)
    (hpeer : Reachable peerEnv g₀.peer) (h : g₀.Reaches env peerEnv g) :
    Linked g.node.receivedResyncBlocks := by
  have hall : Gathered g ∧ g.Represented env peerEnv := by
    induction h with
    | refl =>
        refine ⟨gathered_nil hstarted.receivedResyncBlocks fun hresyncing => ?_,
          hstarted.represents, hpeer.represents⟩
        rw [hstarted.state] at hresyncing
        cases hresyncing
    | tail _ hstep ih =>
        obtain ⟨op, hstep, hkeeps⟩ := hstep
        obtain ⟨hg, hrepresented⟩ := ih
        exact ⟨hg.step hrepresented hstep hkeeps, hrepresented.step hstep⟩
  exact hall.1.linked

/-! ## A list that is not linked, and one that is -/

/-- One operation, if it does not raise. -/
def Gathering.next (env : LoopEnv K) (peerEnv : Env K) (g : Gathering) :
    GatheringOp → Option Gathering
  | .peer op => some { g with peer := Cpos.step peerEnv g.peer op }
  | .act a =>
      if a.isResponse then none
      else match a.call env g.node with
        | .ok _ n' => some { g with node := n' }
        | .error _ _ => none
  | .answer =>
      if g.node.state = .resyncing then do
        let i ← g.node.requestIndex
        let block ← returned (resyncAnswer i) g.peer
        match (Act.handle (.resyncResponse block)).call env g.node with
        | .ok _ n' => some ⟨n', g.peer, some g.peer⟩
        | .error _ _ => none
      else none

theorem Gathering.next_step {op : GatheringOp} {g g' : Gathering}
    (h : g.next env peerEnv op = some g') : Gathering.Step env peerEnv op g g' := by
  cases op with
  | peer op =>
      cases h
      exact .peer op
  | act a =>
      rw [Gathering.next] at h
      split at h
      · cases h
      · next hresponse =>
          split at h
          · next n' hcall =>
              cases h
              refine .act (fun block ha => ?_) hcall
              rw [ha] at hresponse
              exact absurd rfl hresponse
          · cases h
  | answer =>
      rw [Gathering.next] at h
      split at h
      · next hresyncing =>
          obtain ⟨i, hindex, h⟩ := Option.bind_eq_some_iff.mp h
          obtain ⟨block, hanswer, h⟩ := Option.bind_eq_some_iff.mp h
          split at h
          · next n' hcall =>
              cases h
              exact .answer hresyncing hindex hanswer hcall
          · cases h
      · cases h

/-- Operations that are all right. -/
def Gathering.run (env : LoopEnv K) (peerEnv : Env K) (ok : Gathering → GatheringOp → Bool) :
    Gathering → List GatheringOp → Option Gathering
  | g, [] => some g
  | g, op :: ops =>
      if ok g op then (g.next env peerEnv op).bind fun g' => g'.run env peerEnv ok ops else none

theorem Gathering.run_steps {ok : Gathering → GatheringOp → Bool} {ops : List GatheringOp} :
    ∀ {g g' : Gathering}, g.run env peerEnv ok ops = some g' →
      Relation.ReflTransGen (fun g g' => ∃ op, Gathering.Step env peerEnv op g g' ∧
        ok g op = true) g g' := by
  induction ops with
  | nil =>
      intro g g' h
      cases h
      exact .refl
  | cons op ops ih =>
      intro g g' h
      rw [Gathering.run] at h
      split at h
      · next hok =>
          obtain ⟨g₁, hnext, h⟩ := Option.bind_eq_some_iff.mp h
          exact .head ⟨op, Gathering.next_step hnext, hok⟩ (ih h)
      · cases h

/-- The node takes `b1` and misses `a3`. In round 3 it detects a fork and
asks `bob`, whose chain has `a1` and `a2`. -/
def gatheringEnv : LoopEnv ℚ := loopEnv stepTime [a1, b1, a2, a3]

def gatheringStart (blocks : List Block) : Gathering where
  node := (startLoop gatheringEnv).node
  peer := run gatheringEnv.toEnv .init (blocks.map .insert)
  answered := none

def gatheringOps : List GatheringOp :=
  let acts : List Act := sampleActs [] ++ sampleActs [.blockBroadcast b1 bob]
    ++ sampleActs [.blockBroadcast a3 bob] ++ sampleActs [] ++ [.startResync, .updateRound 10, .read bob]
  acts.map .act

/-- `bob` appends `a3` between two answers and sends `a2` twice. -/
theorem received_not_linked : ∃ g : Gathering,
    (gatheringStart [a1, a2]).node.Started gatheringEnv.toNodeEnv ∧
    Reachable gatheringEnv.toEnv (gatheringStart [a1, a2]).peer ∧
    Relation.ReflTransGen (fun g g' => ∃ op, Gathering.Step gatheringEnv gatheringEnv.toEnv op g g')
      (gatheringStart [a1, a2]) g ∧
    g.node.receivedResyncBlocks = [a2, a2] ∧ ¬Linked g.node.receivedResyncBlocks := by
  have hrun : (((gatheringStart [a1, a2]).run gatheringEnv gatheringEnv.toEnv (fun _ _ => true)
      (gatheringOps ++ [.answer, .peer (.insert a3), .answer])).map fun g =>
        g.node.receivedResyncBlocks) = some [a2, a2] := by decide +kernel
  obtain ⟨g, hg, hreceived⟩ := Option.map_eq_some_iff.mp hrun
  have hsteps : Relation.ReflTransGen
      (fun g g' => ∃ op, Gathering.Step gatheringEnv gatheringEnv.toEnv op g g')
      (gatheringStart [a1, a2]) g :=
    Relation.ReflTransGen.mono (fun _ _ ⟨op, hstep, _⟩ => ⟨op, hstep⟩) _ _
      (Gathering.run_steps hg)
  refine ⟨g, startLoop_started _ (by decide +kernel), ⟨_, _, rfl, rfl⟩, hsteps, hreceived, ?_⟩
  rw [hreceived, Linked, List.isChain_cons_cons]
  exact fun h => absurd h.1 (by decide)

/-- When he does not, `a2` and `a3` come one after the other. -/
theorem received_linked_sample : ∃ g : Gathering,
    (gatheringStart [a1, a2, a3]).Reaches gatheringEnv gatheringEnv.toEnv g ∧
    g.node.receivedResyncBlocks = [a2, a3] ∧ Linked g.node.receivedResyncBlocks := by
  have hrun : (((gatheringStart [a1, a2, a3]).run gatheringEnv gatheringEnv.toEnv
      (fun g op => decide (g.Keeps gatheringEnv op)) (gatheringOps ++ [.answer, .answer])).map
        fun g => g.node.receivedResyncBlocks) = some [a2, a3] := by decide +kernel
  obtain ⟨g, hg, hreceived⟩ := Option.map_eq_some_iff.mp hrun
  have hreaches : (gatheringStart [a1, a2, a3]).Reaches gatheringEnv gatheringEnv.toEnv g :=
    Relation.ReflTransGen.mono (fun _ _ ⟨op, hstep, hkeeps⟩ =>
      ⟨op, hstep, of_decide_eq_true hkeeps⟩) _ _ (Gathering.run_steps hg)
  exact ⟨g, hreaches, hreceived,
    received_linked (startLoop_started _ (by decide +kernel)) ⟨_, _, rfl, rfl⟩ hreaches⟩

end Cpos
