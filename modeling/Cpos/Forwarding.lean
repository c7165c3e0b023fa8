import Mathlib.Data.List.Dedup
import Cpos.Acts

/-!
# Forwarding blocks

`handle_new_block` forwards a block that neither the chain nor
`missed_blocks` holds; afterwards one of them does. There is no other
memory of what has been forwarded. `Gossip` follows a node with the hashes
it has forwarded, and with those that a step took out of both filters
afterwards. A hash is forwarded at most once more often than it was lost
(`forwarded_le`), so what is never lost is forwarded once.

A hash is lost when a block stored at its row's index or below replaces
the row, or when a resync takes a missed block off the list.
-/

namespace Cpos

open Python ByteString LinkedChain BlockChain

variable {K : Type} [PyNum K] {env : LoopEnv K} {n n' : Node}

/-! ## What an act forwards -/

/-- The hashes of the blocks for which `handle_new_block` calls
`broadcast_message`. -/
def Act.forwards (env : LoopEnv K) (n : Node) : Act → List Bytes
  | .handle (.blockBroadcast block _) =>
      if n.state = .listening ∧ admits env.toNodeEnv n block ∧ env.broadcastReceivedBlock then
        [block.hash]
      else []
  | _ => []

theorem deliver_eq_ok (hlistening : n.state = .listening) {block : Block} {peerId : Bytes}
    (h : (Act.handle (.blockBroadcast block peerId)).Leads env n n') :
    ∃ r, handleNewBlock env.toNodeEnv block peerId n = .ok r n' := by
  have h' : handleMessage env.toNodeEnv (.blockBroadcast block peerId) n = .ok () n' := h
  rw [run_handleMessage_broadcast hlistening] at h'
  obtain ⟨r, n₁, hrun, h₁⟩ := bind_eq_ok h'
  cases h₁
  exact ⟨r, hrun⟩

/-- A block that is handed to `insert` was unknown, and is known after. -/
theorem known_of_handled {env : NodeEnv K} {block : Block} {peerId : Bytes} {r : Bool}
    (hn : ∃ c, Represents env.toEnv n.bc c) (hadmits : admits env n block = true)
    (h : handleNewBlock env block peerId n = .ok r n') :
    Unknown n block.hash ∧ ¬Unknown n' block.hash := by
  obtain ⟨c, hc⟩ := hn
  obtain ⟨-, -, hids, hmissed⟩ := admits_iff.mp hadmits
  refine ⟨⟨fun row hrow => ?_, hmissed⟩, ?_⟩
  · rw [← hc.id_eq_hash hrow]
    exact hids row hrow
  rcases handleNewBlock_ok h with ⟨hno, -⟩ | ⟨-, hinsert, hrest⟩
  · rw [hadmits] at hno
    cases hno
  have hout := insert_outcome hc block
  rw [hinsert] at hout
  cases hout with
  | accepted hacc hgraft =>
      intro hunknown
      have hmem : block.hash ∈ (c.graft block hacc.1).blocks.map Block.hash := by
        rw [Chain.blocks_graft, List.map_append]
        exact List.mem_append_right _ (List.mem_singleton_self _)
      exact (hgraft.no_row_iff _).mp hunknown.1 hmem
  | refused _ _ _ =>
      intro hunknown
      refine hunknown.2 (block, peerId) ?_ rfl
      rw [hrest.missedBlocks]
      exact List.mem_append_right _ (List.mem_singleton_self _)

/-- What is forwarded is one block, unknown before and known after. -/
theorem forwards_cases {a : Act} (hn : ∃ c, Represents env.toEnv n.bc c) (h : a.Leads env n n') :
    a.forwards env n = [] ∨
    ∃ hash, a.forwards env n = [hash] ∧ Unknown n hash ∧ ¬Unknown n' hash := by
  by_cases hnone : a.forwards env n = []
  · exact .inl hnone
  unfold Act.forwards at hnone ⊢
  split at hnone
  · next block peerId =>
      split at hnone
      · next hforwards =>
          obtain ⟨r, hrun⟩ := deliver_eq_ok hforwards.1 h
          rw [if_pos hforwards]
          exact .inr ⟨_, rfl, known_of_handled hn hforwards.2.1 hrun⟩
      · exact absurd rfl hnone
  · exact absurd rfl hnone

/-! ## What an act takes out of both filters -/

/-- The ways to lose a hash. -/
inductive Loses (env : LoopEnv K) (n : Node) (hash : Bytes) : Act → Prop
  | replaced {a : Act} {r : Row} (hrow : r ∈ n.bc.localChains) (hhash : r.hash = hex hash)
      {i : Insertion} (hi : i ∈ a.insertions env n) (hstored : i.Stored env.toEnv)
      (hbelow : i.block.index ≤ r.blockIndex) : Loses env n hash a
  | started (hdue : Due n) (hmissed : ∃ missed ∈ n.missedBlocks, missed.1.hash = hash) :
      Loses env n hash .startResync
  | answered {block : Option Block} (hresyncing : n.state = .resyncing)
      (hmissed : ∃ missed ∈ n.missedBlocks, missed.1.hash = hash) :
      Loses env n hash (.handle (.resyncResponse block))

theorem Effect.loses {a : Act} (h : Effect env n a n') (hn : ∃ c, Represents env.toEnv n.bc c)
    {hash : Bytes} (hknown : ¬Unknown n hash) (hunknown : Unknown n' hash) :
    Loses env n hash a := by
  rw [Unknown, not_and_or, not_forall, not_forall] at hknown
  rcases hknown with ⟨r, hr⟩ | ⟨missed, hm⟩
  · obtain ⟨hrow, hhash⟩ := Classical.not_imp.mp hr
    have hhash := not_not.mp hhash
    rcases h.fate hn r hrow with ⟨r', hrow', heq⟩ | ⟨i, hi, hstored, hbelow⟩
    · have hsame : r.static.hash = r'.static.hash := congrArg Row.hash heq
      exact absurd (hsame.symm.trans hhash) (hunknown.1 r' hrow')
    · exact .replaced hrow hhash hi hstored hbelow
  · obtain ⟨hmem, hhash⟩ := Classical.not_imp.mp hm
    have hmissed : ∃ missed ∈ n.missedBlocks, missed.1.hash = hash :=
      ⟨missed, hmem, not_not.mp hhash⟩
    by_cases hstart : a = .startResync ∧ Due n
    · obtain ⟨rfl, hdue⟩ := hstart
      exact .started hdue hmissed
    by_cases hresponse : ∃ block, a = .handle (.resyncResponse block) ∧ n.state = .resyncing
    · obtain ⟨block, rfl, hresyncing⟩ := hresponse
      exact .answered hresyncing hmissed
    · have hbystands := h.bystands hstart fun block ha hresyncing =>
        hresponse ⟨block, ha, hresyncing⟩
      exact absurd (not_not.mp hhash) (hunknown.2 missed (hbystands.missedBlocks hmem))

/-! ## Runs -/

structure Gossip where
  node : Node
  forwarded : List Bytes
  lost : List Bytes

/-- The hashes forwarded so far that the step to `n'` loses. -/
def Gossip.loses (g : Gossip) (n' : Node) : List Bytes :=
  g.forwarded.dedup.filter fun hash => ¬Unknown g.node hash ∧ Unknown n' hash

def Gossip.next (env : LoopEnv K) (g : Gossip) (a : Act) (n' : Node) : Gossip where
  node := n'
  forwarded := g.forwarded ++ a.forwards env g.node
  lost := g.lost ++ g.loses n'

def Gossip.Step (env : LoopEnv K) (a : Act) (g g' : Gossip) : Prop :=
  a.Leads env g.node g'.node ∧ g' = g.next env a g'.node

def Gossip.Reaches (env : LoopEnv K) : Gossip → Gossip → Prop :=
  Relation.ReflTransGen fun g g' => ∃ a, g.Step env a g'

/-- A hash was forwarded at most as often as it was lost, and once more
while a filter holds it. -/
def Gossip.Bounded (g : Gossip) : Prop :=
  ∀ hash, g.forwarded.count hash ≤ g.lost.count hash + if Unknown g.node hash then 0 else 1

theorem Gossip.mem_loses {g : Gossip} {hash : Bytes} :
    hash ∈ g.loses n' ↔ hash ∈ g.forwarded ∧ ¬Unknown g.node hash ∧ Unknown n' hash := by
  rw [Gossip.loses, List.mem_filter, List.mem_dedup, decide_eq_true_eq]

/-- The bound for a hash that the step does not forward. -/
theorem Gossip.Bounded.count_le {g : Gossip} (hg : g.Bounded) (n' : Node) (hash : Bytes) :
    g.forwarded.count hash
      ≤ (g.lost ++ g.loses n').count hash + if Unknown n' hash then 0 else 1 := by
  have hbound := hg hash
  rw [List.count_append]
  by_cases hunknown : Unknown g.node hash
  · rw [if_pos hunknown] at hbound
    omega
  rw [if_neg hunknown] at hbound
  by_cases hlost : Unknown n' hash
  · by_cases hmem : hash ∈ g.forwarded
    · have hcounted := List.count_pos_iff.mpr (Gossip.mem_loses.mpr ⟨hmem, hunknown, hlost⟩)
      omega
    · rw [List.count_eq_zero.mpr hmem]
      omega
  · rw [if_neg hlost]
    omega

theorem Gossip.Bounded.step {g g' : Gossip} {a : Act} (hg : g.Bounded)
    (hn : ∃ c, Represents env.toEnv g.node.bc c) (h : g.Step env a g') : g'.Bounded := by
  obtain ⟨hleads, hnext⟩ := h
  intro hash
  have hkept := hg.count_le g'.node hash
  rw [hnext, Gossip.next, List.count_append]
  rcases forwards_cases hn hleads with hnone | ⟨hash', hone, hunknown, hknown⟩
  · rw [hnone, List.count_nil]
    exact hkept
  rw [hone]
  by_cases heq : hash = hash'
  · subst heq
    have hbound := hg hash
    rw [if_pos hunknown] at hbound
    rw [if_neg hknown, List.count_singleton_self, List.count_append]
    omega
  · rw [List.count_eq_zero.mpr fun hmem => heq (List.mem_singleton.mp hmem)]
    exact hkept

theorem Gossip.Reaches.acts {g g' : Gossip} (h : g.Reaches env g') : Acts env g.node g'.node := by
  induction h with
  | refl => exact .refl
  | tail _ hstep ih =>
      obtain ⟨a, hleads, -⟩ := hstep
      exact ih.trans hleads.acts

/-- **Forwarding.** In every run a hash is forwarded at most once more
often than it was lost, so at most once if it never was. What is lost is
replaced in the chain, or taken from the missed blocks by a resync. -/
theorem forwarded_le {n₀ : Node} {g : Gossip} (hstarted : n₀.Started env.toNodeEnv)
    (h : Gossip.Reaches env ⟨n₀, [], []⟩ g) :
    (∀ hash, g.forwarded.count hash ≤ g.lost.count hash + 1) ∧
    (g.lost = [] → g.forwarded.Nodup) ∧
    ∀ {a : Act} {g' : Gossip}, g.Step env a g' → ∀ hash ∈ g.loses g'.node,
      hash ∈ g.forwarded ∧ Loses env g.node hash a := by
  have hn {g : Gossip} (h : Gossip.Reaches env ⟨n₀, [], []⟩ g) :=
    h.acts.represents hstarted.represents
  have hbounded : g.Bounded := by
    induction h with
    | refl => intro hash; simp
    | tail hreaches hstep ih =>
        obtain ⟨a, hstep⟩ := hstep
        exact ih.step (hn hreaches) hstep
  have hle (hash : Bytes) : g.forwarded.count hash ≤ g.lost.count hash + 1 := by
    have hbound := hbounded hash
    split at hbound
    · omega
    · exact hbound
  refine ⟨hle, fun hnone => ?_, fun hstep hash hmem => ?_⟩
  · rw [List.nodup_iff_count_le_one]
    intro hash
    have hone := hle hash
    rwa [hnone, List.count_nil, Nat.zero_add] at hone
  · obtain ⟨hforwarded, hknown, hunknown⟩ := Gossip.mem_loses.mp hmem
    exact ⟨hforwarded, hstep.1.effect.loses (hn h) hknown hunknown⟩

/-! ## A block forwarded twice -/

def Gossip.run (env : LoopEnv K) : Gossip → List Act → Option Gossip
  | g, [] => some g
  | g, a :: acts =>
      match a.call env g.node with
      | .ok _ n' => Gossip.run env (g.next env a n') acts
      | .error _ _ => none

theorem Gossip.run_reaches {acts : List Act} : ∀ {g g' : Gossip},
    g.run env acts = some g' → g.Reaches env g' := by
  induction acts with
  | nil =>
      intro g g' h
      cases h
      exact .refl
  | cons a acts ih =>
      intro g g' h
      rw [Gossip.run] at h
      cases hcall : a.call env g.node with
      | error e n' =>
          rw [hcall] at h
          cases h
      | ok _ n' =>
          rw [hcall] at h
          have hstep : g.Step env a (g.next env a n') := ⟨hcall, rfl⟩
          exact .head ⟨a, hstep⟩ (ih h)

/-- A node that forwards; it stands in round 1. -/
def gossipEnv : LoopEnv ℚ :=
  { loopEnv (.ofNat fun _ => 5) [a1, b1] with broadcastReceivedBlock := true }

def gossipStart : Gossip := ⟨(startLoop gossipEnv).node, [], []⟩

/-- `b1` replaces `a1`, which `bob` sends once more. -/
def gossipActs : List Act :=
  sampleActs [] ++ sampleActs [.blockBroadcast a1 bob] ++ sampleActs [.blockBroadcast b1 bob]
    ++ sampleActs [.blockBroadcast a1 bob]

/-- `a1` is forwarded twice. -/
theorem forwarded_twice : ∃ g : Gossip, gossipStart.node.Started gossipEnv.toNodeEnv ∧
    gossipStart.Reaches gossipEnv g ∧ g.forwarded.count a1.hash = 2 := by
  have hrun : ((gossipStart.run gossipEnv gossipActs).map fun g => g.forwarded.count a1.hash)
      = some 2 := by decide +kernel
  obtain ⟨g, hg, hcount⟩ := Option.map_eq_some_iff.mp hrun
  exact ⟨g, startLoop_started _ (by decide +kernel), Gossip.run_reaches hg, hcount⟩

/-- It was lost once. -/
theorem forwarded_le_sample : ∃ g : Gossip, gossipStart.Reaches gossipEnv g ∧
    g.forwarded = [a1.hash, b1.hash, a1.hash] ∧ g.lost = [a1.hash] ∧
    g.forwarded.count a1.hash ≤ g.lost.count a1.hash + 1 := by
  have hrun : ((gossipStart.run gossipEnv gossipActs).map fun g => (g.forwarded, g.lost))
      = some ([a1.hash, b1.hash, a1.hash], [a1.hash]) := by decide +kernel
  obtain ⟨g, hg, heq⟩ := Option.map_eq_some_iff.mp hrun
  have hreaches := Gossip.run_reaches hg
  exact ⟨g, hreaches, congrArg Prod.fst heq, congrArg Prod.snd heq,
    (forwarded_le (startLoop_started _ (by decide +kernel)) hreaches).1 a1.hash⟩

end Cpos
