import Mathlib.Data.Finset.Basic
import Cpos.Run

/-!
# Order independence

Two nodes that were sent the same blocks in different orders, each block
after its parent, hold the same chain: from the genesis block, the path
that always goes on with the best eligible block (`GreedyPath`).

The argument is the library's, about offering blocks to a chain
(`offers_greedy`, `IsGreedy.unique`); what is left here is that a run of
insertions is a sequence of offers (`run_offers`) and that the path of
the library is the path described in the words of the code.

Blocks that do not fit the columns have to be left out. One that beats
the block at its index deletes it and then fails to be stored, so what
remains depends on when it came (`unfit_block_breaks_agreement`).
-/

namespace Cpos

open Python ByteString LinkedChain BlockChain

variable {K : Type} [PyNum K] {env : Env K} {s : BlockChain} {c : Chain (rules env)}

/-! ## Deliveries and paths -/

/-- A sequence over `S` in which every block occurs, and first occurs
after the first occurrence of its parent. -/
structure Delivery (S : Finset Block) (bs : List Block) : Prop where
  mem_iff : ∀ b, b ∈ bs ↔ b ∈ S
  order : ∀ b ∈ S, ∀ p ∈ S, b.parentHash = p.hash → bs.idxOf p < bs.idxOf b

/-- `b` may follow `p`: it names `p`, has the next index, passes
`validate_block` and comes in a later round. -/
structure Eligible (env : Env K) (p b : Block) : Prop where
  parent : b.parentHash = p.hash
  index : b.index = p.index + 1
  valid : b.Valid env
  round : p.round < b.round

/-- From the genesis block on, the eligible block of `S` with the
smallest proof hash, until there is none. -/
structure GreedyPath (env : Env K) (S : Finset Block) (path : List Block) : Prop where
  head : path.head? = some genesisBlock
  best : path.IsChain fun p b =>
    b ∈ S ∧ Eligible env p b ∧ ∀ x ∈ S, Eligible env p x → b.proofHash ≤ x.proofHash
  maximal : ∀ p, path.getLast? = some p → ∀ b ∈ S, ¬Eligible env p b

/-- Indices from 1 on, distinct hashes, and distinct proof hashes among
siblings. -/
structure BlockSet (S : Finset Block) : Prop where
  index : ∀ b ∈ S, 1 ≤ b.index
  hashes : ∀ a ∈ S, ∀ b ∈ S, a.hash = b.hash → a = b
  genesis : ∀ b ∈ S, b.hash ≠ genesisBlock.hash
  proofHashes : ∀ a ∈ S, ∀ b ∈ S, a.parentHash = b.parentHash → a.proofHash = b.proofHash → a = b

/-! ## A run of insertions is a sequence of offers -/

theorem run_offers : ∀ (bs : List Block) {s : BlockChain} {c : Chain (rules env)},
    Represents env s c → (∀ b ∈ bs, b.Storable) →
      Represents env (run env s (bs.map Op.insert)) (offers c bs)
  | [], _, _, h, _ => h
  | b :: bs, s, c, h, hfits => by
      have hb := insert_offer h (hfits b (List.mem_cons_self ..))
      rw [← step_insert] at hb
      exact run_offers bs hb fun x hx => hfits x (List.mem_cons_of_mem _ hx)

/-! ## The path -/

section Path

variable {S : Finset Block} (hS : BlockSet S) (hfits : ∀ b ∈ S, b.Storable)
include hS hfits

theorem follows_iff {p b : Block}
    (hp : p = genesisBlock ∨ p ∈ S) (hb : b ∈ S) : Follows env p b ↔ Eligible env p b := by
  constructor
  · intro h
    exact ⟨h.parent, h.index, h.valid, h.round⟩
  · intro h
    refine ⟨h.parent, h.index, ?_, h.round, h.valid, hfits b hb⟩
    rcases hp with rfl | hp
    · exact le_refl _
    · have := hS.index p hp
      omega

/-- The path of the library is the one in the words of the code. -/
theorem isGreedy_iff {path : List Block} :
    IsGreedy (rules env) {x | x ∈ S} path ↔ GreedyPath env S path := by
  constructor
  · intro h
    refine ⟨h.head, ?_, ?_⟩
    · refine h.best.imp_of_mem_tail_imp fun p b hp _ ⟨hb, hpb, hleast⟩ => ?_
      have hp' := h.mem hp
      exact ⟨hb, (follows_iff hS hfits hp' hb).mp hpb, fun x hx hpx =>
        hleast x hx ((follows_iff hS hfits hp' hx).mpr hpx)⟩
    · intro p hp b hb hpb
      exact h.maximal p hp b hb
        ((follows_iff hS hfits (h.mem (List.mem_of_getLast? hp)) hb).mpr hpb)
  · intro h
    have hmem {p : Block} (hp : p ∈ path) : p = genesisBlock ∨ p ∈ S :=
      mem_of_isChain h.head h.best (fun _ _ hpb => hpb.1) hp
    refine ⟨h.head, ?_, ?_⟩
    · refine h.best.imp_of_mem_tail_imp fun p b hp _ ⟨hb, hpb, hleast⟩ => ?_
      have hp' := hmem hp
      exact ⟨hb, (follows_iff hS hfits hp' hb).mpr hpb, fun x hx hpx =>
        hleast x hx ((follows_iff hS hfits hp' hx).mp hpx)⟩
    · intro p hp b hb hpb
      exact h.maximal p hp b hb ((follows_iff hS hfits (hmem (List.mem_of_getLast? hp)) hb).mp hpb)

theorem GreedyPath.unique {path path' : List Block} (h : GreedyPath env S path)
    (h' : GreedyPath env S path') : path = path' := by
  refine IsGreedy.unique (fun p a ha b hb hpa hpb hkey => ?_)
    ((isGreedy_iff hS hfits).mpr h) ((isGreedy_iff hS hfits).mpr h')
  exact hS.proofHashes a ha b hb (hpa.parent.trans hpb.parent.symm) hkey

theorem Delivery.greedy {bs : List Block} (hd : Delivery S bs) :
    GreedyPath env S (offers (genesisChain env) bs).blocks := by
  have hset : {x | x ∈ bs} = {x | x ∈ S} := by
    ext x
    exact hd.mem_iff x
  rw [← isGreedy_iff hS hfits, ← hset]
  refine offers_greedy rfl bs ?_ ?_
  · have hmem {x : Block} (hx : x ∈ bs) : x ∈ S := (hd.mem_iff x).mp hx
    intro x hx y hy hxy
    rcases List.mem_cons.mp hx with rfl | hx <;> rcases List.mem_cons.mp hy with rfl | hy
    · rfl
    · exact absurd hxy.symm (hS.genesis y (hmem hy))
    · exact absurd hxy (hS.genesis x (hmem hx))
    · exact hS.hashes x (hmem hx) y (hmem hy) hxy
  · rintro pre b post rfl hb x hx hbx
    have hxS : x ∈ S := (hd.mem_iff x).mp (by simp [hx])
    have hbS : b ∈ S := (hd.mem_iff b).mp (by simp)
    have hlt := hd.order x hxS b hbS hbx.parent
    rw [List.idxOf_append_of_notMem hb, List.idxOf_append_of_mem hx] at hlt
    have := List.idxOf_lt_length_of_mem hx
    omega

/-- **Order independence.** Two deliveries of the same blocks leave the
hashes of the same path. -/
theorem insert_order_independent {bs bs' : List Block}
    (hbs : Delivery S bs) (hbs' : Delivery S bs') {s s' : BlockChain}
    (hs : s.localChains = [genesisRow]) (hs' : s'.localChains = [genesisRow]) :
    ∃ path, GreedyPath env S path ∧ (∀ path', GreedyPath env S path' → path' = path) ∧
      (run env s (bs.map Op.insert)).localChains.map Row.hash
        = path.map (fun b => hex b.hash) ∧
      (run env s' (bs'.map Op.insert)).localChains.map Row.hash
        = path.map (fun b => hex b.hash) := by
  have hrun {bs : List Block} (hbs : Delivery S bs) {s : BlockChain}
      (hs : s.localChains = [genesisRow]) :
      Represents env (run env s (bs.map Op.insert)) (offers (genesisChain env) bs) :=
    run_offers bs (represents_genesis hs) fun b hb => hfits b ((hbs.mem_iff b).mp hb)
  have hpath : GreedyPath env S (offers (genesisChain env) bs).blocks := hbs.greedy hS hfits
  refine ⟨_, hpath, fun path' h' => h'.unique hS hfits hpath, ?_, ?_⟩
  · exact (hrun hbs hs).hashes
  · rw [hpath.unique hS hfits (hbs'.greedy hS hfits)]
    exact (hrun hbs' hs').hashes

end Path

/-- The sample blocks, in two orders, with a repetition. -/
theorem insert_order_independent_sample :
    ∃ path, GreedyPath sampleEnv {a1, b1, a2, b2, a3} path ∧
      (∀ path', GreedyPath sampleEnv {a1, b1, a2, b2, a3} path' → path' = path) ∧
      (run sampleEnv .init ([a1, b2, a2, a3, b1].map Op.insert)).localChains.map Row.hash
        = path.map (fun b => hex b.hash) ∧
      (run sampleEnv .init ([b1, a1, a2, b1, b2, a3].map Op.insert)).localChains.map Row.hash
        = path.map (fun b => hex b.hash) :=
  insert_order_independent
    ⟨by decide +kernel, by decide +kernel, by decide +kernel, by decide +kernel⟩ (by decide +kernel)
    ⟨by intro b; simp; tauto, by decide +kernel⟩
    ⟨by intro b; simp; tauto, by decide +kernel⟩ rfl rfl

/-- `aFar` beats `a1` and cannot be stored: after `a1` it leaves the
genesis block alone, before it `a1` stays. -/
theorem unfit_block_breaks_agreement :
    BlockSet {a1, aFar} ∧ Delivery {a1, aFar} [a1, aFar] ∧ Delivery {a1, aFar} [aFar, a1] ∧
      (run sampleEnv .init ([a1, aFar].map Op.insert)).localChains.map Row.hash
        ≠ (run sampleEnv .init ([aFar, a1].map Op.insert)).localChains.map Row.hash :=
  ⟨⟨by decide +kernel, by decide +kernel, by decide +kernel, by decide +kernel⟩,
    ⟨by intro b; simp, by decide +kernel⟩, ⟨by intro b; simp [or_comm], by decide +kernel⟩,
    by decide +kernel⟩

end Cpos
