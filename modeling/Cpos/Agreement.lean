import Cpos.Equivocation
import Cpos.Headers

/-!
# What two nodes agree on

Nodes of a deployment may hold different chains. But as long as no two
strings that are hashed for their blocks collide, a hash stands for a
block, and a block for all that is below it: tables that share the hash of
a row are the same up to that row (`agreement`). And what is below a row
has been a table of its own: the one on which the row's owner made its
block (`table_of_author`).
-/

namespace Cpos

open Python ByteString Sha256 LinkedChain BlockChain Actors

variable {ι K : Type} [PyNum K]

/-! ## Chains of such blocks -/

/-- Different strings hashed for these blocks have different hashes. -/
def NoCollision (O : Block → Prop) : Prop := Set.InjOn sha256 {x | ∃ b, O b ∧ x ∈ b.hashed}

section Chains

variable {O : Block → Prop} {env env' : Env K} {c : Chain (rules env)} {c' : Chain (rules env')}

theorem NoCollision.collisionFree (h : NoCollision O) {blocks : List Block}
    (hO : ∀ b ∈ blocks, O b) : CollisionFree blocks := by
  refine Set.InjOn.mono (fun x hx => ?_) h
  obtain ⟨b, hb, hx⟩ := List.mem_flatMap.mp hx
  exact ⟨b, hO b hb, hx⟩

theorem Chain.Holds.tail (h : Chain.Holds O c) : ∀ b ∈ c.blocks.tail, O b := by
  intro b hb
  obtain ⟨i, hi⟩ := List.mem_iff_getElem?.mp hb
  rw [List.getElem?_tail] at hi
  exact h.at_succ hi

theorem over_of_tail {blocks : List Block} (hblocks : c.blocks.tail ⊆ blocks) :
    Over blocks c := by
  intro b hb
  obtain ⟨i, hi⟩ := List.mem_iff_getElem?.mp hb
  cases i with
  | zero => exact .inl (Option.some.inj (hi.symm.trans c.getElem?_zero))
  | succ i =>
      refine .inr (hblocks (List.mem_iff_getElem?.mpr ⟨i, ?_⟩))
      rw [List.getElem?_tail]
      exact hi

variable (hcol : NoCollision O) (hsealed : ∀ b, O b → b.Sealed)
  (hinj : ∀ b b', O b → O b' → b.hash = b'.hash → b = b') (hc : Chain.Holds O c)
  (hc' : Chain.Holds O c')
include hcol hsealed hc hc'

theorem prefix_hashes_eq {p q : Nat} {a a' : Block} (ha : c.blocks[p]? = some a)
    (ha' : c'.blocks[q]? = some a') (h : a.hash = a'.hash) :
    p = q ∧ (c.blocks.take (p + 1)).map Block.hash = (c'.blocks.take (q + 1)).map Block.hash := by
  have hblocks : ∀ b ∈ c.blocks.tail ++ c'.blocks.tail, O b := fun b hb =>
    (List.mem_append.mp hb).elim (hc.tail b) (hc'.tail b)
  exact prefix_of_hash_eq (hcol.collisionFree hblocks) (fun b hb => hsealed b (hblocks b hb))
    (over_of_tail (List.subset_append_left ..)) (over_of_tail (List.subset_append_right ..))
    ha ha' h

include hinj in
/-- Where the hash tells the blocks apart, the chains are the same up to
a shared hash. -/
theorem prefix_blocks_eq {p q : Nat} {a a' : Block} (ha : c.blocks[p]? = some a)
    (ha' : c'.blocks[q]? = some a') (h : a.hash = a'.hash) :
    p = q ∧ c.blocks.take (p + 1) = c'.blocks.take (p + 1) := by
  obtain ⟨rfl, hhashes⟩ := prefix_hashes_eq hcol hsealed hc hc' ha ha' h
  refine ⟨rfl, List.ext_getElem? fun k => ?_⟩
  have hat : ((c.blocks.take (p + 1))[k]?).map Block.hash
      = ((c'.blocks.take (p + 1))[k]?).map Block.hash := by
    rw [← List.getElem?_map, ← List.getElem?_map, hhashes]
  cases hb : (c.blocks.take (p + 1))[k]? with
  | none =>
      rw [hb] at hat
      exact (Option.map_eq_none_iff.mp hat.symm).symm
  | some b =>
      rw [hb] at hat
      obtain ⟨b', hb', heq⟩ := Option.map_eq_some_iff.mp hat.symm
      have hk : k < p + 1 := by
        have := (List.getElem?_eq_some_iff.mp hb).1
        rw [List.length_take] at this
        omega
      rw [hb']
      rw [List.getElem?_take_of_lt hk] at hb hb'
      cases k with
      | zero => rw [← hb, ← hb', c.getElem?_zero, c'.getElem?_zero]; rfl
      | succ k => rw [hinj b b' (hc.at_succ hb) (hc'.at_succ hb') heq.symm]

end Chains

namespace Deployment

variable {D : Deployment ι K} {S S₀ S₁ S' : System ι} {b b' : Block}

/-! ## Hashes of original blocks -/

theorem Original.isSealed (h : D.Original S b) : b.Sealed := by
  obtain ⟨i, hmade, -⟩ := h
  exact hmade.isSealed

/-- An original block is known by its hash. -/
theorem Original.eq_of_hash (hclock : ∀ i, ClockRises (D.member i).toEnv) (h : D.Reachable S)
    (hcol : NoCollision (D.Original S)) (hb : D.Original S b) (hb' : D.Original S b')
    (hhash : b.hash = b'.hash) : b = b' := by
  obtain ⟨i, hmade, hcopy⟩ := hb
  obtain ⟨j, hmade', hcopy'⟩ := hb'
  have hboth : ∀ x ∈ [b, b'], D.Original S x := by
    intro x hx
    rcases List.mem_pair.mp hx with rfl | rfl
    · exact ⟨i, hmade, hcopy⟩
    · exact ⟨j, hmade', hcopy'⟩
  have hfree := hcol.collisionFree hboth
  obtain ⟨hproof, hparent, htransactions⟩ := hash_parts_eq hfree
    (fun x hx => (hboth x hx).isSealed) (by simp) (by simp) hmade.parentHash_length
    hmade'.parentHash_length hhash
  have hsame :=
    (proofHash_eq_iff hmade.isSealed.bound hmade'.isSealed.bound hfree hparent).mp hproof
  rw [Separated] at hsame
  push Not at hsame
  have hbody := Original.body_eq hclock h (hboth b (by simp)) (hboth b' (by simp)) hsame.1 hsame.2.1
  calc b = { b.body with transactionHash := b.transactionHash, hash := b.hash } := rfl
    _ = { b'.body with transactionHash := b'.transactionHash, hash := b'.hash } := by
        rw [hbody, htransactions, hhash]
    _ = b' := rfl

/-! ## Agreement -/

theorem Traced.leadsTo (h : Traced S b) (hleadsTo : LeadsTo D.parties S S') : Traced S' b := by
  induction hleadsTo with
  | refl => exact h
  | tail _ hstep ih => exact ih.step hstep

/-- The table of a node, now or at a later moment of the run. -/
theorem Reachable.chain_original (h₁ : D.Reachable S₁) (hleadsTo : LeadsTo D.parties S₁ S)
    (h : D.Reachable S) (i : ι) : ∃ c : Chain (rules (D.member i).toEnv),
      Represents (D.member i).toEnv (S₁.party i).node.bc c ∧ Chain.Holds (D.Original S) c := by
  obtain ⟨c, hc, hblocks⟩ := (h₁.traced.parties i).chain
  refine ⟨c, hc, fun b hb => (hblocks b hb).imp_right fun htraced => ?_⟩
  exact h.original (htraced.leadsTo hleadsTo)

/-- The tables of two nodes, each at some moment of the run. -/
theorem tables_agree (hclock : ∀ i, ClockRises (D.member i).toEnv) (h : D.Reachable S)
    (hcol : NoCollision (D.Original S)) {S₂ : System ι} (h₁ : D.Reachable S₁)
    (hleadsTo₁ : LeadsTo D.parties S₁ S) (h₂ : D.Reachable S₂)
    (hleadsTo₂ : LeadsTo D.parties S₂ S) {i j : ι} {p q : Nat} {r r' : Row}
    (hr : (S₁.party i).node.bc.localChains[p]? = some r)
    (hr' : (S₂.party j).node.bc.localChains[q]? = some r') (hhash : r.hash = r'.hash) :
    p = q ∧ ((S₁.party i).node.bc.localChains.take (p + 1)).map Row.static
      = ((S₂.party j).node.bc.localChains.take (p + 1)).map Row.static := by
  obtain ⟨c, hc, hO⟩ := h₁.chain_original hleadsTo₁ h i
  obtain ⟨c', hc', hO'⟩ := h₂.chain_original hleadsTo₂ h j
  obtain ⟨b, hb, hst⟩ := hc.block_at hr
  obtain ⟨b', hb', hst'⟩ := hc'.block_at hr'
  rw [hst.hash, hst'.hash, hex_inj] at hhash
  obtain ⟨hpq, htake⟩ := prefix_blocks_eq hcol (fun b hb => hb.isSealed)
    (fun b b' hb hb' => hb.eq_of_hash hclock h hcol hb') hO hO' hb hb' hhash
  refine ⟨hpq, ?_⟩
  rw [List.map_take, List.map_take, hc.rows, hc'.rows, ← List.map_take, ← List.map_take, htake]

/-- **Agreement.** Two tables that share the hash of a row are the same up
to that row, in all columns that come from the blocks. -/
theorem agreement (hclock : ∀ i, ClockRises (D.member i).toEnv) (h : D.Reachable S)
    (hcol : NoCollision (D.Original S)) {i j : ι} {p q : Nat} {r r' : Row}
    (hr : (S.party i).node.bc.localChains[p]? = some r)
    (hr' : (S.party j).node.bc.localChains[q]? = some r') (hhash : r.hash = r'.hash) :
    p = q ∧ ((S.party i).node.bc.localChains.take (p + 1)).map Row.static
      = ((S.party j).node.bc.localChains.take (p + 1)).map Row.static :=
  tables_agree hclock h hcol h .refl h .refl hr hr' hhash

end Deployment

/-- Where the first node alone makes blocks, without transactions, there
are no others. -/
theorem mem_made_of_original {D : Deployment Pair ℚ} {S : System Pair} (h : D.Reachable S)
    (hplain : ∀ m ∈ (S.party .first).made, m.transactionHash = [])
    (hsecond : (S.party .second).made = []) {b : Block} (hb : D.Original S b) :
    b ∈ (S.party .first).made := by
  obtain ⟨i, -, m, hm, hcopy⟩ := hb
  cases i with
  | first =>
      rcases hcopy with rfl | hre
      · exact hm
      · have hsealed := ((h.authored.parties .first).2 m hm).isSealed
        have hsame := reloaded_of_plain hsealed.bound (hplain m hm)
        rwa [Except.ok.inj (hre.symm.trans hsame)]
  | second =>
      rw [hsecond] at hm
      cases hm

theorem pair_noCollision : NoCollision (pair.Original pairSystem) := by
  have hbound : ∀ m ∈ (pairSystem.party .first).made, m.Bound := fun m hm =>
    ((pairSystem_reachable.authored.parties .first).2 m hm).isSealed.bound
  refine Set.InjOn.mono ?_ (collisionFree_of_nodup hbound pairSystem_run.2.hashes)
  rintro x ⟨b, hb, hx⟩
  have hmem := mem_made_of_original pairSystem_reachable pairSystem_run.2.plain
    pairSystem_run.2.made_second hb
  exact List.mem_flatMap.mpr ⟨b, hmem, hx⟩

/-- The last row of the second node is a row of the first. -/
theorem pair_agreement : ∃ r r', (pairSystem.party .second).node.bc.localChains[1]? = some r ∧
    (pairSystem.party .first).node.bc.localChains[1]? = some r' ∧
      (pairSystem.party .second).node.bc.localChains.map Row.static
        = ((pairSystem.party .first).node.bc.localChains.take 2).map Row.static := by
  have hstored := pairSystem_run.2.stored
  have hr : (pairSystem.party .second).node.bc.localChains[1]?
      = some ((pairSystem.party .second).node.bc.localChains[1]) :=
    List.getElem?_eq_getElem (by omega)
  have hshared := pairSystem_run.2.shared
  rw [hr, Option.map_some, Option.map_eq_some_iff] at hshared
  obtain ⟨r', hr', hhash⟩ := hshared
  obtain ⟨-, hagree⟩ := Deployment.agreement pair_clockRises pairSystem_reachable pair_noCollision
    hr hr' hhash.symm
  refine ⟨_, r', hr, hr', ?_⟩
  rw [← hagree, List.take_of_length_le (by omega)]

/-! ## History -/

/-- The block is made for the end of the node's table. -/
structure MadeOn (n : Node) (m : Block) : Prop where
  index : m.index = n.bc.localChains.length
  parent : ∃ r, n.bc.localChains.getLast? = some r ∧ r.hash = hex m.parentHash

section Acts

variable {env : LoopEnv K} {n n' : Node}

/-- Rows that differ in their local columns only. -/
theorem MadeOn.of_static {m : Block} (h : MadeOn n' m)
    (hstatic : n.bc.localChains.map Row.static = n'.bc.localChains.map Row.static) :
    MadeOn n m := by
  obtain ⟨r, hr, hhash⟩ := h.parent
  refine ⟨?_, ?_⟩
  · rw [h.index]
    simpa using (congrArg List.length hstatic).symm
  · have hlast := congrArg List.getLast? hstatic
    rw [List.getLast?_map, List.getLast?_map, hr] at hlast
    obtain ⟨r', hr', heq⟩ := Option.map_eq_some_iff.mp hlast
    have hsame : r'.static.hash = r.static.hash := by rw [heq]
    exact ⟨r', hr', Eq.trans hsame hhash⟩

theorem madeOn_of_mem {a : Act} {m : Block} (hn : ∃ c, Represents env.toEnv n.bc c)
    (h : m ∈ a.made env n) : MadeOn n m := by
  obtain ⟨mock, -, hrun⟩ := of_mem_made h
  have hmade := generateBlock_ok hrun
  obtain ⟨c, hc⟩ := hn
  obtain ⟨tip, htip⟩ := c.exists_tip
  obtain ⟨-, hparent⟩ := hmade.on_tip hc htip
  have hlast := congrArg List.getLast? hc.rows
  rw [List.getLast?_map, List.getLast?_map, htip] at hlast
  obtain ⟨r, hr, hst⟩ := Option.map_eq_some_iff.mp hlast
  have hstores : Stores r tip := hst
  exact ⟨hmade.index, r, hr, by rw [hstores.hash, hparent]⟩

/-- A move makes its block for the table that the node has when it
starts. -/
theorem Process.Move.madeOn {p p' : Process} {input : Option (Bytes × Message)}
    {posts : List Post} (hn : ∃ c, Represents env.toEnv p.node.bc c)
    (h : Process.Move env p input p' posts) : ∀ m ∈ p'.made, m ∈ p.made ∨ MadeOn p.node m := by
  intro m hm
  cases h with
  | @reads t loop _ h =>
      refine .inl ?_
      have hsame : (p.count t.received).made = p.made := by
        unfold Process.count
        split
        · rfl
        · rfl
        · rfl
      rw [← hsame]
      exact hm
  | @advances fuel mock reading loop _ hdraws h =>
      have hadvanced := advance_ok h
      rcases List.mem_append.mp hm with hold | hnew
      · exact .inl hold
      right
      generalize advanceActs env fuel mock p.loop = acts at hadvanced hnew
      cases hadvanced with
      | halted _ => cases hnew
      | waits _ => cases hnew
      | stays _ _ _ => cases hnew
      | aside _ _ _ => cases hnew
      | @produces n₁ n₂ n₃ hbegin hupdate _ _ =>
          rw [madeOf_produces hbegin hupdate] at hnew
          have hn₂ := hupdate.effect.represents (hbegin.effect.represents hn)
          refine (madeOn_of_mem hn₂ hnew).of_static ?_
          -- neither starting a resync nor updating the round touches these columns
          have hstart : n₁.bc = p.node.bc := by
            rcases startResync_ok hbegin with ⟨-, rfl⟩ | ⟨-, found, n, hfind, rfl⟩
            · rfl
            · have hbc := (findResyncPeer_frame _ hfind).1
              split
              · exact hbc
              · exact hbc
          have hround : onChain (updateRound env.toEnv fuel) n₁ = .ok () n₂ := hupdate
          obtain ⟨bc, hrun, rfl⟩ := focus_eq_ok hround
          have hconfirms : Confirms n₁.bc bc := (updateRound_confirms fuel).of_ok hrun
          rw [← hstart]
          exact (confirms_map_static hconfirms).symm

end Acts

namespace Deployment

variable {D : Deployment ι K} {S S₀ : System ι}

/-- The table on which a block was made was the author's at some earlier
moment. -/
theorem leadsTo_madeOn (hstarted : D.Started S₀) (h : LeadsTo D.parties S₀ S) {i : ι} {m : Block}
    (hm : m ∈ (S.party i).made) :
    Once D.parties S₀ (fun S₁ => MadeOn (S₁.party i).node m) S := by
  have hholds : S.Holds (fun S i p => ∀ m ∈ p.made,
      Once D.parties S₀ (fun S₁ => MadeOn (S₁.party i).node m) S) fun _ _ => True := by
    refine h.holds_of_stable (fun hstep hI m hm => (hI m hm).step hstep) (fun _ _ => trivial) ?_
      ⟨fun i m hm => ?_, fun _ _ => trivial⟩
    · intro S i input rest posts S' hleadsTo hholds hmoves _
      refine ⟨fun m hm => ?_, fun _ _ => trivial⟩
      have hreach : D.Reachable S := ⟨S₀, hstarted, hleadsTo⟩
      obtain ⟨c, hc, -⟩ := (hreach.traced.parties i).chain
      rcases Process.Move.madeOn ⟨c, hc⟩ hmoves.move m hm with hold | hnew
      · exact (hholds.parties i m hold).step hmoves.step
      · have hnow := Once.now (Q := fun S₁ : System ι => MadeOn (S₁.party i).node m) hleadsTo hnew
        exact hnow.step hmoves.step
    · rw [(hstarted.nodes i).made] at hm
      cases hm
  exact hholds.parties i m hm

/-- **History.** Everything below a row of any table was once a whole
table: the table of the node that has made the row's block. -/
theorem table_of_author (hclock : ∀ i, ClockRises (D.member i).toEnv) (hstarted : D.Started S₀)
    (h : LeadsTo D.parties S₀ S) (hcol : NoCollision (D.Original S)) {i : ι} {k : Nat} {r : Row}
    (hr : (S.party i).node.bc.localChains[k + 1]? = some r) :
    ∃ j, r.ownerPubkey = hex (D.member j).publicKey ∧
      Once D.parties S₀ (fun S₁ => (S₁.party j).node.bc.localChains.map Row.static
        = ((S.party i).node.bc.localChains.take (k + 1)).map Row.static) S := by
  have hreach : D.Reachable S := ⟨S₀, hstarted, h⟩
  obtain ⟨c, hc, hblocks⟩ := (hreach.traced.parties i).chain
  obtain ⟨b, hb, hst⟩ := hc.block_at hr
  obtain ⟨j, hmade, m, hm, hcopy⟩ := hreach.original (Chain.Holds.at_succ hblocks hb)
  have hbody := body_of_copy ((hreach.authored.parties j).2 m hm).isSealed.bound hcopy
  refine ⟨j, by rw [hst.ownerPubkey, hmade.ownerPubkey], ?_⟩
  obtain ⟨S₁, hbefore, hafter, hon⟩ := leadsTo_madeOn hstarted h hm
  refine ⟨S₁, hbefore, hafter, ?_⟩
  -- the row below names the same parent as the author's last row
  have hparent : b.parentHash = m.parentHash := by
    have hbodies : b.body.parentHash = m.body.parentHash := by rw [hbody]
    exact hbodies
  have hindex : b.index = m.index := by
    have hbodies : b.body.index = m.body.index := by rw [hbody]
    exact hbodies
  have hlength : (S₁.party j).node.bc.localChains.length = k + 1 := by
    have hplace := index_at hb
    have := hon.index
    omega
  obtain ⟨r₁, hr₁, hhash₁⟩ := hon.parent
  rw [List.getLast?_eq_getElem?, hlength, Nat.add_sub_cancel] at hr₁
  have hlt := (List.getElem?_eq_some_iff.mp hr).1
  have hr₂ := List.getElem?_eq_getElem (l := (S.party i).node.bc.localChains) (i := k) (by omega)
  obtain ⟨p, hp, hstp⟩ := hc.block_at hr₂
  have hhash : r₁.hash = ((S.party i).node.bc.localChains[k]).hash := by
    rw [hhash₁, hstp.hash, ← hparent, (follows_at hp hb).parent]
  obtain ⟨-, hagree⟩ := tables_agree hclock hreach hcol ⟨S₀, hstarted, hbefore⟩ hafter hreach .refl
    hr₁ hr₂ hhash
  rw [← hagree, ← hlength, List.take_length]

end Deployment

/-- The first node had the genesis row alone when it made the block. -/
theorem pair_table_of_author : ∃ r j, (pairSystem.party .second).node.bc.localChains[1]? = some r ∧
    r.ownerPubkey = hex (pair.member j).publicKey ∧
      Once pair.parties pairStart (fun S₁ => (S₁.party j).node.bc.localChains.map Row.static
        = ((pairSystem.party .second).node.bc.localChains.take 1).map Row.static) pairSystem := by
  have hstored := pairSystem_run.2.stored
  have hr : (pairSystem.party .second).node.bc.localChains[1]?
      = some ((pairSystem.party .second).node.bc.localChains[1]) :=
    List.getElem?_eq_getElem (by omega)
  obtain ⟨j, howner, honce⟩ := Deployment.table_of_author pair_clockRises pairStart_started
    pair_leadsTo pair_noCollision hr
  exact ⟨_, j, hr, howner, honce⟩

end Cpos
