import Cpos.Producing

/-!
# Announcing a block

The loop hands a block it has produced to `insert` and broadcasts it,
whatever `insert` returns. `generate_block` takes parent and index from
the tip and the round from the clock, so the block is put on top of the
former tip unless the tip is not of an earlier round, which the tolerance
of `handle_new_block` allows, or the chain holds its hash already
(`announced_adopted_iff`).
-/

namespace Cpos

open Python ByteString LinkedChain BlockChain

variable {K : Type} [PyNum K] {env : LoopEnv K} {mock : Int → TransactionList} {n n₁ : Node}
  {b : Block}

/-- The loop produces `b` in `n` and broadcasts it in `n₁`. -/
structure Announces (env : LoopEnv K) (mock : Int → TransactionList) (n : Node) (b : Block)
    (n₁ : Node) : Prop where
  created : env.broadcastCreatedBlock = true
  generated : returned (generateBlock env.toNodeEnv mock) n.bc = some (some b)
  inserted : ∃ stored, insert env.toEnv b n.bc = .ok stored n₁.bc
  frame : n₁ = { n with bc := n₁.bc, producedBlocks := n.producedBlocks + 1 }

/-- What is left of the block production is the broadcast. -/
theorem Announces.produceBlock (h : Announces env mock n b n₁) :
    produceBlock env.toNodeEnv mock n = broadcastMessage env.toNodeEnv [] n₁ := by
  obtain ⟨stored, hinsert⟩ := h.inserted
  have hgenerated := ok_of_returned h.generated
  have hkeeps : n.bc = after (generateBlock env.toNodeEnv mock) n.bc := generateBlock_keeps mock n.bc
  rw [← hkeeps] at hgenerated
  have hcreated : env.toNodeEnv.broadcastCreatedBlock = true := h.created
  rw [Cpos.produceBlock, bind_ok (onChain_ok hgenerated)]
  show (if env.toNodeEnv.broadcastCreatedBlock = true then _ else _ : NodeCall Unit) n = _
  rw [if_pos hcreated]
  have hrun : onChain (insert env.toEnv b) { n with producedBlocks := n.producedBlocks + 1 }
      = .ok stored n₁ := by
    rw [h.frame]
    exact onChain_ok hinsert
  exact bind_ok hrun

/-- The table holds what it held before, and the block's row on top. -/
def AdoptedOnTop (n : Node) (b : Block) (n₁ : Node) : Prop :=
  n₁.bc.localChains.map Row.static = n.bc.localChains.map Row.static ++ [rowOf b]

theorem Announces.adopted_iff (h : Announces env mock n b n₁)
    (hn : ∃ c, Represents env.toEnv n.bc c) :
    AdoptedOnTop n b n₁ ↔
      (∃ tip ∈ n.bc.localChains.getLast?, tip.round < n.bc.currentRound) ∧
        ∀ r ∈ n.bc.localChains, r.hash ≠ hex b.hash := by
  obtain ⟨c, hc⟩ := hn
  obtain ⟨stored, hinsert⟩ := h.inserted
  have hgenerated := generateBlock_ok (ok_of_returned h.generated)
  obtain ⟨tip, htip⟩ := c.exists_tip
  obtain ⟨row, hrow, hst⟩ := hc.row_last htip
  obtain ⟨hindex, hparent⟩ := hgenerated.on_tip hc htip
  have hround : (∃ tip ∈ n.bc.localChains.getLast?, tip.round < n.bc.currentRound) ↔
      tip.round < b.round := by
    rw [hgenerated.round, hrow]
    simp [hst.round]
  rw [hc.no_row_iff, hround]
  have hout := insert_outcome hc b
  rw [hinsert] at hout
  cases hout with
  | accepted hacc hgraft =>
      have htop : (c.graft b hacc.1).blocks = c.blocks ++ [b] := by
        rw [Chain.blocks_graft]
        show c.blocks.take b.index.toNat ++ [b] = _
        rw [hindex, Int.toNat_natCast, List.take_length]
      obtain ⟨hnew, p, hp, hfollows⟩ := hacc.1
      refine iff_of_true ?_ ⟨?_, hnew⟩
      · rw [AdoptedOnTop, hgraft.rows, hc.rows, htop, List.map_append]
        rfl
      · have hp' : c.blocks[b.index.toNat - 1]? = some p := hp
        rw [hindex, Int.toNat_natCast, ← List.getLast?_eq_getElem?, htip] at hp'
        rw [Option.some.inj hp']
        exact hfollows.round
  | refused hno hnot hsame =>
      refine iff_of_false (fun hadopted => ?_) fun ⟨hlater, hnew⟩ => ?_
      · rw [AdoptedOnTop, hsame.rows, hc.rows] at hadopted
        exact absurd (congrArg List.length hadopted) (by simp)
      · exact absurd (accepts_or_raises_of_tip htip hindex hparent hgenerated.valid hnew hlater)
          (not_or.mpr ⟨hno, hnot⟩)

/-- **Announced blocks.** An announced block has been put on top of the
former tip exactly if the tip is of an earlier round and the chain did not
hold the block's hash. -/
theorem announced_adopted_iff {n₀ : Node} (hstarted : n₀.Started env.toNodeEnv)
    (hacts : Acts env n₀ n) (h : Announces env mock n b n₁) :
    AdoptedOnTop n b n₁ ↔
      (∃ tip ∈ n.bc.localChains.getLast?, tip.round < n.bc.currentRound) ∧
        ∀ r ∈ n.bc.localChains, r.hash ≠ hex b.hash :=
  h.adopted_iff (hacts.represents hstarted.represents)

theorem announces_of_returned {stored : Bool} (hcreated : env.broadcastCreatedBlock = true)
    (hgenerated : returned (generateBlock env.toNodeEnv mock) n.bc = some (some b))
    (hinsert : returned (insert env.toEnv b) n.bc = some stored) :
    Announces env mock n b { n with
      bc := after (insert env.toEnv b) n.bc
      producedBlocks := n.producedBlocks + 1 } :=
  ⟨hcreated, hgenerated, ⟨stored, ok_of_returned hinsert⟩, rfl⟩

/-! ## A block announced and not adopted -/

/-- A block of round 2, which a node in round 1 takes. -/
def bEarly : Block := sampleBlock genesisBlock.hash bob 2 1
  0xe5e2e037eadb6b70a76f32a54af6dc61ef55c3e2fcb9bc03e864a3d067643a230ba2d709c8a7148b3df634024075211720a1cea2640011e864d361808882880a
  0x792721b3fc3885e644841179c6a9e3eefad8e9731c1d6d15580cf3a5ab7d1654
  0xcb51b9dc3861813844129b4b37023d8c75a77c11cd0c7724b85dab570afb31ca
  0xbff79f8398faf16b15c289ba6940e913014b90d67e105ae8d849ffd6cbaf904e

/-- What `alice` produces on top of it in round 2. -/
def aOnEarly : Block := sampleBlock bEarly.hash alice 2 2
  0x94215c3048ae5160ea8f4133205622227f6b4889cf29745b96721af096540e0a468fb21efcf511bb8400d56c2be0a307b7c799e92e67d7329728a1281e3a1d02
  0x5f4c9f97a18378badf0b0db4e090602838b6e0b408731d6f747a040a26d3b0b3
  0x77ecf44008cfed1cb5e66dbf45a1bdaa12e342045641efffee9a74ce3c425af2
  0xcc7e69ef0990fb92c27009cb40cec47debe48e536889e8a77017b13a29f94956

/-- The node of `alice`, who takes part from round 2 on. The clock stands
in round 1 until a block has come, and then in round 2. -/
def announcingEnv : LoopEnv ℚ :=
  let env := loopEnv (.ofNat fun k => if k = 0 then 0 else if k ≤ 3 then 5 else 10)
    [a1, bEarly, aOnEarly]
  { env with
    period := some 2
    publicKey := alice
    sign := fun message => match [a1, aOnEarly].find? fun b => b.nodeHash = message with
      | some b => b.signedNodeHash
      | none => [] }

def noTransactions (_ : Int) : TransactionList := .new

/-- `bob`'s block comes in round 1. -/
def earlyActs : List Act :=
  sampleActs [] ++ sampleActs [.blockBroadcast bEarly bob] ++ [.startResync, .updateRound 10]

/-- `alice` announces a block that her chain does not hold. -/
theorem announced_not_adopted : ∃ n n₁ : Node,
    (startLoop announcingEnv).node.Started announcingEnv.toNodeEnv ∧
    Acts announcingEnv (startLoop announcingEnv).node n ∧
    Announces announcingEnv noTransactions n aOnEarly n₁ ∧
    ∀ r ∈ n₁.bc.localChains, r.hash ≠ hex aOnEarly.hash := by
  have hrun : ((runActs announcingEnv (startLoop announcingEnv).node
        earlyActs).any fun n : Node => decide <|
      returned (generateBlock announcingEnv.toNodeEnv noTransactions) n.bc = some (some aOnEarly) ∧
      returned (insert announcingEnv.toEnv aOnEarly) n.bc = some false ∧
      ∀ r ∈ (after (insert announcingEnv.toEnv aOnEarly) n.bc).localChains,
        r.hash ≠ hex aOnEarly.hash) = true := by decide +kernel
  obtain ⟨n, hn, hseen⟩ := (Option.any_eq_true _ _).mp hrun
  obtain ⟨hgenerated, hinsert, hout⟩ := of_decide_eq_true hseen
  exact ⟨n, _, startLoop_started _ (by decide +kernel), runActs_acts hn,
    announces_of_returned rfl hgenerated hinsert, hout⟩

/-- On top of the genesis block she adopts what she announces. -/
theorem announced_adopted_sample : ∃ n n₁ : Node,
    Announces announcingEnv noTransactions n a1 n₁ ∧ AdoptedOnTop n a1 n₁ := by
  have hrun : ((runActs announcingEnv (startLoop announcingEnv).node
        [.startResync, .updateRound 10]).any fun n : Node => decide <|
      returned (generateBlock announcingEnv.toNodeEnv noTransactions) n.bc = some (some a1) ∧
      returned (insert announcingEnv.toEnv a1) n.bc = some true ∧
      (∃ tip ∈ n.bc.localChains.getLast?, tip.round < n.bc.currentRound) ∧
      ∀ r ∈ n.bc.localChains, r.hash ≠ hex a1.hash) = true := by decide +kernel
  obtain ⟨n, hn, hseen⟩ := (Option.any_eq_true _ _).mp hrun
  obtain ⟨hgenerated, hinsert, hwhen⟩ := of_decide_eq_true hseen
  have hannounces : Announces announcingEnv noTransactions n a1 _ :=
    announces_of_returned rfl hgenerated hinsert
  exact ⟨n, _, hannounces, (announced_adopted_iff (startLoop_started _ (by decide +kernel))
    (runActs_acts hn) hannounces).mpr hwhen⟩

end Cpos
