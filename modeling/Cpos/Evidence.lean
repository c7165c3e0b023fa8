import Cpos.HashLinks
import Cpos.Insertions

/-!
# Evidence for conflicting blocks

A block's `numSuc` is the evidence on which it is confirmed. `insert`
adds the tickets of a block to the rows below its index, comparing
indices only. In the state in which that happens the rows are the blocks
of a chain on which the counted block fits, so the block descends from
every row it counts for (`Insertion.Credits.descends`).

The table may be replaced later, but a hash stands for the path to it:
counted blocks with one hash have the same ancestors, in whichever run.
Hence no block counts for two different blocks of one index
(`credits_disjoint`).
-/

namespace Cpos

open Python ByteString LinkedChain BlockChain

variable {K : Type} [PyNum K] {env env' : Env K}

/-- The insertion changes the count of the row with the hash `a`. -/
def Insertion.Credits (env : Env K) (i : Insertion) (a : List Char) : Prop :=
  ∃ r ∈ i.state.localChains, ∃ r' ∈ (after (insert env i.block) i.state).localChains,
    r.hash = a ∧ r'.hash = a ∧ r'.numSuc ≠ r.numSuc

instance (i : Insertion) (a : List Char) : Decidable (i.Credits env a) :=
  inferInstanceAs (Decidable (∃ r ∈ _, ∃ r' ∈ _, _ ∧ _ ∧ _))

/-- In the run, an insertion of `x` adds tickets to the row with the hash
`a`. -/
def Credited (env : Env K) (s₀ : BlockChain) (ops : List Op) (x : Block) (a : List Char) : Prop :=
  ∃ (k : Nat) (op : Op), ops[k]? = some op ∧
    ∃ i ∈ op.insertions env (run env s₀ (ops.take k)), i.block = x ∧ i.Credits env a

/-! ## A counted block descends from the rows it counts for -/

/-- `x` fits on the chain `c`, above the block with the hash `a` at
position `i`. -/
structure Descends (c : Chain (rules env)) (x : Block) (i : Nat) (a : List Char) : Prop where
  candidate : ∃ p, Candidate c x p
  ancestor : ∃ q, c.blocks[i]? = some q ∧ hex q.hash = a
  below : (i : Int) < x.index

theorem Row.count_numSuc_of_ge {i w : Int} {r : Row} (h : i ≤ r.blockIndex) :
    (r.count i w).numSuc = r.numSuc := by
  rw [Row.count, if_neg (by omega)]

theorem count_hash (i w : Int) (r : Row) : (r.count i w).hash = r.hash := by
  show (r.count i w).static.hash = r.static.hash
  rw [static_count]

/-- Two rows of a table that represents a chain have different hashes. -/
theorem Represents.row_eq_of_hash {s : BlockChain} {c : Chain (rules env)}
    (h : Represents env s c) {r r' : Row} (hr : r ∈ s.localChains) (hr' : r' ∈ s.localChains)
    (heq : r.hash = r'.hash) : r = r' := by
  refine List.inj_on_of_nodup_map h.ids_nodup hr hr' ?_
  rw [h.id_eq_hash hr, h.id_eq_hash hr', heq]

/-- A row of the counted table that differs in its count is below the
counted block. -/
theorem index_lt_of_counted {s : BlockChain} {c : Chain (rules env)} (h : Represents env s c)
    {i w : Int} {r r' : Row} (hr : r ∈ s.localChains) (hr' : r' ∈ (s.counted i w).localChains)
    (heq : r'.hash = r.hash) (hne : r'.numSuc ≠ r.numSuc) : r.blockIndex < i := by
  obtain ⟨r₀, hr₀, rfl⟩ := List.mem_map.mp hr'
  rw [count_hash] at heq
  obtain rfl := h.row_eq_of_hash hr₀ hr heq
  by_contra hge
  exact hne (Row.count_numSuc_of_ge (by omega))

theorem Represents.row_at_index {s : BlockChain} {c : Chain (rules env)} (h : Represents env s c)
    {r : Row} (hr : r ∈ s.localChains) :
    ∃ (i : Nat) (q : Block), c.blocks[i]? = some q ∧ Stores r q ∧ r.blockIndex = i := by
  obtain ⟨i, hi⟩ := List.mem_iff_getElem?.mp hr
  obtain ⟨q, hq, hst⟩ := h.block_at hi
  exact ⟨i, q, hq, hst, h.indexed i r hi⟩

theorem Insertion.Credits.descends {i : Insertion} {c : Chain (rules env)} {a : List Char}
    (hcredits : i.Credits env a) (h : Represents env i.state c) :
    ∃ k, Descends c i.block k a := by
  obtain ⟨r, hr, r', hr', hrhash, hr'hash, hne⟩ := hcredits
  have heq : r'.hash = r.hash := hr'hash.trans hrhash.symm
  obtain ⟨k, q, hq, hst, hindex⟩ := h.row_at_index hr
  have hqhash : hex q.hash = a := by rw [← hst.hash, hrhash]
  have hsame : r' ∈ i.state.localChains → False := fun hr'' =>
    hne (congrArg Row.numSuc (h.row_eq_of_hash hr'' hr heq))
  have hcounted {p : Block} {w : Int} (hc : Counted env c i.block p w)
      (hr'' : r' ∈ (i.state.counted i.block.index w).localChains) :
      ∃ k, Descends c i.block k a := by
    have hlt := index_lt_of_counted h hr hr'' heq hne
    exact ⟨k, ⟨p, hc.toCandidate⟩, ⟨q, hq, hqhash⟩, by omega⟩
  revert hr'
  refine after_insert_cases (P := fun t => r' ∈ t.localChains → ∃ k, Descends c i.block k a)
    h i.block ?same ?counted ?stored ?unfit
  case same => exact fun hr' => (hsame hr').elim
  case counted => exact fun _ _ hc hr' => hcounted hc hr'
  case unfit => exact fun _ _ hc hr' => hcounted hc (List.mem_of_mem_take hr')
  case stored =>
    intro p w hc _ hr'
    rcases List.mem_append.mp hr' with hr' | hr'
    · exact hcounted hc (List.mem_of_mem_take hr')
    · -- the new row: its hash was not in the table
      obtain rfl := List.mem_singleton.mp hr'
      refine absurd (List.mem_map.mpr ⟨q, List.mem_of_getElem? hq, ?_⟩) hc.fresh
      exact hex_inj.mp (hqhash.trans hr'hash.symm)

/-! ## Descent and hash links -/

section Linked

variable {blocks : List Block} (hcol : CollisionFree blocks) (hsealed : ∀ b ∈ blocks, b.Sealed)
include hcol hsealed

/-- Blocks with one hash descend from the same hash at each position. -/
theorem ancestors_eq {c : Chain (rules env)} {c' : Chain (rules env')} (hc : Over blocks c)
    (hc' : Over blocks c') {x x' p p' : Block} (hx : x ∈ blocks) (hx' : x' ∈ blocks)
    (hcand : Candidate c x p) (hcand' : Candidate c' x' p') (heq : x.hash = x'.hash) {i : Nat}
    {q q' : Block} (hq : c.blocks[i]? = some q) (hq' : c'.blocks[i]? = some q')
    (hlt : (i : Int) < x.index) : q.hash = q'.hash := by
  have hlen : x.parentHash.length = 1 ∨ x.parentHash.length = 32 := by
    rw [← hcand.parent]
    exact hash_length_of_over hsealed hc (List.mem_of_getElem? hcand.parentAt)
  have hlen' : x'.parentHash.length = 1 ∨ x'.parentHash.length = 32 := by
    rw [← hcand'.parent]
    exact hash_length_of_over hsealed hc' (List.mem_of_getElem? hcand'.parentAt)
  have hparent : p.hash = p'.hash := by
    rw [hcand.parent, hcand'.parent]
    exact parentHash_eq hcol hsealed hx hx' hlen hlen' heq
  obtain ⟨hpos, hprefix⟩ := prefix_of_hash_eq hcol hsealed hc hc' hcand.parentAt
    hcand'.parentAt hparent
  have hat := congrArg (fun l => l[i]?) hprefix
  simp only [List.map_take] at hat
  rw [List.getElem?_take, List.getElem?_take, if_pos (by omega), if_pos (by omega),
    List.getElem?_map, List.getElem?_map, hq, hq'] at hat
  exact Option.some.inj hat

omit hcol hsealed in
/-- The chain that a run leaves, and those it inserts on, hold blocks of
the list. -/
theorem run_over (env : Env K) {s₀ : BlockChain} (hs₀ : s₀.localChains = [genesisRow]) {ops : List Op}
    (hops : ops.flatMap Op.blocks ⊆ blocks) :
    ∃ c : Chain (rules env), Represents env (run env s₀ ops) c ∧ Over blocks c := by
  have h₀ : Represents env s₀ (genesisChain env) := represents_genesis hs₀
  obtain ⟨c, hc, hsub⟩ := run_represents ops h₀
  exact ⟨c, hc, over_of_subset hsub hops⟩

omit hcol hsealed in
theorem insertion_over {s : BlockChain} {c : Chain (rules env)} (h : Represents env s c)
    (hc : Over blocks c) {op : Op} (hop : op.blocks ⊆ blocks) {i : Insertion}
    (hi : i ∈ op.insertions env s) :
    i.block ∈ blocks ∧ ∃ c' : Chain (rules env), Represents env i.state c' ∧ Over blocks c' := by
  obtain ⟨hmem, c', h', hsub⟩ := mem_insertions h hi
  refine ⟨hop hmem, c', h', fun b hb => ?_⟩
  rcases List.mem_append.mp (hsub hb) with hb | hb
  · exact hc b hb
  · exact .inr (hop hb)

/-- What has added tickets to a row of the table descends from it. -/
theorem Credited.descends {s₀ : BlockChain} (hs₀ : s₀.localChains = [genesisRow]) {ops : List Op}
    (hops : ops.flatMap Op.blocks ⊆ blocks) {x : Block} {r : Row}
    (hr : r ∈ (run env s₀ ops).localChains) (hx : Credited env s₀ ops x r.hash) :
    x ∈ blocks ∧ ∃ (c : Chain (rules env)) (i : Nat),
      Over blocks c ∧ Descends c x i r.hash ∧ r.blockIndex = i := by
  obtain ⟨k, op, hop, i, hi, rfl, hcredits⟩ := hx
  have hprefix : (ops.take k).flatMap Op.blocks ⊆ blocks := fun b hb => by
    obtain ⟨op', hop', hb⟩ := List.mem_flatMap.mp hb
    exact hops (List.mem_flatMap.mpr ⟨op', List.mem_of_mem_take hop', hb⟩)
  have hopBlocks : op.blocks ⊆ blocks := fun b hb =>
    hops (List.mem_flatMap.mpr ⟨op, List.mem_of_getElem? hop, hb⟩)
  obtain ⟨c₁, h₁, hc₁⟩ := run_over env hs₀ hprefix
  obtain ⟨c₂, h₂, hc₂⟩ := run_over env hs₀ hops
  obtain ⟨hmem, c, h, hc⟩ := insertion_over h₁ hc₁ hopBlocks hi
  obtain ⟨j, hdescends⟩ := hcredits.descends h
  -- the row in the end is at the position it had when it was counted for
  obtain ⟨q, hq, hqhash⟩ := hdescends.ancestor
  obtain ⟨j', q', hq', hst, hindex⟩ := h₂.row_at_index hr
  have hsame : q.hash = q'.hash := by rw [← hex_inj, hqhash, hst.hash]
  obtain ⟨hpos, -⟩ := prefix_of_hash_eq hcol hsealed hc hc₂ hq hq' hsame
  exact ⟨hmem, c, j, hc, hdescends, by omega⟩

/-- **Disjoint evidence.** Two runs, of one node or of two, that end with
different blocks at one index: no block has added its tickets to both. -/
theorem credits_disjoint {s₀ s₀' : BlockChain} (hs₀ : s₀.localChains = [genesisRow])
    (hs₀' : s₀'.localChains = [genesisRow]) {ops ops' : List Op}
    (hops : ops.flatMap Op.blocks ⊆ blocks) (hops' : ops'.flatMap Op.blocks ⊆ blocks)
    {r r' : Row} (hr : r ∈ (run env s₀ ops).localChains)
    (hr' : r' ∈ (run env' s₀' ops').localChains) (hindex : r.blockIndex = r'.blockIndex)
    (hne : r.hash ≠ r'.hash) {x x' : Block} (hx : Credited env s₀ ops x r.hash)
    (hx' : Credited env' s₀' ops' x' r'.hash) : x.hash ≠ x'.hash := by
  intro heq
  obtain ⟨hmem, c, i, hc, hdescends, hi⟩ := hx.descends hcol hsealed hs₀ hops hr
  obtain ⟨hmem', c', i', hc', hdescends', hi'⟩ := hx'.descends hcol hsealed hs₀' hops' hr'
  obtain rfl : i = i' := by omega
  obtain ⟨p, hcand⟩ := hdescends.candidate
  obtain ⟨p', hcand'⟩ := hdescends'.candidate
  obtain ⟨q, hq, hqhash⟩ := hdescends.ancestor
  obtain ⟨q', hq', hqhash'⟩ := hdescends'.ancestor
  have hsame : q.hash = q'.hash := ancestors_eq hcol hsealed hc hc' hmem hmem' hcand hcand' heq
    hq hq' hdescends.below
  exact hne (by rw [← hqhash, ← hqhash', hsame])

end Linked

/-- A child of `b1`. -/
def aOnB1 : Block := sampleBlock b1.hash alice 2 2
  0x7def608d73237ecb29dcfdf65045b8296638276aeca7add572b6997a389fd3277d662bb99efd6ad9b61b49d64096e955a36fb12afb1e9331edbb7baaa969ff0a
  0xf53864f1135f39a45afd838d7318fe6f8cb4c5c96156fb23b962ac6159f81f94
  0x3f1d14d79b63ff6ce742e0680eada26f55f79ea4e9d2e1f47550120bfaf96400
  0x9cad54c8787e7ab52175e9dd0207ceb175eb15c150c702bdcc274d87b6a71008

def evidenceBlocks : List Block := [a1, a2, b1, aOnB1]

def evidenceEnv : Env ℚ := sampleEnv.signed evidenceBlocks

/-- One run holds `a1`, with the tickets of `a2`, the other `b1`, with
those of its child. -/
theorem credits_disjoint_sample :
    Credited evidenceEnv .init [.insert a1, .insert a2] a2 (hex a1.hash) ∧
      Credited evidenceEnv .init [.insert b1, .insert aOnB1] aOnB1 (hex b1.hash) ∧
      a2.hash ≠ aOnB1.hash := by
  have hbound : ∀ b ∈ evidenceBlocks, b.Bound := by
    have hnew : aOnB1.Bound := by decide +kernel
    intro b hb
    simp only [evidenceBlocks, List.mem_cons, List.not_mem_nil, or_false] at hb
    rcases hb with rfl | rfl | rfl | rfl
    · exact sampleBlocks_bound a1 (by simp)
    · exact sampleBlocks_bound a2 (by simp)
    · exact sampleBlocks_bound b1 (by simp)
    · exact hnew
  have hplain : ∀ b ∈ evidenceBlocks, b.transactionHash = [] := by decide +kernel
  have hcol : CollisionFree evidenceBlocks := collisionFree_of_nodup hbound (by decide +kernel)
  obtain ⟨hcredits, r, hr, hindex, hhash⟩ :
      Insertion.Credits evidenceEnv ⟨run evidenceEnv .init [.insert a1], a2⟩ (hex a1.hash) ∧
        ∃ r ∈ (run evidenceEnv .init [.insert a1, .insert a2]).localChains,
          r.blockIndex = 1 ∧ r.hash = hex a1.hash := by decide +kernel
  obtain ⟨hcredits', r', hr', hindex', hhash'⟩ :
      Insertion.Credits evidenceEnv ⟨run evidenceEnv .init [.insert b1], aOnB1⟩ (hex b1.hash) ∧
        ∃ r ∈ (run evidenceEnv .init [.insert b1, .insert aOnB1]).localChains,
          r.blockIndex = 1 ∧ r.hash = hex b1.hash := by decide +kernel
  have ha : Credited evidenceEnv .init [.insert a1, .insert a2] a2 (hex a1.hash) :=
    ⟨1, .insert a2, rfl, _, List.mem_singleton_self _, rfl, hcredits⟩
  have hb : Credited evidenceEnv .init [.insert b1, .insert aOnB1] aOnB1 (hex b1.hash) :=
    ⟨1, .insert aOnB1, rfl, _, List.mem_singleton_self _, rfl, hcredits'⟩
  have hne : hex a1.hash ≠ hex b1.hash := by decide +kernel
  refine ⟨ha, hb, credits_disjoint hcol (fun b hb => ⟨hbound b hb, .inl (hplain b hb)⟩) rfl rfl
    ?_ ?_ hr hr' (hindex.trans hindex'.symm) ?_ ?_ ?_⟩
  · simp [Op.blocks, evidenceBlocks]
  · simp [Op.blocks, evidenceBlocks]
  · rwa [hhash, hhash']
  · rwa [hhash]
  · rwa [hhash']

end Cpos
