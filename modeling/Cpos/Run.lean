import Cpos.Merge

/-!
# Runs

A node's store changes through three calls: `insert`, `merge` and
`update_round`. A run is a sequence of them, each with arbitrary blocks,
from a table that holds the genesis row only; a call that raises leaves
the rows it had written. The loops of `update_round` are given any
amount of fuel, so the states a run can reach include every state in
which a longer loop could have been interrupted.

`update_round` does to the table nothing but set `confirmed` flags
(`updateRound_confirms`), so every reachable table represents a chain
(`Reachable.represents`); `Reachable.wellFormed` spells that out on the
rows.
-/

namespace Cpos

open Python ByteString LinkedChain BlockChain

variable {K : Type} [PyNum K] {env : Env K} {s s' : BlockChain} {c : Chain (rules env)}

/-! ## What update_round does to the table -/

/-- `r'` is `r`, or `r` confirmed. -/
def Row.ConfirmedFrom (r r' : Row) : Prop := r' = r ∨ r' = { r with confirmed := 1 }

/-- The rows of `s'` are those of `s`, some of them confirmed since. -/
def Confirms (s s' : BlockChain) : Prop :=
  List.Forall₂ Row.ConfirmedFrom s.localChains s'.localChains

instance : Std.Refl Confirms where
  refl _ := List.forall₂_same.mpr fun _ _ => .inl rfl

theorem Row.ConfirmedFrom.trans {r r' r'' : Row} (h : r.ConfirmedFrom r')
    (h' : r'.ConfirmedFrom r'') : r.ConfirmedFrom r'' := by
  rcases h with rfl | rfl
  · exact h'
  · rcases h' with rfl | rfl
    · exact .inr rfl
    · exact .inr rfl

instance : IsTrans BlockChain Confirms where
  trans s s' s'' h h' := by
    refine List.forall₂_iff_get.mpr ⟨h.length_eq.trans h'.length_eq, fun i h₁ h₂ => ?_⟩
    have hi : i < s'.localChains.length := h.length_eq ▸ h₁
    exact ((List.forall₂_iff_get.mp h).2 i h₁ hi).trans ((List.forall₂_iff_get.mp h').2 i hi h₂)

theorem confirms_of_eq (h : s'.localChains = s.localChains) : Confirms s s' := by
  rw [Confirms, h]
  exact refl_of Confirms s

theorem confirmBlock_confirms (id : Bytes) : Keeps Confirms (confirmBlock id) := fun s => by
  show List.Forall₂ _ s.localChains (s.localChains.map (Row.confirm id))
  rw [List.forall₂_map_right_iff]
  refine List.forall₂_same.mpr fun r _ => ?_
  unfold Row.confirm
  split
  · exact .inr rfl
  · exact .inl rfl

/-- Writes to attributes other than the table. -/
theorem keeps_modify {f : BlockChain → BlockChain}
    (hf : ∀ s, (f s).localChains = s.localChains) :
    Keeps Confirms (modify f : Call Unit) := fun s => confirms_of_eq (hf s)

section Queries

variable {R : BlockChain → BlockChain → Prop} [Std.Refl R]

theorem keeps_fetchone (rows : List Row) : Keeps R (fetchone rows) := by
  unfold fetchone
  split
  · exact keeps_pure _
  · exact keeps_throw _

theorem keeps_bytesFromHex (t : List Char) : Keeps R (bytesFromHex t) := by
  unfold bytesFromHex
  split
  · exact keeps_pure _
  · exact keeps_throw _

theorem keeps_selectWhere (q : Row → Bool) : Keeps R (selectWhere q) :=
  fun s => refl_of R s

theorem keeps_numberOfBlocks : Keeps R numberOfBlocks := fun s => refl_of R s

variable [IsTrans BlockChain R]

theorem keeps_lastConfirmedBlockInfo : Keeps R lastConfirmedBlockInfo :=
  keeps_bind (keeps_selectWhere _) fun _ => keeps_bind (keeps_fetchone _) fun _ =>
    keeps_bind (keeps_bytesFromHex _) fun _ => keeps_pure _

theorem keeps_lastBlockId : Keeps R lastBlockId :=
  keeps_bind (keeps_selectWhere _) fun _ => keeps_bind (keeps_fetchone _) fun _ =>
    keeps_bytesFromHex _

theorem keeps_getLastBlockHash : Keeps R getLastBlockHash :=
  keeps_bind (keeps_selectWhere _) fun _ => keeps_bind (keeps_fetchone _) fun _ =>
    keeps_bytesFromHex _

theorem keeps_oldestUnconfirmedBlock : Keeps R oldestUnconfirmedBlock :=
  keeps_bind (keeps_selectWhere _) fun _ => keeps_bind (keeps_fetchone _) fun _ =>
    keeps_bind (keeps_bytesFromHex _) fun _ => keeps_pure _

end Queries

/-- What the writes of `update_round` change. -/
structure RoundWrites (R : BlockChain → BlockChain → Prop) : Prop where
  confirm : ∀ id, Keeps R (confirmBlock id)
  attributes : ∀ f : BlockChain → BlockChain,
    (∀ s, (f s).localChains = s.localChains ∧ (f s).currentRound = s.currentRound ∧
      (f s).clock = s.clock) → Keeps R (modify f : Call Unit)

section Writes

variable {R : BlockChain → BlockChain → Prop} [Std.Refl R] [IsTrans BlockChain R]
  (hwrites : RoundWrites R)
include hwrites

theorem confirmLoop_keeps (round last : Int) (thresholdFuel : Nat) :
    ∀ (fuel : Nat) (avg : Option K), Keeps R (confirmLoop env round last thresholdFuel avg fuel)
  | 0, _ => keeps_throw _
  | fuel + 1, avg => by
      rw [confirmLoop]
      refine keeps_bind keeps_oldestUnconfirmedBlock fun ⟨oldestIndex, oldestId, numSuc, r⟩ => ?_
      simp only
      split
      · refine keeps_bind (keeps_eval _) fun avg => keeps_bind (keeps_eval _) fun thresh => ?_
        split
        · exact keeps_bind (hwrites.confirm _) fun _ =>
            keeps_bind (hwrites.attributes _ fun _ => ⟨rfl, rfl, rfl⟩) fun _ =>
              confirmLoop_keeps _ _ _ fuel _
        · exact keeps_pure _
      · exact keeps_pure _

theorem detectFork_keeps (thresholdFuel : Nat) (locals : RoundLocals K) :
    Keeps R (detectFork env thresholdFuel locals) := by
  unfold detectFork
  split
  · refine keeps_bind (keeps_eval _) fun thresh => ?_
    split
    · exact keeps_throw _
    · split
      · exact hwrites.attributes _ fun _ => ⟨rfl, rfl, rfl⟩
      · exact keeps_pure _
  · exact keeps_pure _

end Writes

theorem roundWrites_confirms : RoundWrites Confirms where
  confirm := confirmBlock_confirms
  attributes _ hf := keeps_modify fun s => (hf s).1

theorem confirmLoop_confirms (round last : Int) (thresholdFuel fuel : Nat) (avg : Option K) :
    Keeps Confirms (confirmLoop env round last thresholdFuel avg fuel) :=
  confirmLoop_keeps roundWrites_confirms round last thresholdFuel fuel avg

theorem detectFork_confirms (thresholdFuel : Nat) (locals : RoundLocals K) :
    Keeps Confirms (detectFork env thresholdFuel locals) :=
  detectFork_keeps roundWrites_confirms thresholdFuel locals

theorem updateRound_confirms (fuel : Nat) : Keeps Confirms (updateRound env fuel) := by
  unfold updateRound
  refine keeps_bind (fun s => confirms_of_eq rfl) fun now => keeps_bind (keeps_eval _) fun q =>
    keeps_bind (keeps_eval _) fun round => keeps_bind keeps_get fun s => ?_
  split
  · exact keeps_pure _
  refine keeps_bind (keeps_modify fun _ => rfl) fun _ =>
    keeps_bind keeps_lastConfirmedBlockInfo fun ⟨_, _, _⟩ => keeps_bind keeps_lastBlockId fun _ => ?_
  split
  · exact keeps_pure _
  · exact keeps_bind (confirmLoop_confirms _ _ _ _ _) fun _ => detectFork_confirms _ _

theorem Row.ConfirmedFrom.static {r r' : Row} (h : r.ConfirmedFrom r') : r.static = r'.static := by
  rcases h with rfl | rfl
  · rfl
  · rfl

theorem Row.ConfirmedFrom.arriveTime {r r' : Row} (h : r.ConfirmedFrom r') :
    r.arriveTime = r'.arriveTime := by
  rcases h with rfl | rfl
  · rfl
  · rfl

theorem Confirms.getElem? (hs : Confirms s s') {i : Nat} {r : Row}
    (hr : s.localChains[i]? = some r) :
    ∃ r', s'.localChains[i]? = some r' ∧ r.ConfirmedFrom r' := by
  obtain ⟨hi, rfl⟩ := List.getElem?_eq_some_iff.mp hr
  have hi' : i < s'.localChains.length := hs.length_eq ▸ hi
  exact ⟨_, List.getElem?_eq_getElem hi', (List.forall₂_iff_get.mp hs).2 i hi hi'⟩

theorem Confirms.getElem?_rev (hs : Confirms s s') {i : Nat} {r' : Row}
    (hr' : s'.localChains[i]? = some r') :
    ∃ r, s.localChains[i]? = some r ∧ r.ConfirmedFrom r' := by
  obtain ⟨hi', rfl⟩ := List.getElem?_eq_some_iff.mp hr'
  have hi : i < s.localChains.length := hs.length_eq.symm ▸ hi'
  exact ⟨_, List.getElem?_eq_getElem hi, (List.forall₂_iff_get.mp hs).2 i hi hi'⟩

/-- Confirming rows does not change which chain the table represents. -/
theorem Represents.confirms (h : Represents env s c) (hs : Confirms s s') :
    Represents env s' c := by
  constructor
  · rw [← h.rows, eq_comm, ← List.forall₂_eq_eq_eq, List.forall₂_map_left_iff,
      List.forall₂_map_right_iff]
    exact hs.imp fun r r' hr => hr.static
  · have hgen := h.genesis
    rw [Confirms] at hs
    generalize s.localChains = rows, s'.localChains = rows' at hs hgen ⊢
    cases hs with
    | nil => cases hgen
    | cons hr _ =>
        obtain rfl := Option.some.inj hgen
        rcases hr with rfl | rfl
        · rfl
        · rfl
  · intro r' hr'
    obtain ⟨i, hi⟩ := List.mem_iff_getElem?.mp hr'
    obtain ⟨r, hr, heq⟩ := hs.getElem?_rev hi
    rw [← heq.arriveTime]
    exact h.arrived r (List.mem_of_getElem? hr)

/-! ## Runs -/

/-- The attributes as `__init__` sets them before it calls
`update_round`. -/
def BlockChain.init : BlockChain where
  localChains := [genesisRow]
  lastConfirmationDelay := 0
  forkDetected := false
  forksDetected := 0
  currentRound := 0
  confirmationDelays := []
  clock := 0

/-- The calls that change the store. -/
inductive Op where
  | insert (block : Block)
  | merge (foreignBlocks : List Block)
  | updateRound (fuel : Nat)

def Op.call (env : Env K) : Op → Call Unit
  | .insert block => do let _ ← Cpos.insert env block
  | .merge foreignBlocks => do let _ ← Cpos.merge env foreignBlocks
  | .updateRound fuel => Cpos.updateRound env fuel

/-- The state a call leaves, also when it raises. -/
def step (env : Env K) (s : BlockChain) (op : Op) : BlockChain := after (op.call env) s

def run (env : Env K) (s : BlockChain) (ops : List Op) : BlockChain := ops.foldl (step env) s

theorem after_discard {α : Type} (x : Call α) (s : BlockChain) :
    after (do let _ ← x : Call Unit) s = after x s := by
  cases h : x s with
  | ok a s' => rw [after, bind_ok h, after_ok h]; rfl
  | error e s' => rw [after, bind_error h, after_error h]

@[simp] theorem step_insert (b : Block) (s : BlockChain) :
    step env s (.insert b) = after (insert env b) s := after_discard ..

@[simp] theorem step_merge (bs : List Block) (s : BlockChain) :
    step env s (.merge bs) = after (merge env bs) s := after_discard ..

@[simp] theorem step_updateRound (fuel : Nat) (s : BlockChain) :
    step env s (.updateRound fuel) = after (updateRound env fuel) s := rfl

theorem run_append (s : BlockChain) (ops ops' : List Op) :
    run env s (ops ++ ops') = run env (run env s ops) ops' := List.foldl_append

/-- A state some run leads to from a table that holds only the genesis
row. -/
def Reachable (env : Env K) (s : BlockChain) : Prop :=
  ∃ s₀ ops, s₀.localChains = [genesisRow] ∧ run env s₀ ops = s

/-- The blocks handed to a call. -/
def Op.blocks : Op → List Block
  | .insert block => [block]
  | .merge foreignBlocks => foreignBlocks
  | .updateRound _ => []

theorem step_represents (h : Represents env s c) (op : Op) :
    ∃ c', Represents env (step env s op) c' ∧ c'.blocks ⊆ c.blocks ++ op.blocks := by
  cases op with
  | insert b => rw [step_insert]; exact insert_represents h b
  | merge bs => rw [step_merge]; exact merge_represents h bs
  | updateRound fuel =>
      rw [step_updateRound]
      exact ⟨c, h.confirms (updateRound_confirms fuel s), List.subset_append_left ..⟩

/-- Every call of a run leaves a table that represents a chain, of the
blocks there were and those handed to the calls. -/
theorem run_represents : ∀ (ops : List Op) {s : BlockChain} {c : Chain (rules env)},
    Represents env s c → ∃ c', Represents env (run env s ops) c' ∧
      c'.blocks ⊆ c.blocks ++ ops.flatMap Op.blocks
  | [], _, c, h => ⟨c, h, List.subset_append_left ..⟩
  | op :: ops, s, c, h => by
      obtain ⟨c', h', hsub⟩ := step_represents h op
      obtain ⟨c'', h'', hsub'⟩ := run_represents ops h'
      refine ⟨c'', h'', List.Subset.trans hsub' ?_⟩
      rw [List.flatMap_cons, ← List.append_assoc]
      exact List.append_subset.mpr
        ⟨List.Subset.trans hsub (List.subset_append_left ..), List.subset_append_right ..⟩

theorem Reachable.represents (h : Reachable env s) : ∃ c, Represents env s c := by
  obtain ⟨s₀, ops, hs₀, rfl⟩ := h
  have h₀ : Represents env s₀ (genesisChain env) := represents_genesis hs₀
  obtain ⟨c, hc, -⟩ := run_represents ops h₀
  exact ⟨c, hc⟩

theorem Reachable.run (h : Reachable env s) (ops : List Op) :
    Reachable env (Cpos.run env s ops) := by
  obtain ⟨s₀, ops₀, hs₀, rfl⟩ := h
  exact ⟨s₀, ops₀ ++ ops, hs₀, run_append ..⟩

/-! ## A small network -/

/-- The `width` bytes of `n`, the most significant first. -/
def bytesOf (width n : Nat) : Bytes := (natBytesLE width n).reverse

/-- A block without transactions and with ticket 0, from its signature
and derived fields. -/
def sampleBlock (parentHash ownerPubkey : Bytes) (round index : Int)
    (signature node proof hash : Nat) : Block where
  parentHash
  ownerPubkey
  signedNodeHash := bytesOf 64 signature
  round
  index
  transactions := strList []
  transactionHash := []
  ticketNumber := 0
  nodeHash := bytesOf 32 node
  proofHash := bytesOf 32 proof
  hash := bytesOf 32 hash

def alice : Bytes := bytesOf 32 0x8a88e3dd7409f195fd52db2d3cba5d72ca6709bf1d94121bf3748801b40f6f5c

def bob : Bytes := bytesOf 32 0x8139770ea87d175f56a35466c34c7ecccb8d8a91b4ee37a25df60f5b8fc9b394

def a1 : Block := sampleBlock genesisBlock.hash alice 1 1
  0x3a396d271d5d8f2a6da91390842bf14cf2a7aa5720ddc7fe1e8228967a15dcb7451d2e7cf5d2ff0eea62d75327c1fbeaa290d0223acecaccf3e3cdbcc16d5302
  0xbde441af860f625a1977b22fd325474d4a0ac9c63e498302307fa5fede8894ec
  0xd93bef391c693dc4208c07354cacad6b48227b6b2495e425565fa53b3cd95a9f
  0x74037d4fd88c344a230c802e49a48999a9ef735cbd69b3ff949fbdcdf329b83d

/-- A sibling of `a1` with a smaller proof hash. -/
def b1 : Block := sampleBlock genesisBlock.hash bob 1 1
  0xe5bff6e15ae156072d533c0129f3ce58c15d8748ba2a8455aec681c6e410ce3df7510acbaa2808ffa7c50e4247e6af3ba389de33bfe1946dbb2b75a2a8d77a08
  0x48541d9c87ce25cea7ecbd1fd88bed690225b621227a796867589bb4a5a85f9c
  0x5522efee6f748b6f376ba98731b6f5839d33549563621ad7c970dbe17675a72f
  0x005b2fd01e2da42921af3cc3f6a7eb8a0599c720d31cdb23c7ee3098796fcead

def a2 : Block := sampleBlock a1.hash alice 2 2
  0x197422039e4eecae7f477dff698455e12a65d4ed739306727b6996ed10164b4580d67d249b61eeddad26e680fc9c3f65577d558e12f1014a541888329ddc3506
  0x96b5dd6fe2479f73ed18846a2262de18de2fc1a336857dd308d187cb5e4a15be
  0x48dcc28f4460e1caeb9f89df323c0e0a65d19ad8c2399da9b24758ad9db52d0e
  0xcd8d2947f77a9a886948d58cd8d5f19cf1058057dbeee6490ecebd30368ce43e

/-- A sibling of `a2` with a larger proof hash. -/
def b2 : Block := sampleBlock a1.hash bob 2 2
  0xb00cd1c7599e0d8eb01c3825e17336d98173a59fca0112a42a5d456d5f383ed02ef8a7359c967efd5e30c0d3446cc9baf3ab54301ccc09e8ec68dc74431fea0a
  0x46f96a5ba158625bc5d80caf1f60bcab5c6fc9ea6c2b0ac1e0ca733ed3ade289
  0x8d2eb71c14a44803cd8f2bf02894004d8756e0a8b71e21a5b97813b46256f0d8
  0x34b128e5105b8cfe973e103a101c6f5f21b9c5e5918b6412c053c4971330898e

def a3 : Block := sampleBlock a2.hash alice 3 3
  0xae4d9851614b30711464f6ed8fc40829ae372cbab9cd53ca9081e349c888303f0f84987134491840e1f833ae92a82d4ccf80a72227f8e6021629f74b6f137b04
  0xaa86458a576a67912e01b3dce2a2953f5ba347b7149bdb945f4b6d3874121c42
  0xf01a6a6214afb0c6583b0258b0d3d035c9e5ac2fa478c4b795063342c7b674dd
  0xf62cd6a7dfcdd4017388dc66190450c54b01ca056a34a3d42587b4b28b4a4b35

/-- In a round that does not fit its column. -/
def aFar : Block := sampleBlock genesisBlock.hash alice 2147483648 1
  0x8728af1da2120677675cb6a142ba8ac3e288d2bda2e1c9db39fff0ea56adf97eff7321a2bed0d9b4f86a8980014fa44352ec0cfc54cba1a731682793c7db2002
  0xa68954457cd3b0acb4077a8ce16e02da1c05ede0458582b44ba1ba63319af669
  0x257e69dfddbeae9af0f45139693d51da4462c2627459a1e1a04f9344b2ff329a
  0x7ee75bef1fe4527b885c7c86d9683104ca445834c4fa63a1b3256f54cd93463f

theorem column_natCast (n : Nat) : PyNum.column (n : ℚ) = (n : Int) := by
  have hfloor : ⌊(n : ℚ) + 1 / 2⌋ = (n : Int) := by
    rw [Int.floor_eq_iff]
    constructor <;> push_cast <;> linarith
  exact (if_pos (Nat.cast_nonneg n)).trans hfloor

theorem fits_seconds (seconds : Nat → Nat) (k : Nat) :
    fitsInteger (PyNum.column ((min (seconds k) (2 ^ 31 - 1) : Nat) : ℚ)) = true := by
  rw [column_natCast, fitsInteger, Bool.and_eq_true, decide_eq_true_iff, decide_eq_true_iff]
  omega

/-- A clock in whole seconds, which stops at the last of them that a row
can hold. -/
def Clock.ofNat (seconds : Nat → Nat) : Clock ℚ where
  reading k := (min (seconds k) (2 ^ 31 - 1) : Nat)
  fits := fits_seconds seconds

theorem Clock.ofNat_apply {seconds : Nat → Nat} {k : Nat} (h : seconds k < 2 ^ 31) :
    Clock.ofNat seconds k = (seconds k : ℚ) :=
  congrArg (Nat.cast (R := ℚ)) (min_eq_left (by omega))

theorem Clock.ofNat_monotone {seconds : Nat → Nat} (h : Monotone seconds) :
    Monotone (Clock.ofNat seconds).reading := fun _ _ hjk =>
  Nat.cast_le.mpr (min_le_min_right _ (h hjk))

/-- The signatures of the blocks above are genuine; the clock advances
by one round with each reading; every stake wins. -/
def sampleEnv : Env ℚ where
  parameters := { roundTime := 5, tolerance := 2, tau := 1, totalStake := 1 }
  genesisTimestamp := 0
  time := .ofNat fun k => 5 * k
  fromPublicBytes key := key.length = 32
  fromPublicBytes_length key h := by simpa using h
  verify key signature message :=
    [a1, b1, a2, b2, a3, aFar].any fun b =>
      b.ownerPubkey = key && b.signedNodeHash = signature && b.nodeHash = message

/-- A network on which the signatures of these blocks are the genuine ones. -/
def Env.signed (env : Env K) (blocks : List Block) : Env K :=
  { env with
    verify := fun key signature message => blocks.any fun b =>
      b.ownerPubkey = key && b.signedNodeHash = signature && b.nodeHash = message }

theorem sampleBlocks_bound : ∀ b ∈ [a1, b1, a2, b2, a3, aFar], b.Bound := by decide +kernel

example : ∀ b ∈ [a1, b1, a2, b2, a3], b.Storable := by decide +kernel

/-! ## Well-formed tables -/

/-- Consecutive rows, as positions of the table. -/
structure WellFormed (rows : List Row) : Prop where
  indices : rows.map Row.blockIndex = (List.range rows.length).map Int.ofNat
  genesis : rows[0]? = some genesisRow
  ids : (rows.map Row.id).Nodup
  parents : ∀ i r r', rows[i]? = some r → rows[i + 1]? = some r' → r'.parentHash = r.hash
  rounds : ∀ i r r', rows[i]? = some r → rows[i + 1]? = some r' → r.round < r'.round

theorem Represents.wellFormed (h : Represents env s c) : WellFormed s.localChains where
  indices := by
    refine List.ext_getElem? fun i => ?_
    rw [List.getElem?_map, List.getElem?_map]
    rcases Nat.lt_or_ge i s.localChains.length with hi | hi
    · rw [List.getElem?_range hi, List.getElem?_eq_getElem hi, Option.map_some, Option.map_some,
        h.indexed i _ (List.getElem?_eq_getElem hi)]
      rfl
    · rw [List.getElem?_eq_none hi, List.getElem?_eq_none (by rwa [List.length_range])]
      rfl
  genesis := by rw [← List.head?_eq_getElem?]; exact h.genesis
  ids := h.ids_nodup
  parents i r r' hr hr' := by
    obtain ⟨b, hb, hst⟩ := h.block_at hr
    obtain ⟨b', hb', hst'⟩ := h.block_at hr'
    rw [hst'.parentHash, hst.hash, (follows_at hb hb').parent]
  rounds i r r' hr hr' := by
    obtain ⟨b, hb, hst⟩ := h.block_at hr
    obtain ⟨b', hb', hst'⟩ := h.block_at hr'
    rw [hst'.round, hst.round]
    exact (follows_at hb hb').round

/-- **Chain well-formedness.** -/
theorem reachable_wellFormed (h : Reachable env s) : WellFormed s.localChains := by
  obtain ⟨c, hc⟩ := h.represents
  exact hc.wellFormed

/-- A run through all three calls. -/
theorem wellFormed_of_run :
    WellFormed (run sampleEnv .init
      [.insert a1, .insert b2, .updateRound 10, .merge [a2, a3], .insert b1]).localChains :=
  reachable_wellFormed ⟨.init, _, rfl, rfl⟩

end Cpos
