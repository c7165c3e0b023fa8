import Cpos.Run

/-!
# What a merge adopts

Two questions about `merge`. What is in the table after it (`merge_effect`):
if it returned `True`, the chain up to the ancestor with the foreign
blocks that `insert` takes one after another, in a hash-linked list a
prefix of the list; if it returned `False`, the rows it found, in every
column but the count.

And when it returns `True` (`returned_merge_iff`). The local blocks above
the ancestor are gone when `insert` compares proof hashes, so the
comparison has no say in it (`merge_worse_iff`); a list of blocks from
the local chain itself is always adopted, and the local blocks it does
not repeat are lost (`merge_own`).
-/

namespace Cpos

open Python ByteString LinkedChain BlockChain

variable {K : Type} [PyNum K] {env : Env K} {s s' : BlockChain} {c : Chain (rules env)}
  {first b : Block} {rest : List Block} {i : Nat} {p : Block}

/-! ## Hash-linked lists -/

/-- Each block names the one before it. -/
def Linked (bs : List Block) : Prop := bs.IsChain fun a b => b.parentHash = a.hash

/-- A block accepted whose parent is the tip is appended. -/
theorem blocks_offer_of_tip (hacc : c.Accepts b) {tip : Block}
    (htip : c.blocks.getLast? = some tip) (hb : b.parentHash = tip.hash) :
    (c.offer b).blocks = c.blocks ++ [b] := by
  obtain ⟨-, q, hq, hf⟩ := id hacc.1
  rw [List.getLast?_eq_getElem?] at htip
  have hpos := (rules env).pos_follows hf
  have hidx := c.index_unique hq htip (hf.parent.symm.trans hb)
  have hlen := c.length_pos
  rw [Chain.offer_of_accepts hacc, Chain.blocks_graft, List.take_of_length_le (by omega)]

/-- The blocks a chain takes from a list linked to its tip are appended
to it. -/
theorem blocks_offers_absorbed : ∀ (bs : List Block) {c : Chain (rules env)} {tip : Block},
    c.blocks.getLast? = some tip → Linked (tip :: bs) →
      (offers c (absorbed c bs)).blocks = c.blocks ++ absorbed c bs
  | [], c, _, _, _ => by
      rw [absorbed, List.append_nil]
      rfl
  | b :: bs, c, tip, htip, hlinked => by
      obtain ⟨hb, hlinked'⟩ := List.isChain_cons_cons.mp hlinked
      rw [absorbed]
      split
      · next hacc =>
        have hblocks := blocks_offer_of_tip hacc htip hb
        have htip' : (c.offer b).blocks.getLast? = some b := by
          rw [hblocks, List.getLast?_append]
          rfl
        have ih := blocks_offers_absorbed bs htip' hlinked'
        show (offers (c.offer b) (absorbed (c.offer b) bs)).blocks = _
        rw [ih, hblocks, List.append_assoc]
        rfl
      · rw [List.append_nil]
        rfl

/-! ## The effect of a merge -/

/-- A row without its count. -/
def Row.uncounted (r : Row) : Row := { r with numSuc := 0 }

theorem map_uncounted_counted (s : BlockChain) (index w : Int) :
    (s.counted index w).localChains.map Row.uncounted = s.localChains.map Row.uncounted := by
  simp only [BlockChain.counted, List.map_map]
  refine List.map_congr_left fun r _ => ?_
  simp only [Function.comp, Row.count]
  split <;> rfl

theorem merge_adopts_absorbed (h : Represents env s c) {l : List Block}
    (hrun : returned (merge env (first :: rest)) s = some (true, l)) :
    ∃ i p, ForkAt c first i p ∧ (upTo c i).Accepts first ∧
      Represents env (after (merge env (first :: rest)) s)
        (offers (upTo c i) (absorbed (upTo c i) (first :: rest))) := by
  obtain ⟨i, p, hf, hacc, h'⟩ := merge_adopts h (ok_of_returned hrun)
  refine ⟨i, p, hf, hacc, ?_⟩
  rw [absorbed, if_pos hacc]
  rw [← Chain.offer_of_accepts hacc] at h'
  exact h'

theorem merge_restores (h : Represents env s c) {l : List Block}
    (hrun : returned (merge env (first :: rest)) s = some (false, l)) :
    (after (merge env (first :: rest)) s).localChains.map Row.uncounted
      = s.localChains.map Row.uncounted := by
  have hspec := merge_spec h (allPrintable_of_returned hrun)
  rw [ok_of_returned hrun] at hspec
  generalize after (merge env (first :: rest)) s = s' at hspec ⊢
  cases hspec with
  | noAncestor _ => rfl
  | rejected _ _ _ _ => rfl
  | sameRound _ _ w _ _ _ => exact map_uncounted_counted s first.index w

/-- If `merge` returns `True`, the chain is the old one up to the parent
of the first foreign block, with the foreign blocks inserted that
`insert` takes one after another, at least the first; in a hash-linked
list these are a prefix that follows the parent. If it returns `False`,
every column of every row but `numSuc` is what it was. -/
structure MergeEffect (env : Env K) (s : BlockChain) (first : Block) (rest l : List Block) :
    Prop where
  adopted : returned (merge env (first :: rest)) s = some (true, l) →
    ∃ c i p, Represents env s c ∧ ForkAt c first i p ∧
      ∃ taken, taken = absorbed (upTo c i) (first :: rest) ∧
        taken ≠ [] ∧ taken <+: first :: rest ∧
        Represents env (after (merge env (first :: rest)) s) (offers (upTo c i) taken) ∧
        (Linked (first :: rest) →
          (after (merge env (first :: rest)) s).localChains.map Row.hash
            = (s.localChains.take (i + 1)).map Row.hash ++ taken.map fun b => hex b.hash)
  restored : returned (merge env (first :: rest)) s = some (false, l) →
    (after (merge env (first :: rest)) s).localChains.map Row.uncounted
      = s.localChains.map Row.uncounted

/-- **What a merge does**, in every reachable state. -/
theorem merge_effect (h : Reachable env s) (first : Block) (rest l : List Block) :
    MergeEffect env s first rest l := by
  obtain ⟨c, hc⟩ := h.represents
  refine ⟨fun hrun => ?_, merge_restores hc⟩
  obtain ⟨i, p, hf, hacc, h'⟩ := merge_adopts_absorbed hc hrun
  refine ⟨c, i, p, hc, hf, _, rfl, ?_, absorbed_isPrefix _ _, h', fun hlinked => ?_⟩
  · rw [absorbed, if_pos hacc]
    exact List.cons_ne_nil _ _
  · have htip : (upTo c i).blocks.getLast? = some p := getLast?_take i.succ_pos hf.parentAt
    have hlinked' : Linked (p :: first :: rest) :=
      List.isChain_cons_cons.mpr ⟨hf.parent.symm, hlinked⟩
    rw [h'.hashes, blocks_offers_absorbed _ htip hlinked', List.map_append, blocks_upTo,
      List.map_take, ← hc.hashes, List.map_take]

theorem merge_effect_sample :
    MergeEffect sampleEnv (run sampleEnv .init [.insert a1, .insert b2]) a2 [a3] [a3] :=
  merge_effect ⟨.init, _, rfl, rfl⟩ a2 [a3] [a3]

/-- `a1` is taken, `a3` is not: its parent is missing. -/
theorem merge_stops_early :
    returned (merge sampleEnv [a1, a3]) .init = some (true, [a3]) ∧
      (after (merge sampleEnv [a1, a3]) .init).localChains.map Row.hash
        ≠ [genesisBlock, a1, a3].map fun b => hex b.hash := by
  decide +kernel

/-! ## When a merge adopts -/

theorem returned_merge_iff (h : Represents env s c) (hf : ForkAt c first i p) (l : List Block) :
    returned (merge env (first :: rest)) s = some (true, l) ↔
      l = rest ∧ AllPrintable (first :: rest) ∧ (upTo c i).Accepts first
        ∧ ¬TailRaises env ((upTo c i).offer first) rest := by
  by_cases hprints : AllPrintable (first :: rest)
  swap
  · exact iff_of_false (fun hrun => hprints (allPrintable_of_returned hrun)) fun h => hprints h.2.1
  have hspec := merge_spec h hprints
  generalize hrun : merge env (first :: rest) s = r at hspec
  cases hspec with
  | noAncestor hno => exact absurd hf.parent_mem hno
  | rejected i' p' hf' hno =>
      obtain rfl := hf'.unique hf
      refine iff_of_false (by rw [returned_ok hrun]; simp) ?_
      rintro ⟨-, -, hacc, -⟩
      exact hno.not_accepts hacc
  | sameRound i' p' w hf' hc hround =>
      obtain rfl := hf'.unique hf
      refine iff_of_false (by rw [returned_ok hrun]; simp) ?_
      rintro ⟨-, -, hacc, -⟩
      exact hc.not_accepts (fun _ => by omega) hacc
  | headRaised i' p' hf' e s₂ hins hr =>
      obtain rfl := hf'.unique hf
      refine iff_of_false (by rw [returned_error hrun]; simp) ?_
      rintro ⟨-, -, hacc, -⟩
      exact hr.not_accepts hacc
  | adopted i' p' hf' s₂ s₃ hins hacc htail' =>
      obtain rfl := hf'.unique hf
      have hts := rest_spec h hins hacc rest
      rw [htail'] at hts
      cases hts with
      | returned hr _ =>
          rw [returned_ok hrun]
          refine ⟨fun heq => ⟨by simpa using heq.symm, hprints, hacc, hr⟩,
            fun ⟨hl, _⟩ => by rw [hl]⟩
  | tailRaised i' p' hf' e s₂ s₃ hins hacc htail' =>
      obtain rfl := hf'.unique hf
      have hts := rest_spec h hins hacc rest
      rw [htail'] at hts
      cases hts with
      | raised hr _ =>
          refine iff_of_false (by rw [returned_error hrun]; simp) ?_
          rintro ⟨-, -, -, hno⟩
          exact hno hr

/-! ## Blocks of the local chain itself -/

/-- A chain cut at `n` takes from its own blocks the one at `n`, and
refuses the others without an error. -/
theorem own_block (c : Chain (rules env)) {n : Nat} (hn : 0 < n) (hle : n ≤ c.blocks.length)
    (hb : b ∈ c.blocks) :
    (c.blocks[n]? = some b ∧ (c.cut n hn).Accepts b ∧
      ((c.cut n hn).offer b).blocks = c.blocks.take (n + 1)) ∨
    (c.blocks[n]? ≠ some b ∧ ¬(c.cut n hn).Accepts b ∧ ¬Raises env (c.cut n hn) b) := by
  obtain ⟨j, hj⟩ := List.mem_iff_getElem?.mp hb
  have hidx := index_at hj
  have hrefused (hr : Refused env (c.cut n hn) b) (hne : j ≠ n) :
      c.blocks[n]? ≠ some b ∧ ¬(c.cut n hn).Accepts b ∧ ¬Raises env (c.cut n hn) b :=
    ⟨fun hn' => hne (c.index_unique hj hn' rfl), hr.not_accepts, hr.not_raises⟩
  rcases Nat.lt_trichotomy j n with hjn | rfl | hjn
  · -- it is still there
    refine .inr (hrefused (.known (List.mem_map.mpr ⟨b, ?_, rfl⟩)) (by omega))
    exact List.mem_of_getElem? ((List.getElem?_take_of_lt hjn).trans hj)
  · have hpos : (rules env).pos b = j := c.pos_getElem? hj
    have hp := List.getElem?_eq_getElem (l := c.blocks) (i := j - 1) (by omega)
    have hacc : (c.cut j hn).Accepts b := by
      refine ⟨⟨fun hmem => ?_, c.blocks[j - 1], ?_, ?_⟩, fun q hq => ?_⟩
      · obtain ⟨x, hx, hxb⟩ := List.mem_map.mp hmem
        obtain ⟨k, hk⟩ := List.mem_iff_getElem?.mp hx
        have hklt := (List.getElem?_eq_some_iff.mp hk).1
        have := c.index_unique (getElem?_of_take hk) hj hxb
        rw [Chain.blocks_cut, List.length_take] at hklt
        omega
      · rw [hpos, Chain.blocks_cut, List.getElem?_take_of_lt (by omega)]
        exact hp
      · exact follows_at hp (by rw [show j - 1 + 1 = j by omega]; exact hj)
      · rw [hpos, Chain.blocks_cut, List.getElem?_take, if_neg (by omega)] at hq
        cases hq
    refine .inl ⟨hj, hacc, ?_⟩
    rw [Chain.offer_of_accepts hacc, Chain.blocks_graft, hpos, Chain.blocks_cut,
      List.take_take, Nat.min_self, List.take_add_one, hj]
    rfl
  · -- its parent is not there yet
    refine .inr (hrefused (.misplaced (by omega) fun p hc => ?_) (by omega))
    have hlt := (List.getElem?_eq_some_iff.mp hc.parentAt).1
    rw [Chain.blocks_cut, List.length_take] at hlt
    omega

/-- Blocks of the local chain, offered to the chain cut at `n`: as many
are taken as repeat the blocks cut off. -/
theorem own_blocks : ∀ (bs : List Block) (c : Chain (rules env)) {n : Nat} (hn : 0 < n),
    n ≤ c.blocks.length → (∀ b ∈ bs, b ∈ c.blocks) →
      ¬TailRaises env (c.cut n hn) bs ∧
      ∃ m ≤ c.blocks.length, (offers (c.cut n hn) (absorbed (c.cut n hn) bs)).blocks
          = c.blocks.take m ∧ (m = c.blocks.length ↔ c.blocks.drop n <+: bs)
  | [], c, n, hn, hle, _ => by
      refine ⟨id, n, hle, rfl, ?_⟩
      rw [List.prefix_nil, List.drop_eq_nil_iff]
      omega
  | b :: bs, c, n, hn, hle, hmem => by
      rcases own_block c hn hle (hmem b (List.mem_cons_self ..)) with
        ⟨hb, hacc, hblocks⟩ | ⟨hb, hacc, hr⟩
      · have hlt := (List.getElem?_eq_some_iff.mp hb).1
        have hcut : (c.cut n hn).offer b = c.cut (n + 1) n.succ_pos := Chain.ext hblocks
        obtain ⟨hno, m, hm, htake, hiff⟩ := own_blocks bs c n.succ_pos hlt
          fun x hx => hmem x (List.mem_cons_of_mem _ hx)
        refine ⟨?_, m, hm, ?_, ?_⟩
        · rintro (hr | ⟨-, hr⟩)
          · exact hr.not_accepts hacc
          · exact hno (hcut ▸ hr)
        · rw [absorbed, if_pos hacc, hcut]
          show (offers ((c.cut n hn).offer b) _).blocks = _
          rw [hcut]
          exact htake
        · rw [hiff, List.drop_eq_getElem_cons hlt, (List.getElem?_eq_some_iff.mp hb).2,
            List.cons_prefix_cons]
          simp
      · refine ⟨?_, n, hle, ?_, ?_⟩
        · rintro (hr' | ⟨hacc', -⟩)
          · exact hr hr'
          · exact hacc hacc'
        · rw [absorbed, if_neg hacc]
          rfl
        · constructor
          · rintro rfl
            rw [List.drop_length]
            exact List.nil_prefix
          · intro hpre
            by_contra hne
            have hlt : n < c.blocks.length := by omega
            rw [List.drop_eq_getElem_cons hlt, List.cons_prefix_cons] at hpre
            exact hb (by rw [List.getElem?_eq_getElem hlt, hpre.1])

/-- A local block whose parent is at `i` is the one at `i + 1`, or the
genesis block, which is recorded as its own parent. -/
theorem ForkAt.own (hf : ForkAt c first i p) (hmem : first ∈ c.blocks) :
    first = genesisBlock ∨ c.blocks[i + 1]? = some first := by
  obtain ⟨j, hj⟩ := List.mem_iff_getElem?.mp hmem
  cases j with
  | zero => exact .inl (Option.some.inj (hj.symm.trans c.getElem?_zero))
  | succ j =>
      have hlt := (List.getElem?_eq_some_iff.mp hj).1
      have hp := List.getElem?_eq_getElem (l := c.blocks) (i := j) (by omega)
      obtain rfl := c.index_unique hp hf.parentAt
        ((follows_at hp hj).parent.symm.trans hf.parent.symm)
      exact .inr hj

/-- A list of local blocks is adopted; the chain is no shorter after it
exactly if the list starts with all the blocks above the ancestor. -/
theorem merge_own (h : Represents env s c) (hf : ForkAt c first i p)
    (hfirst : c.blocks[i + 1]? = some first) (hmem : ∀ b ∈ first :: rest, b ∈ c.blocks) :
    returned (merge env (first :: rest)) s = some (true, rest) ∧
      (s.localChains.length ≤ (after (merge env (first :: rest)) s).localChains.length ↔
        c.blocks.drop (i + 1) <+: first :: rest) := by
  have hi := (List.getElem?_eq_some_iff.mp hf.parentAt).1
  obtain ⟨hno, m, hm, htake, hiff⟩ := own_blocks (first :: rest) c i.succ_pos hi hmem
  have hacc : (upTo c i).Accepts first := by
    rcases own_block c i.succ_pos hi (hmem first (List.mem_cons_self ..)) with
      ⟨-, hacc, -⟩ | ⟨hne, -⟩
    · exact hacc
    · exact absurd hfirst hne
  have hrun : returned (merge env (first :: rest)) s = some (true, rest) :=
    (returned_merge_iff h hf rest).mpr
      ⟨rfl, fun b hb => printable_of_mem (hmem b hb), hacc, fun hr => hno (.inr ⟨hacc, hr⟩)⟩
  refine ⟨hrun, ?_⟩
  obtain ⟨i', p', hf', -, h'⟩ := merge_adopts_absorbed h hrun
  obtain rfl := hf'.unique hf
  have hlen : (offers (upTo c i') (absorbed (upTo c i') (first :: rest))).blocks.length
      = min m c.blocks.length := (congrArg List.length htake).trans List.length_take
  rw [h.length, h'.length, ← hiff, hlen]
  omega

theorem genesis_refused (c : Chain (rules env)) : Refused env c genesisBlock :=
  .known (List.mem_map.mpr ⟨genesisBlock, List.mem_of_getElem? c.getElem?_zero, rfl⟩)

/-- The genesis block as a head is refused. -/
theorem merge_genesis (h : Represents env s c) (rest : List Block) :
    (after (merge env (genesisBlock :: rest)) s).localChains.length = s.localChains.length := by
  refine after_merge_cases (P := fun t => t.localChains.length = s.localChains.length) h
    genesisBlock rest ?unprintable ?noAncestor ?rejected ?sameRound ?headRaised ?adopted
  case unprintable => exact fun _ => rfl
  case noAncestor => exact fun _ => rfl
  case rejected => exact fun _ _ _ _ => rfl
  case sameRound =>
    exact fun i p w _ hc _ => absurd hc ((genesis_refused _).not_counted p w)
  case headRaised => exact fun i p _ hr => absurd hr (genesis_refused _).not_raises
  case adopted => exact fun i p _ _ _ hacc => absurd hacc (genesis_refused _).not_accepts

/-! ## Worse forks -/

/-- The law: a `True` means that there was no block above the ancestor,
or one with a larger proof hash. -/
def OnlyBetter (env : Env K) (s : BlockChain) (c : Chain (rules env)) (i : Nat) (first : Block)
    (rest : List Block) : Prop :=
  ∀ l, returned (merge env (first :: rest)) s = some (true, l) →
    ∀ q, c.blocks[i + 1]? = some q → first.proofHash < q.proofHash

/-- **Worse forks.** In every reachable state: a merge obeys the law
exactly if the fork is no worse, or one of its blocks cannot be printed,
or its head fails a check on the chain cut after the ancestor, or one of
its other blocks makes `insert` raise; and a merge of local blocks leaves
the chain as long as it was exactly if it repeats all of them. -/
theorem merge_worse_iff (h : Reachable env s) :
    ∃ c, Represents env s c ∧ ∀ first rest i p, ForkAt c first i p →
      (OnlyBetter env s c i first rest ↔
        (∀ q, c.blocks[i + 1]? = some q → first.proofHash < q.proofHash) ∨
          ¬AllPrintable (first :: rest) ∨ ¬(upTo c i).Accepts first ∨
          TailRaises env ((upTo c i).offer first) rest) ∧
      ((∀ b ∈ first :: rest, b ∈ c.blocks) →
        (s.localChains.length ≤ (after (merge env (first :: rest)) s).localChains.length ↔
          first = genesisBlock ∨ c.blocks.drop (i + 1) <+: first :: rest)) := by
  obtain ⟨c, hc⟩ := h.represents
  refine ⟨c, hc, fun first rest i p hf => ⟨?_, fun hmem => ?_⟩⟩
  swap
  · rcases hf.own (hmem first (List.mem_cons_self ..)) with rfl | hfirst
    · rw [merge_genesis hc]
      exact iff_of_true (le_refl _) (.inl rfl)
    · rw [(merge_own hc hf hfirst hmem).2, or_iff_right]
      rintro rfl
      have := c.index_unique hfirst c.getElem?_zero rfl
      omega
  simp only [OnlyBetter, returned_merge_iff hc hf]
  constructor
  · intro hlaw
    by_cases hprints : AllPrintable (first :: rest)
    swap
    · exact .inr (.inl hprints)
    by_cases hacc : (upTo c i).Accepts first
    · by_cases hr : TailRaises env ((upTo c i).offer first) rest
      · exact .inr (.inr (.inr hr))
      · exact .inl (hlaw rest ⟨rfl, hprints, hacc, hr⟩)
    · exact .inr (.inr (.inl hacc))
  · rintro (hbetter | hlong | hno | hr) l ⟨-, hprints, hacc, hnr⟩
    · exact hbetter
    · exact absurd hprints hlong
    · exact absurd hacc hno
    · exact absurd hr hnr

/-- The fork of `a1` from the chain of `b1`, and the merge of the genesis
block. -/
theorem merge_worse_iff_sample :
    ∃ c, Represents sampleEnv (run sampleEnv .init [.insert b1]) c ∧
      (OnlyBetter sampleEnv (run sampleEnv .init [.insert b1]) c 0 a1 [] ↔
        (∀ q, c.blocks[1]? = some q → a1.proofHash < q.proofHash) ∨ ¬AllPrintable [a1] ∨
          ¬(upTo c 0).Accepts a1 ∨ TailRaises sampleEnv ((upTo c 0).offer a1) []) ∧
      ((run sampleEnv .init [.insert b1]).localChains.length
          ≤ (after (merge sampleEnv [genesisBlock])
            (run sampleEnv .init [.insert b1])).localChains.length ↔
        genesisBlock = genesisBlock ∨ c.blocks.drop 1 <+: [genesisBlock]) := by
  have hreachable : Reachable sampleEnv (run sampleEnv .init [.insert b1]) := ⟨.init, _, rfl, rfl⟩
  obtain ⟨c, hc, hlaw⟩ := merge_worse_iff hreachable
  have hroot : c.blocks[0]? = some genesisBlock := c.getElem?_zero
  refine ⟨c, hc, (hlaw a1 [] 0 genesisBlock ⟨hroot, rfl⟩).1,
    (hlaw genesisBlock [] 0 genesisBlock ⟨hroot, rfl⟩).2 fun b hb => ?_⟩
  rw [List.mem_singleton.mp hb]
  exact List.mem_of_getElem? hroot

/-- `a1` replaces its better sibling `b1`; and merged into its own chain,
it drops the blocks above. -/
theorem worse_fork_adopted :
    returned (merge sampleEnv [a1]) (run sampleEnv .init [.insert b1]) = some (true, []) ∧
      ¬a1.proofHash < b1.proofHash ∧
      (run sampleEnv .init [.insert a1, .insert a2, .merge [a1]]).localChains.length
        < (run sampleEnv .init [.insert a1, .insert a2]).localChains.length := by
  decide +kernel

end Cpos
