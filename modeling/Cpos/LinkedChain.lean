import Mathlib.Data.List.Chain
import Mathlib.Data.Set.Insert
import Mathlib.Order.Defs.LinearOrder

/-!
# Chains that replace their suffix

The general structure behind a node's local chain, over any type of
blocks.

- `Rules` is what a chain is built by: a root, an identity and a position
  for each block, a key by which competing blocks are compared, and the
  relation `follows p b`, "`b` may stand directly after `p`".
- `Chain R` is a list of blocks that starts with the root, in which each
  block may follow the one before, and in which identities are distinct.
  These are fields: a value of this type is well formed. `pos_getElem?`
  is the fact everything positional rests on: a block stands where its
  position says.
- `offer` is the replacement rule: a new block goes to its position if it
  may follow the block before it and, where the position is taken, if its
  key is smaller than that of the block there; whatever stood there and
  after it is dropped.

Two results are stated at this level.

- *Order independence* (`offers_greedy`, `IsGreedy.unique`): if every
  block is offered before its children, the chain is at each moment the
  greedy path of the blocks offered so far, hence depends on the order in
  no way. The step lemma is `offer_greedy`.
- *Identities determine prefixes* (`take_eq_of_ident`): where the identity
  of a block determines that of its predecessor, two chains that share an
  identity share everything up to it, at the same positions.
-/

namespace LinkedChain

structure Rules (β ι κ : Type) where
  root : β
  ident : β → ι
  pos : β → Nat
  key : β → κ
  follows : β → β → Prop
  pos_root : pos root = 0
  pos_follows : ∀ {p b}, follows p b → pos b = pos p + 1

/-- A well-formed chain. -/
@[ext]
structure Chain {β ι κ : Type} (R : Rules β ι κ) where
  blocks : List β
  head : blocks.head? = some R.root
  linked : blocks.IsChain R.follows
  nodup : (blocks.map R.ident).Nodup

variable {β ι κ : Type} {R : Rules β ι κ}

theorem getLast?_take {l : List β} {k : Nat} {p : β} (hk : 0 < k) (hp : l[k - 1]? = some p) :
    (l.take k).getLast? = some p := by
  have hlen := (List.getElem?_eq_some_iff.mp hp).1
  rw [List.getLast?_eq_getElem?, List.length_take, Nat.min_eq_left (by omega),
    List.getElem?_take, if_pos (by omega)]
  exact hp

/-- In a list whose steps go into `S`, all but the head is in `S`. -/
theorem mem_of_isChain {T : β → β → Prop} {S : Set β} {l : List β} {r : β}
    (hhead : l.head? = some r) (hl : l.IsChain T) (hT : ∀ p b, T p b → b ∈ S) {b : β}
    (hb : b ∈ l) : b = r ∨ b ∈ S := by
  obtain ⟨i, hi⟩ := List.mem_iff_getElem?.mp hb
  cases i with
  | zero =>
      rw [← List.head?_eq_getElem?, hhead] at hi
      exact Or.inl (Option.some.inj hi).symm
  | succ i =>
      obtain ⟨hlt, rfl⟩ := List.getElem?_eq_some_iff.mp hi
      exact Or.inr (hT _ _ (List.isChain_iff_getElem.mp hl i hlt))

namespace Chain

/-! ## Positions -/

theorem getElem?_zero (c : Chain R) : c.blocks[0]? = some R.root := by
  rw [← List.head?_eq_getElem?]; exact c.head

theorem length_pos (c : Chain R) : 0 < c.blocks.length :=
  (List.getElem?_eq_some_iff.mp c.getElem?_zero).1

theorem exists_tip (c : Chain R) : ∃ tip, c.blocks.getLast? = some tip :=
  ⟨_, List.getLast?_eq_some_getLast (List.ne_nil_of_length_pos c.length_pos)⟩

theorem follows_getElem? (c : Chain R) {i : Nat} {p b : β} (hp : c.blocks[i]? = some p)
    (hb : c.blocks[i + 1]? = some b) : R.follows p b := by
  obtain ⟨hi, rfl⟩ := List.getElem?_eq_some_iff.mp hp
  obtain ⟨hi', rfl⟩ := List.getElem?_eq_some_iff.mp hb
  exact List.isChain_iff_getElem.mp c.linked i hi'

/-- A block stands at its position. -/
theorem pos_getElem? (c : Chain R) :
    ∀ {i : Nat} {b : β}, c.blocks[i]? = some b → R.pos b = i
  | 0, b, h => by
      obtain rfl := Option.some.inj (c.getElem?_zero.symm.trans h)
      exact R.pos_root
  | i + 1, b, h => by
      have hi : i < c.blocks.length := by
        have := (List.getElem?_eq_some_iff.mp h).1; omega
      have hp := List.getElem?_eq_getElem hi
      rw [R.pos_follows (c.follows_getElem? hp h), c.pos_getElem? hp]

theorem getElem?_pos_of_mem (c : Chain R) {b : β} (h : b ∈ c.blocks) :
    c.blocks[R.pos b]? = some b := by
  obtain ⟨i, hi⟩ := List.mem_iff_getElem?.mp h
  rwa [c.pos_getElem? hi]

theorem pos_lt_of_mem_take (c : Chain R) {k : Nat} {b : β} (h : b ∈ c.blocks.take k) :
    R.pos b < k := by
  obtain ⟨i, hi⟩ := List.mem_iff_getElem?.mp h
  rw [List.getElem?_take] at hi
  split at hi
  · next hik => rwa [c.pos_getElem? hi]
  · cases hi

/-- Blocks of a chain with the same identity are at the same position. -/
theorem index_unique (c : Chain R) {i j : Nat} {a b : β} (ha : c.blocks[i]? = some a)
    (hb : c.blocks[j]? = some b) (h : R.ident a = R.ident b) : i = j := by
  have hi : i < (c.blocks.map R.ident).length := by
    rw [List.length_map]; exact (List.getElem?_eq_some_iff.mp ha).1
  refine (List.getElem?_inj hi c.nodup).mp ?_
  rw [List.getElem?_map, List.getElem?_map, ha, hb, Option.map_some, Option.map_some, h]

/-! ## Cutting and grafting -/

/-- The first `k` blocks. -/
def cut (c : Chain R) (k : Nat) (hk : 0 < k) : Chain R where
  blocks := c.blocks.take k
  head := by rw [List.head?_take, if_neg (by omega)]; exact c.head
  linked := c.linked.take k
  nodup := by
    rw [List.map_take]
    exact c.nodup.sublist (List.take_sublist ..)

/-- `b` is new, and may follow the block just below its position. -/
def Extends (c : Chain R) (b : β) : Prop :=
  R.ident b ∉ c.blocks.map R.ident
    ∧ ∃ p, c.blocks[R.pos b - 1]? = some p ∧ R.follows p b

theorem Extends.pos_pos {c : Chain R} {b : β} (h : c.Extends b) : 0 < R.pos b := by
  obtain ⟨-, p, -, hp⟩ := h
  rw [R.pos_follows hp]; exact Nat.succ_pos _

/-- The chain up to `b`'s predecessor, and `b`. -/
def graft (c : Chain R) (b : β) (h : c.Extends b) : Chain R where
  blocks := c.blocks.take (R.pos b) ++ [b]
  head := by
    rw [List.head?_append, List.head?_take, if_neg (by have := h.pos_pos; omega), c.head]; rfl
  linked := by
    obtain ⟨-, p, hp, hf⟩ := h
    refine (c.linked.take _).append (List.isChain_singleton b) ?_
    intro x hx y hy
    obtain rfl : b = y := by simpa using hy
    have hlast := getLast?_take (by rw [R.pos_follows hf]; omega) hp
    obtain rfl : p = x := Option.some.inj (hlast.symm.trans hx)
    exact hf
  nodup := by
    obtain ⟨hnew, -⟩ := h
    rw [List.map_append, List.map_take, List.nodup_append]
    refine ⟨c.nodup.sublist (List.take_sublist ..), by simp, ?_⟩
    intro x hx y hy hxy
    obtain rfl : y = R.ident b := by simpa using hy
    exact hnew (hxy ▸ List.mem_of_mem_take hx)

@[simp] theorem blocks_cut (c : Chain R) (k : Nat) (hk : 0 < k) :
    (c.cut k hk).blocks = c.blocks.take k := rfl

@[simp] theorem blocks_graft (c : Chain R) (b : β) (h : c.Extends b) :
    (c.graft b h).blocks = c.blocks.take (R.pos b) ++ [b] := rfl

/-! ## Offering a block -/

section Offer

variable [LT κ]

/-- `b` may be grafted, and beats the block at its position if there is
one. -/
def Accepts (c : Chain R) (b : β) : Prop :=
  c.Extends b ∧ ∀ q, c.blocks[R.pos b]? = some q → R.key b < R.key q

open Classical in
noncomputable def offer (c : Chain R) (b : β) : Chain R :=
  if h : c.Accepts b then c.graft b h.1 else c

theorem offer_of_accepts {c : Chain R} {b : β} (h : c.Accepts b) :
    c.offer b = c.graft b h.1 := dif_pos h

theorem offer_of_not_accepts {c : Chain R} {b : β} (h : ¬c.Accepts b) : c.offer b = c :=
  dif_neg h

end Offer

/-! ## Identities determine prefixes -/

/-- If blocks of `c` and `c'` with the same identity have predecessors
with the same identity, then from a shared identity the two chains agree
downwards, position by position. -/
theorem take_eq_of_ident {R R' : Rules β ι κ} {c : Chain R} {c' : Chain R'}
    (hident : R'.ident = R.ident) (hroot : R'.root = R.root)
    (hpred : ∀ p b p' b', R.follows p b → R'.follows p' b' → b ∈ c.blocks → b' ∈ c'.blocks →
      R.ident b = R.ident b' → R.ident p = R.ident p') :
    ∀ {i j : Nat} {a a' : β}, c.blocks[i]? = some a → c'.blocks[j]? = some a' →
      R.ident a = R.ident a' →
      i = j ∧ (c.blocks.take (i + 1)).map R.ident = (c'.blocks.take (j + 1)).map R.ident
  | 0, j, a, a', ha, ha', h => by
      obtain rfl := Option.some.inj (c.getElem?_zero.symm.trans ha)
      have hj : j = 0 :=
        c'.index_unique ha' c'.getElem?_zero (by rw [hident, hroot]; exact h.symm)
      subst hj
      simp only [List.take_add_one, List.take_zero, ha, ha', Option.toList_some, List.nil_append,
        List.map_cons, List.map_nil, h, and_self]
  | i + 1, 0, a, a', ha, ha', h => by
      obtain rfl := Option.some.inj (c'.getElem?_zero.symm.trans ha')
      have := c.index_unique ha c.getElem?_zero (by rw [h, hroot])
      omega
  | i + 1, j + 1, a, a', ha, ha', h => by
      have hi : i < c.blocks.length := by
        have := (List.getElem?_eq_some_iff.mp ha).1; omega
      have hj : j < c'.blocks.length := by
        have := (List.getElem?_eq_some_iff.mp ha').1; omega
      have hp := List.getElem?_eq_getElem hi
      have hp' := List.getElem?_eq_getElem hj
      obtain ⟨hij, htake⟩ := take_eq_of_ident hident hroot hpred hp hp'
        (hpred _ _ _ _ (c.follows_getElem? hp ha) (c'.follows_getElem? hp' ha')
          (List.mem_of_getElem? ha) (List.mem_of_getElem? ha') h)
      refine ⟨by omega, ?_⟩
      rw [List.take_add_one (i := i + 1), List.take_add_one (i := j + 1), List.map_append,
        List.map_append, htake, ha, ha']
      simp only [Option.toList_some, List.map_cons, List.map_nil, h]

end Chain

/-! ## Order independence -/

section Greedy

variable [LinearOrder κ]

/-- `l` starts at the root, each next block is one with the least key
among the blocks of `S` that may follow, and it ends where there is none. -/
structure IsGreedy (R : Rules β ι κ) (S : Set β) (l : List β) : Prop where
  head : l.head? = some R.root
  best : l.IsChain fun p b => b ∈ S ∧ R.follows p b ∧ ∀ x ∈ S, R.follows p x → R.key b ≤ R.key x
  maximal : ∀ p, l.getLast? = some p → ∀ b ∈ S, ¬R.follows p b

theorem isGreedy_empty {c : Chain R} (h : c.blocks = [R.root]) : IsGreedy R ∅ c.blocks := by
  rw [h]
  exact ⟨rfl, List.isChain_singleton _, fun _ _ _ hb => hb.elim⟩

theorem IsGreedy.getElem? {S : Set β} {l : List β} (h : IsGreedy R S l) {i : Nat} {p b : β}
    (hp : l[i]? = some p) (hb : l[i + 1]? = some b) :
    b ∈ S ∧ R.follows p b ∧ ∀ x ∈ S, R.follows p x → R.key b ≤ R.key x := by
  obtain ⟨hi, rfl⟩ := List.getElem?_eq_some_iff.mp hp
  obtain ⟨hi', rfl⟩ := List.getElem?_eq_some_iff.mp hb
  exact List.isChain_iff_getElem.mp h.best i hi'

theorem IsGreedy.mem {S : Set β} {l : List β} (h : IsGreedy R S l) {b : β} (hb : b ∈ l) :
    b = R.root ∨ b ∈ S :=
  mem_of_isChain h.head h.best (fun _ _ hpb => hpb.1) hb

/-- After `p` stands a block as good as any that may follow it. -/
theorem IsGreedy.held {S : Set β} {l : List β} (h : IsGreedy R S l) {i : Nat} {p z : β}
    (hp : l[i]? = some p) (hz : z ∈ S) (hpz : R.follows p z) :
    ∃ q, l[i + 1]? = some q ∧ R.key q ≤ R.key z := by
  cases hq : l[i + 1]? with
  | some q => exact ⟨q, rfl, (h.getElem? hp hq).2.2 z hz hpz⟩
  | none =>
      have hlen := (List.getElem?_eq_some_iff.mp hp).1
      have hge := List.getElem?_eq_none_iff.mp hq
      refine absurd hpz (h.maximal p ?_ z hz)
      rw [List.getLast?_eq_getElem?, show l.length - 1 = i by omega]
      exact hp

/-- A block offered again is not accepted: its position is already held
by one that is at least as good. -/
theorem not_accepts_of_mem {S : Set β} {c : Chain R} (hg : IsGreedy R S c.blocks) {b : β}
    (hb : b ∈ S) : ¬c.Accepts b := by
  rintro ⟨⟨-, p, hp, hf⟩, hbeats⟩
  have hpos := R.pos_follows hf
  obtain ⟨q, hq, hle⟩ := hg.held hp hb hf
  rw [show R.pos b - 1 + 1 = R.pos b by omega] at hq
  exact absurd (hbeats q hq) (not_lt_of_ge hle)

/-- The chain with an accepted block, none of whose children has been
offered. -/
theorem graft_greedy {S : Set β} {c : Chain R} (hg : IsGreedy R S c.blocks) {b : β}
    (hacc : c.Accepts b) (hchild : ∀ x ∈ S, ¬R.follows b x) :
    IsGreedy R (insert b S) (c.graft b hacc.1).blocks := by
  obtain ⟨⟨-, p, hp, hf⟩, hbeats⟩ := id hacc
  have hpos := R.pos_follows hf
  have hlast := getLast?_take (by omega) hp
  -- nothing before `b`'s position competes with `b`
  have hbelow : (c.blocks.take (R.pos b)).IsChain fun x y => y ∈ insert b S ∧ R.follows x y
      ∧ ∀ z ∈ insert b S, R.follows x z → R.key y ≤ R.key z := by
    refine (hg.best.take _).imp_of_mem_tail_imp fun x y _ hy ⟨hyS, hxy, hleast⟩ =>
      ⟨Set.mem_insert_of_mem _ hyS, hxy, ?_⟩
    rintro z (rfl | hz) hxz
    · have hlt := c.pos_lt_of_mem_take (List.mem_of_mem_tail hy)
      rw [R.pos_follows hxz, R.pos_follows hxy] at hlt
      omega
    · exact hleast z hz hxz
  have hbest : ∀ z ∈ insert b S, R.follows p z → R.key b ≤ R.key z := by
    rintro z (rfl | hz) hpz
    · exact le_refl _
    · obtain ⟨q, hq, hle⟩ := hg.held hp hz hpz
      rw [show R.pos b - 1 + 1 = R.pos b by omega] at hq
      exact le_trans (le_of_lt (hbeats q hq)) hle
  refine ⟨(c.graft b hacc.1).head, ?_, ?_⟩
  · refine hbelow.append (List.isChain_singleton b) fun x hx y hy => ?_
    obtain rfl : p = x := Option.some.inj (hlast.symm.trans hx)
    obtain rfl : b = y := by simpa using hy
    exact ⟨Set.mem_insert _ _, hf, hbest⟩
  · intro x hx z hz hxz
    obtain rfl : b = x := by simpa using hx
    rcases hz with rfl | hz
    · have := R.pos_follows hxz; omega
    · exact hchild z hz hxz

/-- The chain is greedy for a new block too if the blocks that `b` may
stand after are followed by one as good. -/
theorem IsGreedy.insert {S : Set β} {c : Chain R} (hg : IsGreedy R S c.blocks) {b : β}
    (hheld : ∀ {i : Nat} {p : β}, c.blocks[i]? = some p → R.follows p b →
      ∃ q, c.blocks[i + 1]? = some q ∧ R.key q ≤ R.key b) :
    IsGreedy R (insert b S) c.blocks := by
  refine ⟨hg.head, ?_, ?_⟩
  · rw [List.isChain_iff_getElem]
    intro i hi
    have hx := List.getElem?_eq_getElem (l := c.blocks) (i := i) (by omega)
    have hy := List.getElem?_eq_getElem hi
    obtain ⟨hyS, hxy, hleast⟩ := hg.getElem? hx hy
    refine ⟨Set.mem_insert_of_mem _ hyS, hxy, ?_⟩
    rintro z (rfl | hz) hxz
    · obtain ⟨q, hq, hle⟩ := hheld hx hxz
      rw [hy] at hq
      rwa [Option.some.inj hq]
    · exact hleast z hz hxz
  · intro p hp z hz hpz
    rcases hz with rfl | hz
    · rw [List.getLast?_eq_getElem?] at hp
      have hpos := c.length_pos
      obtain ⟨q, hq, -⟩ := hheld hp hpz
      rw [show c.blocks.length - 1 + 1 = c.blocks.length by omega,
        List.getElem?_eq_none (le_refl _)] at hq
      cases hq
    · exact hg.maximal p hp z hz hpz

/-- The step of order independence. The chain is greedy for the blocks
`S` offered so far; a new block none of whose children has been offered
leaves it greedy for `S` and the new block. -/
theorem offer_greedy {S : Set β} {c : Chain R} (hg : IsGreedy R S c.blocks) {b : β}
    (hnew : b ∉ S) (hfresh : ∀ x ∈ c.blocks, R.ident x = R.ident b → x = b)
    (hchild : ∀ x ∈ S, ¬R.follows b x) : IsGreedy R (insert b S) (c.offer b).blocks := by
  by_cases hacc : c.Accepts b
  · rw [Chain.offer_of_accepts hacc]
    exact graft_greedy hg hacc hchild
  rw [Chain.offer_of_not_accepts hacc]
  refine hg.insert fun {i p} hp hf => ?_
  have hpos : R.pos b = i + 1 := by rw [R.pos_follows hf, c.pos_getElem? hp]
  have hextends : c.Extends b := by
    refine ⟨fun hmem => ?_, p, by rw [hpos]; exact hp, hf⟩
    obtain ⟨x, hx, hxb⟩ := List.mem_map.mp hmem
    rcases hg.mem (hfresh x hx hxb ▸ hx) with rfl | h
    · rw [R.pos_root] at hpos
      omega
    · exact hnew h
  by_contra hno
  push Not at hno
  exact hacc ⟨hextends, by rw [hpos]; exact hno⟩

/-- Offers a sequence of blocks, one after another. -/
noncomputable def offers (c : Chain R) (bs : List β) : Chain R := bs.foldl Chain.offer c

/-- **Order independence.** From the root alone, a sequence in which no
block comes before its own parent has first come leaves the greedy path
of its blocks. Induction on the sequence from the right: `bs` has been
offered, `b` is offered now. -/
theorem offers_greedy {c : Chain R} (hc : c.blocks = [R.root]) (bs : List β)
    (hident : ∀ x ∈ R.root :: bs, ∀ y ∈ R.root :: bs, R.ident x = R.ident y → x = y)
    (horder : ∀ pre b post, bs = pre ++ b :: post → b ∉ pre → ∀ x ∈ pre, ¬R.follows b x) :
    IsGreedy R {x | x ∈ bs} (offers c bs).blocks := by
  induction bs using List.reverseRecOn with
  | nil => simpa [offers] using isGreedy_empty hc
  | append_singleton bs b ih =>
      have hg := ih (fun x hx y hy => hident x (by simp at hx ⊢; tauto) y (by simp at hy ⊢; tauto))
        (fun pre a post h => horder pre a (post ++ [b]) (by rw [h]; simp))
      rw [show offers c (bs ++ [b]) = (offers c bs).offer b by simp [offers]]
      by_cases hb : b ∈ bs
      · rw [Chain.offer_of_not_accepts (not_accepts_of_mem hg hb),
          show {x | x ∈ bs ++ [b]} = {x | x ∈ bs} by ext x; simp; rintro rfl; exact hb]
        exact hg
      · rw [show {x | x ∈ bs ++ [b]} = insert b {x | x ∈ bs} by ext x; simp [or_comm]]
        refine offer_greedy hg hb (fun x hx hxb => hident x ?_ b (by simp) hxb)
          (horder bs b [] rfl hb)
        rcases hg.mem hx with rfl | hx
        · exact List.mem_cons_self ..
        · exact List.mem_cons_of_mem _ (List.mem_append.mpr (Or.inl hx))

/-- Two greedy paths through blocks of which no two siblings have the
same key are equal. -/
theorem IsGreedy.unique {S : Set β}
    (hkeys : ∀ p, ∀ a ∈ S, ∀ b ∈ S, R.follows p a → R.follows p b → R.key a = R.key b → a = b)
    {l l' : List β} (h : IsGreedy R S l) (h' : IsGreedy R S l') : l = l' := by
  have key : ∀ (t t' : List β) (p : β),
      (p :: t).IsChain (fun p b => b ∈ S ∧ R.follows p b
        ∧ ∀ x ∈ S, R.follows p x → R.key b ≤ R.key x) →
      (p :: t').IsChain (fun p b => b ∈ S ∧ R.follows p b
        ∧ ∀ x ∈ S, R.follows p x → R.key b ≤ R.key x) →
      (∀ q, (p :: t).getLast? = some q → ∀ b ∈ S, ¬R.follows q b) →
      (∀ q, (p :: t').getLast? = some q → ∀ b ∈ S, ¬R.follows q b) → t = t' := by
    intro t
    induction t with
    | nil =>
        intro t' p _ hc' hm _
        cases t' with
        | nil => rfl
        | cons b t' =>
            obtain ⟨⟨hb, hpb, -⟩, -⟩ := List.isChain_cons_cons.mp hc'
            exact absurd hpb (hm p rfl b hb)
    | cons a t ih =>
        intro t' p hc hc' hm hm'
        obtain ⟨⟨ha, hpa, hla⟩, hct⟩ := List.isChain_cons_cons.mp hc
        cases t' with
        | nil => exact absurd hpa (hm' p rfl a ha)
        | cons b t' =>
            obtain ⟨⟨hb, hpb, hlb⟩, hct'⟩ := List.isChain_cons_cons.mp hc'
            obtain rfl := hkeys p a ha b hb hpa hpb (le_antisymm (hla b hb hpb) (hlb a ha hpa))
            rw [List.getLast?_cons_cons] at hm hm'
            rw [ih t' a hct hct' hm hm']
  cases l with
  | nil => cases h.head
  | cons p t =>
      cases l' with
      | nil => cases h'.head
      | cons p' t' =>
          obtain rfl : p = p' := Option.some.inj (h.head.trans h'.head.symm)
          rw [key t t' p h.best h'.best h.maximal h'.maximal]

end Greedy

end LinkedChain
