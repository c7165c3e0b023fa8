import Cpos.Actors
import Cpos.Bearing
import Cpos.Peers

/-!
# Nodes that run together

A deployment is a family of nodes with one set of parameters, one genesis
block and one signature scheme. Each is a `Process`: its loop, in one of
the two halves of a turn, with the blocks it has made so far. The nodes
post messages to each other's identities; the network may deliver them in
any order and may lose them, though the sockets promise more.

A node whose turn raises stops: it makes no further move, and what it has
sent in that turn before it raised is left out. Notifying the beacon and
asking it for peers are moves on the outside, so the peers that it names
are arbitrary.
-/

namespace Cpos

open Python ByteString LinkedChain BlockChain Actors

variable {ι K : Type} [PyNum K]

/-! ## Processes -/

/-- A node in its loop. `reading` says that the turn has come to the read;
`made` are the blocks that the node has handed on so far. -/
structure Process where
  loop : Loop
  reading : Bool
  made : List Block
  messageCount : Nat
  receivedBlocks : Nat

abbrev Process.node (p : Process) : Node := p.loop.node

/-- `MockTransactionList()` where it comes to an end: rows whose text fits
its column. The code stops at `BLOCK_SIZE` bytes of values. Where it does
not, `generate_block` raises, and the turn is no move. -/
def Draws (mock : Int → TransactionList) : Prop :=
  ∀ i, ∃ rows, mock i = mockTransactionList rows ∧ fitsLongtext (strList rows) = true

/-- The counters of the loop when it has handled what it read. -/
def Process.count (received : Option (Bytes × Message)) (p : Process) : Process :=
  match p.node.state, received with
  | _, none => p
  | .listening, some (_, .blockBroadcast _ _) =>
      { p with messageCount := p.messageCount + 1, receivedBlocks := p.receivedBlocks + 1 }
  | _, some _ => { p with messageCount := p.messageCount + 1 }

/-- A turn comes to its read, or ends before it; or it reads a message, or
finds none, and ends. -/
inductive Process.Move (env : LoopEnv K) (p : Process) :
    Option (Bytes × Message) → Process → List Post → Prop
  | advances {fuel : Nat} {mock : Int → TransactionList} {reading : Bool} {loop : Loop}
      (hreading : p.reading = false) (hdraws : Draws mock)
      (h : advance env fuel mock p.loop = .ok reading loop) :
      Move env p none
        { p with
          loop, reading, made := p.made ++ madeOf env p.node (advanceActs env fuel mock p.loop) }
        (postsOf env p.node (advanceActs env fuel mock p.loop))
  | reads {t : Turn} {loop : Loop} (hreading : p.reading = true)
      (h : onNode (receiveMessage env t) p.loop = .ok () loop) :
      Move env p t.received { p.count t.received with loop, reading := false }
        (postsOf env p.node (receiveActs t))

/-- A node at the start of its loop. -/
structure Process.Started (env : LoopEnv K) (p : Process) : Prop where
  node : p.node.Started env.toNodeEnv
  connected : p.node.Connected env.id
  discardedBlocks : p.node.discardedBlocks = 0
  insertedBlocks : p.node.insertedBlocks = 0
  producedBlocks : p.node.producedBlocks = 0
  resyncs : p.node.resyncs = 0
  successfullResyncs : p.node.successfullResyncs = 0
  round : p.loop.round = none
  reading : p.reading = false
  made : p.made = []
  messageCount : p.messageCount = 0
  receivedBlocks : p.receivedBlocks = 0

/-! ## The system -/

structure Deployment (ι K : Type) [PyNum K] where
  base : Env K
  member : ι → LoopEnv K
  shares : ∀ i, ∃ time, (member i).toEnv = base.withTime time
  id_injective : Function.Injective fun i => (member i).id
  publicKey_injective : Function.Injective fun i => (member i).publicKey
  signature_length : ∀ i msg, ((member i).sign msg).length = 64

/-- What the nodes are, and the messages under way between them. -/
abbrev System (ι : Type) := Config ι Bytes Process Message

namespace Deployment

variable (D : Deployment ι K)

def parties : Parties ι Bytes Process Message where
  address i := (D.member i).id
  Move i := Process.Move (D.member i)

/-- All nodes at the start of their loops. `greet_peers` has sent a
`Hello` to the peers that the beacon named. -/
structure Started (S : System ι) : Prop where
  nodes : ∀ i, (S.party i).Started (D.member i)
  hellos : ∀ e ∈ S.underWay, e.msg = .hello e.sender ∧ e.dest ≠ e.sender

/-- A system that the nodes come to, from their start. -/
def Reachable (S : System ι) : Prop := ∃ S₀, D.Started S₀ ∧ LeadsTo D.parties S₀ S

variable {D}

/-- Greetings are free. -/
theorem Started.charge {S : System ι} (h : D.Started S) {cost : Envelope Bytes Message → Nat}
    (hfree : ∀ sender dest, cost ⟨sender, dest, .hello sender⟩ = 0) :
    Actors.charge cost S.underWay = 0 := by
  refine charge_of_free fun e he => ?_
  obtain ⟨sender, dest, msg⟩ := e
  obtain rfl : msg = .hello sender := (h.hellos _ he).1
  exact hfree sender dest

end Deployment

/-! ## Moves are runs of acts -/

section Moves

variable {env : LoopEnv K} {p p' : Process} {input : Option (Bytes × Message)} {posts : List Post}

/-- What a node may do in a move that reads `input`. -/
inductive Allowed (input : Option (Bytes × Message)) : Act → Prop
  | startResync : Allowed input .startResync
  | updateRound (fuel : Nat) : Allowed input (.updateRound fuel)
  | produce {mock : Int → TransactionList} (h : Draws mock) : Allowed input (.produce mock)
  | read {sender : Bytes} {msg : Message} (h : input = some (sender, msg)) :
      Allowed input (.read sender)
  | handle {sender : Bytes} {msg : Message} (h : input = some (sender, msg)) :
      Allowed input (.handle msg)
  | controlPeers (additionalPeers : Option (List Bytes)) (pick : Nat → Nat) :
      Allowed input (.controlPeers additionalPeers pick)

theorem mem_receiveActs {t : Turn} {a : Act} (h : a ∈ receiveActs t) : Allowed t.received a := by
  unfold receiveActs at h
  split at h
  · cases h
  · next sender msg hreceived =>
    rw [List.mem_cons, List.mem_pair] at h
    rcases h with rfl | rfl | rfl
    · exact .read hreceived
    · exact .handle hreceived
    · exact .controlPeers _ _

theorem madeOf_receiveActs (t : Turn) (n : Node) : madeOf env n (receiveActs t) = [] := by
  unfold receiveActs
  split
  · rfl
  · rfl

/-- **A move is a run of acts**: what the node becomes, what it makes and
what it posts are those of its acts. -/
theorem Process.Move.acts (h : Process.Move env p input p' posts) :
    ∃ acts, runActs env p.node acts = some p'.node ∧ (∀ a ∈ acts, Allowed input a) ∧
      posts = postsOf env p.node acts ∧ p'.made = p.made ++ madeOf env p.node acts := by
  cases h with
  | @advances fuel mock reading loop hreading hdraws h =>
      refine ⟨_, (advance_ok h).runActs, fun a ha => ?_, rfl, rfl⟩
      rcases mem_advanceActs ha with rfl | rfl | rfl
      · exact .startResync
      · exact .updateRound fuel
      · exact .produce hdraws
  | @reads t loop hreading h =>
      obtain ⟨n', hn', rfl⟩ := onNode_eq_ok h
      refine ⟨_, receiveMessage_runActs hn', fun a => mem_receiveActs, rfl, ?_⟩
      rw [madeOf_receiveActs, List.append_nil]
      unfold Process.count
      split
      · rfl
      · rfl
      · rfl

/-- What every allowed act keeps, gets through and makes, a move does. -/
theorem Process.Move.keeps {I : Node → Prop} {J : Post → Prop} {M : Block → Prop}
    (hact : ∀ {a n n'}, Allowed input a → a.Leads env n n' → a.made env n ⊆ p'.made → I n →
      I n' ∧ (∀ p ∈ a.posts env n, J p) ∧ ∀ b ∈ a.made env n, M b)
    (h : Process.Move env p input p' posts) (hp : I p.node) :
    I p'.node ∧ (∀ post ∈ posts, J post) ∧ ∀ b ∈ p'.made, b ∈ p.made ∨ M b := by
  obtain ⟨acts, hrun, hacts, rfl, hmade⟩ := h.acts
  have hsub : ∀ b ∈ madeOf env p.node acts, b ∈ p'.made := fun b hb =>
    hmade ▸ List.mem_append_right _ hb
  obtain ⟨hp', hposts, hmade'⟩ := runActs_keeps hact hacts hrun hsub hp
  refine ⟨hp', hposts, fun b hb => ?_⟩
  rw [hmade] at hb
  exact (List.mem_append.mp hb).imp_right (hmade' b)

theorem Process.Move.made_subset (h : Process.Move env p input p' posts) : p.made ⊆ p'.made := by
  obtain ⟨acts, -, -, -, hmade⟩ := h.acts
  rw [hmade]
  exact List.subset_append_left ..

end Moves

/-! ## Computing runs -/

/-- What happens next: a half of a node's turn, or the loss of a message.
Messages are named by their position under way. -/
inductive Happening (ι : Type) where
  | advances (i : ι) (fuel : Nat) (mock : {mock // Draws mock})
  | idles (i : ι)
  | reads (i : ι) (position : Nat) (additionalPeers : Option (List Bytes)) (pick : Nat → Nat)
  | loses (position : Nat)

def Happening.isLoss : Happening ι → Bool
  | .loses _ => true
  | _ => false

namespace Deployment

variable [DecidableEq ι] (D : Deployment ι K)

/-- The node is this one, and what it has posted is under way. -/
def moved (S : System ι) (i : ι) (p : Process) (rest : List (Envelope Bytes Message))
    (posts : List Post) : System ι :=
  ⟨Function.update S.party i p, rest ++ posted (D.member i).id posts⟩

/-- The second half of a turn. -/
def second (S : System ι) (i : ι) (t : Turn) (rest : List (Envelope Bytes Message)) :
    Option (System ι) :=
  let p := S.party i
  match onNode (receiveMessage (D.member i) t) p.loop with
  | .ok _ loop =>
      if p.reading then
        some (D.moved S i { p.count t.received with loop, reading := false } rest
          (postsOf (D.member i) p.node (receiveActs t)))
      else none
  | .error _ _ => none

def next (S : System ι) : Happening ι → Option (System ι)
  | .advances i fuel mock =>
      let p := S.party i
      let acts := advanceActs (D.member i) fuel mock p.loop
      match advance (D.member i) fuel mock p.loop with
      | .ok reading loop =>
          if p.reading then none
          else some (D.moved S i
            { p with loop, reading, made := p.made ++ madeOf (D.member i) p.node acts }
            S.underWay (postsOf (D.member i) p.node acts))
      | .error _ _ => none
  | .idles i => D.second S i ⟨0, fun _ => .new, none, none, id⟩ S.underWay
  | .reads i position additionalPeers pick =>
      match S.underWay[position]? with
      | none => none
      | some e =>
          if e.dest = (D.member i).id then
            D.second S i ⟨0, fun _ => .new, some (e.sender, e.msg), additionalPeers, pick⟩
              (S.underWay.eraseIdx position)
          else none
  | .loses position =>
      if position < S.underWay.length then some ⟨S.party, S.underWay.eraseIdx position⟩ else none

def happen (S : System ι) : List (Happening ι) → Option (System ι)
  | [] => some S
  | h :: happenings => (D.next S h).bind fun S' => happen S' happenings

variable {D} {S S' : System ι}

theorem moves_moved {i : ι} {p : Process} {input : Option (Bytes × Message)}
    {rest : List (Envelope Bytes Message)} {posts : List Post}
    (htakes : Takes (D.member i).id S.underWay input rest)
    (h : Process.Move (D.member i) (S.party i) input p posts) :
    Moves D.parties S i input rest posts (D.moved S i p rest posts) where
  takes := htakes
  move := by
    show Process.Move (D.member i) (S.party i) input (Function.update S.party i p i) posts
    rw [Function.update_self]
    exact h
  others j hj := Function.update_of_ne hj ..
  underWay := rfl

theorem second_moves {i : ι} {t : Turn} {rest : List (Envelope Bytes Message)}
    (htakes : Takes (D.member i).id S.underWay t.received rest)
    (h : D.second S i t rest = some S') :
    ∃ posts, Moves D.parties S i t.received rest posts S' := by
  rw [second] at h
  simp only at h
  split at h
  · next loop hrun =>
    split at h
    · next hreading =>
      obtain rfl := Option.some.inj h
      exact ⟨_, moves_moved htakes (.reads hreading hrun)⟩
    · cases h
  · cases h

theorem perm_eraseIdx {α : Type} {l : List α} {k : Nat} {a : α} (h : l[k]? = some a) :
    l.Perm (a :: l.eraseIdx k) := by
  obtain ⟨hlt, rfl⟩ := List.getElem?_eq_some_iff.mp h
  exact (List.getElem_cons_eraseIdx_perm hlt).symm

/-- Everything that happens but a loss is a move. -/
theorem next_moves {h : Happening ι} (hlost : h.isLoss = false)
    (hnext : D.next S h = some S') :
    ∃ i input rest posts, Moves D.parties S i input rest posts S' := by
  cases h with
  | advances i fuel mock =>
      rw [next] at hnext
      split at hnext
      · next reading loop hrun =>
        split at hnext
        · cases hnext
        · next hreading =>
          obtain rfl := Option.some.inj hnext
          have htakes : Takes (D.member i).id S.underWay none S.underWay := rfl
          exact ⟨i, _, _, _, moves_moved htakes
            (.advances (Bool.not_eq_true _ ▸ hreading) mock.property hrun)⟩
      · cases hnext
  | idles i =>
      rw [next] at hnext
      exact ⟨i, _, _, second_moves (by rfl) hnext⟩
  | reads i position additionalPeers pick =>
      rw [next] at hnext
      split at hnext
      · cases hnext
      · next e he =>
        split at hnext
        · next hdest =>
          refine ⟨i, _, _, second_moves ?_ hnext⟩
          show S.underWay.Perm (⟨e.sender, (D.member i).id, e.msg⟩ :: _)
          rw [← hdest]
          exact perm_eraseIdx he
        · cases hnext
  | loses position => cases hlost

theorem next_step {h : Happening ι} (hnext : D.next S h = some S') : Step D.parties S S' := by
  cases hlost : h.isLoss with
  | false =>
      obtain ⟨i, input, rest, posts, hmoves⟩ := next_moves hlost hnext
      exact hmoves.step
  | true =>
      cases h with
      | loses position =>
          rw [next] at hnext
          split at hnext
          · next hlt =>
            obtain rfl := Option.some.inj hnext
            exact .loses (perm_eraseIdx (List.getElem?_eq_getElem hlt)) rfl
          · cases hnext
      | advances _ _ _ => cases hlost
      | idles _ => cases hlost
      | reads _ _ _ _ => cases hlost

theorem happen_delivers {happenings : List (Happening ι)} : ∀ {S S' : System ι},
    (∀ h ∈ happenings, h.isLoss = false) →
      D.happen S happenings = some S' → Delivers D.parties S S' := by
  induction happenings with
  | nil =>
      intro S S' _ h
      obtain rfl := Option.some.inj h
      exact .refl
  | cons happening happenings ih =>
      intro S S' hlost h
      obtain ⟨hfirst, hrest⟩ := List.forall_mem_cons.mp hlost
      obtain ⟨S₁, hnext, h₁⟩ := Option.bind_eq_some_iff.mp h
      exact .head (next_moves hfirst hnext) (ih hrest h₁)

theorem happen_leadsTo {happenings : List (Happening ι)} : ∀ {S S' : System ι},
    D.happen S happenings = some S' → LeadsTo D.parties S S' := by
  induction happenings with
  | nil =>
      intro S S' h
      obtain rfl := Option.some.inj h
      exact .refl
  | cons happening happenings ih =>
      intro S S' h
      obtain ⟨S₁, hnext, hrest⟩ := Option.bind_eq_some_iff.mp h
      exact .head (next_step hnext) (ih hrest)

end Deployment

/-! ## A pair of nodes -/

/-- A signature scheme in which a signature tells what it signs. -/
def signature (key message : Bytes) : Bytes := (key ++ message ++ List.replicate 64 0).take 64

inductive Pair where
  | first
  | second
deriving DecidableEq

def pairEnv : Env ℚ := { sampleEnv with
  verify := fun key signed message => signed = signature key message }

/-- A node with this key, clock and mining period. -/
def pairMember (key : Bytes) (time : Clock ℚ) (period : Option Int) : LoopEnv ℚ where
  toEnv := pairEnv.withTime time
  id := key
  publicKey := key
  sign := signature key
  useMockTransactions := false
  broadcastCreatedBlock := true
  broadcastReceivedBlock := true
  delivers _ := true
  choose _ _ := 0
  period
  totalRounds := none
  minimumNumPeers := 1
  maximumNumPeers := 8

/-- A new round at every other reading of the clock, for a while. -/
def tickingTime : Clock ℚ := .ofNat fun k => 5 * min ((k + 1) / 2) 1000

theorem tickingTime_monotone : Monotone tickingTime.reading := by
  refine Clock.ofNat_monotone fun j k hjk => ?_
  omega

/-- The first node mines in every round; the second, with this clock,
never. -/
def pairWith (time : Clock ℚ) : Deployment Pair ℚ where
  base := pairEnv
  member
    | .first => pairMember alice tickingTime (some 1)
    | .second => pairMember bob time none
  shares
    | .first => ⟨_, rfl⟩
    | .second => ⟨_, rfl⟩
  id_injective i j h := by
    have hne : alice ≠ bob := by decide
    cases i with
    | first => cases j with | first => rfl | second => exact absurd h hne
    | second => cases j with | first => exact absurd h hne.symm | second => rfl
  publicKey_injective i j h := by
    have hne : alice ≠ bob := by decide
    cases i with
    | first => cases j with | first => rfl | second => exact absurd h hne
    | second => cases j with | first => exact absurd h hne.symm | second => rfl
  signature_length i msg := by
    cases i with
    | first => simp [pairMember, signature]; omega
    | second => simp [pairMember, signature]; omega

def pair : Deployment Pair ℚ := pairWith stepTime

def pairProcess (env : LoopEnv ℚ) (peer : Bytes) : Process where
  loop := { startLoop env with
    node := { (startLoop env).node with network := Network.init.connect peer } }
  reading := false
  made := []
  messageCount := 0
  receivedBlocks := 0

def startOf (D : Deployment Pair ℚ) : System Pair where
  party
    | .first => pairProcess (D.member .first) bob
    | .second => pairProcess (D.member .second) alice
  underWay := []

def pairStart : System Pair := startOf pair

def noRows : {mock // Draws mock} := ⟨fun _ => mockTransactionList [], fun _ => ⟨[], rfl, rfl⟩⟩

/-- The first node makes three blocks, the second of which is lost. The
second node stores one, misses the other and asks for the next block. -/
def pairHappenings : List (Happening Pair) :=
  [.advances .first 10 noRows, .idles .first, .advances .first 10 noRows, .loses 1, .idles .first,
    .advances .first 10 noRows, .advances .second 10 noRows, .advances .second 10 noRows,
    .reads .second 0 none id, .advances .second 10 noRows, .reads .second 0 none id,
    .advances .second 10 noRows, .advances .second 10 noRows]

def pairSystem : System Pair := (pair.happen pairStart pairHappenings).getD pairStart

/-- What the samples below read off this run. -/
structure PairFacts (S : System Pair) : Prop where
  made : (S.party .first).made.length = 3
  plain : ∀ m ∈ (S.party .first).made, m.transactionHash = []
  hashes : ((S.party .first).made.flatMap fun b => [b.nodeHash, b.proofHash, b.hash]).Nodup
  made_second : (S.party .second).made = []
  stored : (S.party .second).node.bc.localChains.length = 2
  shared : (S.party .first).node.bc.localChains[1]?.map Row.hash
    = (S.party .second).node.bc.localChains[1]?.map Row.hash
  resyncing : (S.party .second).node.state = .resyncing
  underWay : S.underWay.length = 1
  sent : (S.party .first).node.sentBlocks = 3
  received : (S.party .second).receivedBlocks = 2

instance (S : System Pair) : Decidable (PairFacts S) :=
  decidable_of_iff (_ ∧ _ ∧ _ ∧ _ ∧ _ ∧ _ ∧ _ ∧ _ ∧ _ ∧ _)
    ⟨fun ⟨h₁, h₂, h₃, h₄, h₅, h₆, h₇, h₈, h₉, h₁₀⟩ => ⟨h₁, h₂, h₃, h₄, h₅, h₆, h₇, h₈, h₉, h₁₀⟩,
      fun ⟨h₁, h₂, h₃, h₄, h₅, h₆, h₇, h₈, h₉, h₁₀⟩ => ⟨h₁, h₂, h₃, h₄, h₅, h₆, h₇, h₈, h₉, h₁₀⟩⟩

theorem pairSystem_run :
    pair.happen pairStart pairHappenings = some pairSystem ∧ PairFacts pairSystem := by
  have hrun : ((pair.happen pairStart pairHappenings).any fun S => PairFacts S) = true := by
    decide +kernel
  obtain ⟨S, hS, hfacts⟩ := (Option.any_eq_true _ _).mp hrun
  have hS' : pairSystem = S := by rw [pairSystem, hS, Option.getD_some]
  rw [hS']
  exact ⟨hS, of_decide_eq_true hfacts⟩

theorem pairProcess_started (env : LoopEnv ℚ) {peer : Bytes} (hpeer : peer ≠ env.id)
    (h : returned (updateRound env.toEnv 10) .init = some ()) :
    (pairProcess env peer).Started env where
  node := ⟨⟨10, ok_of_returned h⟩, rfl, rfl, rfl⟩
  connected := by
    refine ⟨some [peer], List.nodup_singleton peer, ?_⟩
    show Network.init.connect peer = if peer = env.id then _ else _
    rw [if_neg hpeer]
  discardedBlocks := rfl
  insertedBlocks := rfl
  producedBlocks := rfl
  resyncs := rfl
  successfullResyncs := rfl
  round := rfl
  reading := rfl
  made := rfl
  messageCount := rfl
  receivedBlocks := rfl

theorem startOf_started {time : Clock ℚ}
    (h : returned (updateRound ((pairWith time).member .second).toEnv 10) .init = some ()) :
    (pairWith time).Started (startOf (pairWith time)) where
  nodes i := by
    have hne : alice ≠ bob := by decide
    have hfirst : returned (updateRound (pairMember alice tickingTime (some 1)).toEnv 10) .init
        = some () := by decide +kernel
    cases i with
    | first => exact pairProcess_started _ hne.symm hfirst
    | second => exact pairProcess_started _ hne h
  hellos _ he := nomatch he

theorem pairStart_started : pair.Started pairStart := startOf_started (by decide +kernel)

theorem pair_leadsTo : LeadsTo pair.parties pairStart pairSystem :=
  Deployment.happen_leadsTo pairSystem_run.1

theorem pairSystem_reachable : pair.Reachable pairSystem :=
  ⟨pairStart, pairStart_started, pair_leadsTo⟩

end Cpos
