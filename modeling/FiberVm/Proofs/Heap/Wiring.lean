import FiberVm.Proofs.Heap.Drift
import FiberVm.Proofs.Heap.Queue

/-!
# Channels with their queues

A channel is three nodes. Taken together they are a list of items, a list of parked senders and a list of
parked receivers, and every operation is one of eight acts on these lists. No act leaves a fiber parked that
could go on: receivers wait only while there is nothing to receive, and senders only while the ring is full.

No two channels share a queue, so an act on one leaves the others alone. This holds of all nodes in use,
whether anything leads to them or not.
-/

set_option autoImplicit false

namespace FiberVm

/-- A channel with its two queues. -/
structure Chan where
  capacity : Nat
  closed : Bool
  senders : Addr
  receivers : Addr
  items : List Addr
  sending : List Waiter
  receiving : List Waiter

/-- What is done to a channel. -/
inductive Act
  /-- A value goes to a parked receiver. -/
  | hand (v : Addr) (w : Waiter)
  /-- A value goes into the ring. -/
  | store (v : Addr)
  | parkSender (id : Nat) (v : Addr)
  /-- A value comes out of the ring. -/
  | take (v : Addr)
  /-- A value comes out of the ring, and that of a parked sender goes in. -/
  | refill (v : Addr) (w : Waiter)
  /-- A value comes from a parked sender. -/
  | pass (w : Waiter)
  | parkReceiver (id : Nat)
  | close

namespace Chan

def queues (c : Chan) : List Addr := [c.senders, c.receivers]

/-- The values that have been sent and not received, oldest first. -/
def values (c : Chan) : List Addr := c.items ++ c.sending.map Waiter.value

/-- The effect of each act, and when it is taken. -/
inductive Step (c : Chan) : Act → Chan → Prop
  | hand {w : Waiter} {rest : List Waiter} (v : Addr) : c.receiving = w :: rest →
    Step c (.hand v w) { c with receiving := rest }
  | store (v : Addr) : c.receiving = [] → c.items.length < c.capacity →
    Step c (.store v) { c with items := c.items ++ [v] }
  | parkSender (id : Nat) (v : Addr) : c.receiving = [] → ¬ c.items.length < c.capacity →
    Step c (.parkSender id v) { c with sending := c.sending ++ [⟨id.toUInt32.toNat, v⟩] }
  | take {v : Addr} {rest : List Addr} : c.items = v :: rest → c.sending = [] →
    Step c (.take v) { c with items := rest }
  | refill {v : Addr} {rest : List Addr} {w : Waiter} {ws : List Waiter} : c.items = v :: rest →
    c.sending = w :: ws → Step c (.refill v w) { c with items := rest ++ [w.value], sending := ws }
  | pass {w : Waiter} {ws : List Waiter} : c.items = [] → c.sending = w :: ws →
    Step c (.pass w) { c with sending := ws }
  | parkReceiver (id : Nat) : c.items = [] → c.sending = [] →
    Step c (.parkReceiver id) { c with receiving := c.receiving ++ [⟨id.toUInt32.toNat, noAddr⟩] }
  | close : Step c .close { c with closed := Bool.true }

/-- Nobody is parked who could go on. -/
structure Settled (c : Chan) : Prop where
  room : c.items.length ≤ c.capacity
  empty : c.receiving ≠ [] → c.items = [] ∧ c.sending = []
  full : c.sending ≠ [] → c.items.length = c.capacity
  idle : ∀ w ∈ c.receiving, w.value = noAddr

variable {c c' : Chan} {act : Act}

/-- While there is something to receive no receiver is parked. -/
theorem Settled.receiving_eq_nil (settled : c.Settled) (some : c.values ≠ []) : c.receiving = [] := by
  cases waiting : c.receiving with
  | nil => rfl
  | cons w ws =>
    obtain ⟨noItems, noSenders⟩ := settled.empty (by simp [waiting])
    simp [values, noItems, noSenders] at some

theorem Settled.sending_eq_nil (settled : c.Settled) (space : c.items.length < c.capacity) : c.sending = [] := by
  cases waiting : c.sending with
  | nil => rfl
  | cons w ws =>
    have whole := settled.full (by simp [waiting])
    omega

theorem Settled.step (settled : c.Settled) (step : c.Step act c') : c'.Settled := by
  have room := settled.room
  have idle := settled.idle
  cases step with
  | hand v waiting =>
    have none := settled.empty (by simp [waiting])
    exact ⟨room, fun _ => none, settled.full, fun w mem => idle w (waiting ▸ List.mem_cons_of_mem _ mem)⟩
  | store v none space =>
    have noSenders := settled.sending_eq_nil space
    exact ⟨by simpa using Nat.succ_le_of_lt space, fun some => absurd none some,
      fun some => absurd noSenders some, idle⟩
  | parkSender id v none space =>
    exact ⟨room, fun some => absurd none some, fun _ => Nat.le_antisymm room (Nat.le_of_not_lt space), idle⟩
  | take items noSenders =>
    have none := settled.receiving_eq_nil (by simp [values, items])
    rw [items, List.length_cons] at room
    exact ⟨Nat.le_of_succ_le room, fun some => absurd none some, fun some => absurd noSenders some, idle⟩
  | refill items senders =>
    have none := settled.receiving_eq_nil (by simp [values, items])
    have whole := settled.full (by simp [senders])
    rw [items, List.length_cons] at room whole
    exact ⟨by simpa using room, fun some => absurd none some, fun _ => by simpa using whole, idle⟩
  | pass noItems senders =>
    have none := settled.receiving_eq_nil (by simp [values, senders])
    exact ⟨room, fun some => absurd none some, fun _ => settled.full (by simp [senders]), idle⟩
  | parkReceiver id noItems noSenders =>
    refine ⟨room, fun _ => ⟨noItems, noSenders⟩, fun some => absurd noSenders some, fun w mem => ?_⟩
    rcases List.mem_append.1 mem with mem | mem
    · exact idle w mem
    · rw [List.mem_singleton.1 mem]
  | close => exact ⟨room, settled.empty, settled.full, idle⟩

end Chan

namespace Act

/-- The value that is sent. -/
def sent : Act → List Addr
  | hand v _ | store v | parkSender _ v => [v]
  | _ => []

/-- The value that is received. -/
def given : Act → List Addr
  | hand v _ | take v | refill v _ => [v]
  | pass w => [w.value]
  | _ => []

/-- The receiver that is parked. -/
def parked : Act → List Nat
  | parkReceiver id => [id]
  | _ => []

/-- The parked receiver that is given a value. -/
def served : Act → List Nat
  | hand _ w => [w.fiber]
  | _ => []

end Act

namespace Chan

variable {c c' : Chan} {act : Act}

/-- Values come out in the order in which they went in, and none is lost. -/
theorem Settled.values_step (settled : c.Settled) (step : c.Step act c') :
    c.values ++ act.sent = act.given ++ c'.values := by
  cases step with
  | hand v waiting =>
    obtain ⟨noItems, noSenders⟩ := settled.empty (by simp [waiting])
    simp [values, Act.sent, Act.given, noItems, noSenders]
  | store v none space =>
    have noSenders := settled.sending_eq_nil space
    simp [values, Act.sent, Act.given, noSenders]
  | parkSender id v none space => simp [values, Act.sent, Act.given]
  | take items noSenders => simp [values, Act.sent, Act.given, items]
  | refill items senders => simp [values, Act.sent, Act.given, items, senders]
  | pass noItems senders => simp [values, Act.sent, Act.given, noItems, senders]
  | parkReceiver id noItems noSenders => simp [values, Act.sent, Act.given]
  | close => simp [values, Act.sent, Act.given]

/-- Receivers are served in the order in which they have been parked. -/
theorem Step.receiving (step : c.Step act c') :
    c.receiving.map Waiter.fiber ++ act.parked.map (fun id => id.toUInt32.toNat) =
      act.served ++ c'.receiving.map Waiter.fiber := by
  cases step with
  | hand v waiting => simp [Act.parked, Act.served, waiting]
  | parkReceiver id noItems noSenders => simp [Act.parked, Act.served]
  | store | parkSender | take | refill | pass | close => simp [Act.parked, Act.served]

end Chan

namespace Heap

/-- The node at `ch` and its two queues are the channel `c`. -/
structure Plays (words : Array Word) (ch : Addr) (c : Chan) : Prop where
  channel : Shows words ch (.channel c.capacity c.closed c.senders c.receivers c.items)
  senders : Shows words c.senders (.queue c.sending)
  receivers : Shows words c.receivers (.queue c.receiving)

section Reading

variable {words words' : Array Word} {a ch : Addr} {c d : Chan}

theorem Ring.unique {α : Type} {f : Word → α} {N : Nat → Word} {start ring first next count : Nat}
    {xs ys : List α} (r : Ring f N start ring first next count xs)
    (r' : Ring f N start ring first next count ys) : xs = ys := by
  rw [← r.map_range, ← r'.map_range, ← r.count, ← r'.count]

theorem Shows.queue_unique {ws ws' : List Waiter} (s : Shows words a (.queue ws))
    (s' : Shows words a (.queue ws')) : ws = ws' := Ring.unique s.body s'.body

theorem Shows.group_unique {h : Heap} {n n' : Int32} {ids ids' : List Word} (s : Shows h.words a (.group n ids))
    (s' : Shows h.words a (.group n' ids')) : n = n' ∧ ids = ids' := by
  have counter := (groupCounter_shows s).symm.trans (groupCounter_shows s')
  have waiters := (groupWaiters_shows s).symm.trans (groupWaiters_shows s')
  exact ⟨(EStateM.Result.ok.inj counter).1, (EStateM.Result.ok.inj waiters).1⟩

theorem Plays.unique (p : Plays words ch c) (p' : Plays words ch d) : c = d := by
  obtain ⟨cap, closed, s, r, items, sending, receiving⟩ := c
  obtain ⟨cap', closed', s', r', items', sending', receiving'⟩ := d
  obtain ⟨-, rfl, rfl, rfl, rfl, ring⟩ := p.channel.body
  obtain ⟨-, rfl, rfl, rfl, rfl, ring'⟩ := p'.channel.body
  obtain rfl := ring.unique ring'
  obtain rfl := p.senders.queue_unique p'.senders
  obtain rfl := p.receivers.queue_unique p'.receivers
  rfl

theorem Plays.of_same (p : Plays words ch c) (size : words'.size = words.size) (same : SameNode words words' ch)
    (queues : ∀ q ∈ c.queues, SameNode words words' q) : Plays words' ch c :=
  ⟨p.channel.of_same same size, p.senders.of_same (queues _ (by simp [Chan.queues])) size,
    p.receivers.of_same (queues _ (by simp [Chan.queues])) size⟩

theorem Plays.tagAt (p : Plays words ch c) : tagAt words ch = .intChannel := p.channel.tagAt

theorem Plays.tagAt_queue (p : Plays words ch c) {q : Addr} (mem : q ∈ c.queues) :
    Heap.tagAt words q = .waitQueue := by
  simp only [Chan.queues, List.mem_cons, List.not_mem_nil, or_false] at mem
  rcases mem with rfl | rfl
  · exact p.senders.tagAt
  · exact p.receivers.tagAt

theorem Plays.nodeIn_queue (p : Plays words ch c) {q : Addr} (mem : q ∈ c.queues) : NodeIn words q := by
  simp only [Chan.queues, List.mem_cons, List.not_mem_nil, or_false] at mem
  rcases mem with rfl | rfl
  · exact p.senders.node
  · exact p.receivers.node

end Reading

/-- The counter of a wait group is not negative, and nobody waits for what has come about. -/
def Tallied (n : Int32) (ids : List Word) : Prop := 0 ≤ n ∧ (ids ≠ [] → n ≠ 0)

/-- What becomes of the counter of a wait group and of its list. -/
inductive Tally (n : Int32) (ids : List Word) : Int32 → List Word → Prop
  | count {n' : Int32} : 0 < n' → Tally n ids n' ids
  | drain : Tally n ids 0 []
  | wait (id : Word) : n ≠ 0 → Tally n ids n (ids ++ [id])

theorem Tallied.step {n n' : Int32} {ids ids' : List Word} (tallied : Tallied n ids) (tally : Tally n ids n' ids') :
    Tallied n' ids' := by
  cases tally with
  | count positive => exact ⟨Int32.le_of_lt positive, fun _ zero => Int32.lt_irrefl (zero ▸ positive)⟩
  | drain => exact ⟨Int32.le_refl 0, fun some => absurd rfl some⟩
  | wait id waits => exact ⟨tallied.1, fun _ => waits⟩

/-- Every channel and every wait group in use is in order. -/
structure Wired (words : Array Word) : Prop where
  small : words.size ≤ maxWords
  high : ∀ a, NodeIn words a → IsSync (tagAt words a) → bottom ≤ a
  queues : ∀ a, NodeIn words a → tagAt words a = .waitQueue → ∃ ws, Shows words a (.queue ws)
  groups : ∀ a, NodeIn words a → tagAt words a = .waitGroup → ∃ n ids, Shows words a (.group n ids)
  channels : ∀ a, NodeIn words a → tagAt words a = .intChannel → ∃ c, Plays words a c
  settled : ∀ a c, Plays words a c → c.Settled
  ints : ∀ a c, Plays words a c → ∀ x ∈ c.values, ∃ k, Shows words x (.int k)
  distinct : ∀ a c, Plays words a c → c.senders ≠ c.receivers
  apart : ∀ a b c d, Plays words a c → Plays words b d → ∀ q ∈ c.queues, q ∈ d.queues → a = b
  tallied : ∀ a n ids, Shows words a (.group n ids) → Tallied n ids

/-- The channel at `ch` has become `c'`, with the same queues, and nothing else has changed. -/
structure Rewires (h h' : Heap) (ch : Addr) (c c' : Chan) : Prop where
  size : h'.words.size = h.words.size
  before : Plays h.words ch c
  after : Plays h'.words ch c'
  queues : c'.queues = c.queues
  others : ∀ b, NodeIn h.words b → b ≠ ch → b ∉ c.queues → SameNode h.words h'.words b

/-- The act has been performed on the channel at `ch`. -/
structure Acts (h h' : Heap) (ch : Addr) (act : Act) (c c' : Chan) : Prop extends Rewires h h' ch c c' where
  step : c.Step act c'
  ints : ∀ x ∈ c'.values, x ∈ c.values ∨ ∃ k, Shows h.words x (.int k)

/-- What an instruction can do to the nodes at which fibers meet. -/
inductive Effect (h h' : Heap) : Prop
  | drift : Drift [] h h' → Effect h h'
  | newQueues : NewQueues h h' → Effect h h'
  | newChannel {capacity : Nat} {ch s r : Addr} : NewChannel capacity ch s r h h' → Effect h h'
  | newGroup {g : Addr} : Drift [g] h h' → Shows h'.words g (.group 0 []) → bottom ≤ g → Effect h h'
  | acts {ch : Addr} {act : Act} {c c' : Chan} : Acts h h' ch act c c' → Effect h h'
  | group {g : Addr} {n n' : Int32} {ids ids' : List Word} : Shows h.words g (.group n ids) →
    Updates h h' g (.group n' ids') → Tally n ids n' ids' → Effect h h'

section Drifting

variable {h h' : Heap} {new : List Addr} {a : Addr} {c : Chan}

theorem Wired.linked (wired : Wired h.words) (d : Drift new h h') (p : Plays h.words a c) (old : a ∉ new)
    (tag : tagAt h'.words a = .intChannel) :
    (∀ q ∈ c.queues, q ∉ new ∧ SameNode h.words h'.words q) ∧
      ∀ x ∈ c.values, SameNode h.words h'.words x := by
  have high := wired.high a p.channel.node (.inl p.tagAt)
  have queues : ∀ q ∈ c.queues, q ∉ new ∧ SameNode h.words h'.words q := by
    intro q mem
    refine d.linked a _ q old high (.inl tag) p.channel ?_ (p.nodeIn_queue mem) (.inr (p.tagAt_queue mem))
    simp only [Chan.queues, List.mem_cons, List.not_mem_nil, or_false] at mem
    simp only [Node.references, List.mem_cons]
    exact mem.elim .inl fun eq => .inr (.inl eq)
  refine ⟨queues, fun x mem => ?_⟩
  obtain ⟨k, s⟩ := wired.ints a c p x mem
  have link : IsLinked (Heap.tagAt h.words x) := .inl s.tagAt
  rcases List.mem_append.1 mem with item | sender
  · refine (d.linked a _ x old high (.inl tag) p.channel ?_ s.node link).2
    simp only [Node.references, List.mem_cons]
    exact .inr (.inr item)
  · obtain ⟨old', same⟩ := queues c.senders (by simp [Chan.queues])
    have sync : IsSync (Heap.tagAt h'.words c.senders) := .inr (.inl (same.tagAt.trans p.senders.tagAt))
    have high' := wired.high c.senders p.senders.node (.inr (.inl p.senders.tagAt))
    refine (d.linked c.senders _ x old' high' sync p.senders ?_ s.node link).2
    simp only [Node.references, List.mem_filter, bne_iff_ne, ne_eq]
    exact ⟨sender, fun none => not_nodeIn_noAddr wired.small (none ▸ s.node)⟩

/-- A channel that was there before is what it was. -/
theorem Wired.plays_before (wired : Wired h.words) (d : Drift new h h') (old : a ∉ new)
    (p : Plays h'.words a c) : Plays h.words a c := by
  have node := d.nodeIn.1 p.channel.node
  have same := d.sync a node old (.inl p.tagAt)
  obtain ⟨c₀, p₀⟩ := wired.channels a node (same.tagAt ▸ p.tagAt)
  have queues := (wired.linked d p₀ old p.tagAt).1
  have p₀' : Plays h'.words a c₀ := p₀.of_same d.size same fun q mem => (queues q mem).2
  exact p.unique p₀' ▸ p₀

theorem Wired.group_before {n : Int32} {ids : List Word} (wired : Wired h.words) (d : Drift new h h') (old : a ∉ new)
    (s : Shows h'.words a (.group n ids)) : Shows h.words a (.group n ids) := by
  have node := d.nodeIn.1 s.node
  have same := d.sync a node old (.inr (.inr s.tagAt))
  obtain ⟨n₀, ids₀, s₀⟩ := wired.groups a node (same.tagAt ▸ s.tagAt)
  obtain ⟨rfl, rfl⟩ := s.group_unique (s₀.of_same same d.size)
  exact s₀

/-- What has been taken into use: queues, groups and at most one channel, all of them empty. -/
structure Empty (words : Array Word) (new : List Addr) : Prop where
  high : ∀ a ∈ new, bottom ≤ a
  shows : ∀ a ∈ new, Shows words a (.queue []) ∨ Shows words a (.group 0 []) ∨
    ∃ capacity s r, Plays words a ⟨capacity, Bool.false, s, r, [], [], []⟩ ∧ s ≠ r ∧ s ∈ new ∧ r ∈ new
  one : ∀ a ∈ new, ∀ b ∈ new, tagAt words a = .intChannel → tagAt words b = .intChannel → a = b

theorem Empty.queue {words : Array Word} (empty : Empty words new) (mem : a ∈ new) (tag : tagAt words a = .waitQueue) :
    Shows words a (.queue []) := by
  rcases empty.shows a mem with queue | group | ⟨capacity, s, r, p, -⟩
  · exact queue
  · cases group.tagAt.symm.trans tag
  · cases p.tagAt.symm.trans tag

theorem Empty.group {words : Array Word} (empty : Empty words new) (mem : a ∈ new) (tag : tagAt words a = .waitGroup) :
    Shows words a (.group 0 []) := by
  rcases empty.shows a mem with queue | group | ⟨capacity, s, r, p, -⟩
  · cases queue.tagAt.symm.trans tag
  · exact group
  · cases p.tagAt.symm.trans tag

theorem Empty.channel {words : Array Word} (empty : Empty words new) (mem : a ∈ new)
    (tag : tagAt words a = .intChannel) : ∃ capacity s r,
      Plays words a ⟨capacity, Bool.false, s, r, [], [], []⟩ ∧ s ≠ r ∧ s ∈ new ∧ r ∈ new := by
  rcases empty.shows a mem with queue | group | channel
  · cases queue.tagAt.symm.trans tag
  · cases group.tagAt.symm.trans tag
  · exact channel

theorem Empty.plays {words : Array Word} (empty : Empty words new) (mem : a ∈ new) (p : Plays words a c) :
    ∃ capacity s r, c = ⟨capacity, Bool.false, s, r, [], [], []⟩ ∧ s ≠ r ∧ s ∈ new ∧ r ∈ new := by
  obtain ⟨capacity, s, r, p', rest⟩ := empty.channel mem p.tagAt
  exact ⟨capacity, s, r, p.unique p', rest⟩

theorem Empty.queues_mem {words : Array Word} (empty : Empty words new) (mem : a ∈ new) (p : Plays words a c) :
    ∀ q ∈ c.queues, q ∈ new := by
  obtain ⟨capacity, s, r, rfl, -, hs, hr⟩ := empty.plays mem p
  simp only [Chan.queues, List.mem_cons, List.not_mem_nil, or_false]
  exact fun q either => either.elim (· ▸ hs) (· ▸ hr)

theorem Wired.queues_not_mem (wired : Wired h.words) (d : Drift new h h') (old : a ∉ new) (p : Plays h'.words a c) :
    ∀ q ∈ c.queues, q ∉ new := fun q mem =>
  ((wired.linked d (wired.plays_before d old p) old p.tagAt).1 q mem).1

/-- A wait group is new, or it was there before. -/
theorem Wired.group_drift {n : Int32} {ids : List Word} (wired : Wired h.words) (d : Drift new h h')
    (empty : Empty h'.words new) (s : Shows h'.words a (.group n ids)) :
    (a ∈ new ∧ n = 0 ∧ ids = []) ∨ Shows h.words a (.group n ids) := by
  by_cases mem : a ∈ new
  · exact .inl ⟨mem, s.group_unique (empty.group mem s.tagAt)⟩
  · exact .inr (wired.group_before d mem s)

theorem Wired.drift (wired : Wired h.words) (d : Drift new h h') (empty : Empty h'.words new) :
    Wired h'.words where
  small := d.size ▸ wired.small
  high a node sync := by
    by_cases mem : a ∈ new
    · exact empty.high a mem
    · have same := d.sync a (d.nodeIn.1 node) mem sync
      exact wired.high a (d.nodeIn.1 node) (same.tagAt ▸ sync)
  queues a node tag := by
    by_cases mem : a ∈ new
    · exact ⟨[], empty.queue mem tag⟩
    · have same := d.sync a (d.nodeIn.1 node) mem (.inr (.inl tag))
      obtain ⟨ws, s⟩ := wired.queues a (d.nodeIn.1 node) (same.tagAt ▸ tag)
      exact ⟨ws, s.of_same same d.size⟩
  groups a node tag := by
    by_cases mem : a ∈ new
    · exact ⟨0, [], empty.group mem tag⟩
    · have same := d.sync a (d.nodeIn.1 node) mem (.inr (.inr tag))
      obtain ⟨n, ids, s⟩ := wired.groups a (d.nodeIn.1 node) (same.tagAt ▸ tag)
      exact ⟨n, ids, s.of_same same d.size⟩
  channels a node tag := by
    by_cases mem : a ∈ new
    · obtain ⟨capacity, s, r, p, -⟩ := empty.channel mem tag
      exact ⟨_, p⟩
    · have same := d.sync a (d.nodeIn.1 node) mem (.inl tag)
      obtain ⟨c, p⟩ := wired.channels a (d.nodeIn.1 node) (same.tagAt ▸ tag)
      exact ⟨c, p.of_same d.size same fun q inside => ((wired.linked d p mem tag).1 q inside).2⟩
  settled a c p := by
    by_cases mem : a ∈ new
    · obtain ⟨capacity, s, r, rfl, -⟩ := empty.plays mem p
      exact ⟨Nat.zero_le _, nofun, nofun, nofun⟩
    · exact wired.settled a c (wired.plays_before d mem p)
  ints a c p x inside := by
    by_cases mem : a ∈ new
    · obtain ⟨capacity, s, r, rfl, -⟩ := empty.plays mem p
      cases inside
    · have p₀ := wired.plays_before d mem p
      obtain ⟨k, s⟩ := wired.ints a c p₀ x inside
      exact ⟨k, s.of_same ((wired.linked d p₀ mem p.tagAt).2 x inside) d.size⟩
  distinct a c p := by
    by_cases mem : a ∈ new
    · obtain ⟨capacity, s, r, rfl, apart, -⟩ := empty.plays mem p
      exact apart
    · exact wired.distinct a c (wired.plays_before d mem p)
  apart a b c e p p' q mem mem' := by
    by_cases ha : a ∈ new <;> by_cases hb : b ∈ new
    · exact empty.one a ha b hb p.tagAt p'.tagAt
    · exact absurd (empty.queues_mem ha p q mem) (wired.queues_not_mem d hb p' q mem')
    · exact absurd (empty.queues_mem hb p' q mem') (wired.queues_not_mem d ha p q mem)
    · exact wired.apart a b c e (wired.plays_before d ha p) (wired.plays_before d hb p') q mem mem'
  tallied a n ids s := by
    rcases wired.group_drift d empty s with ⟨-, rfl, rfl⟩ | s
    · exact ⟨Int32.le_refl 0, fun some => absurd rfl some⟩
    · exact wired.tallied a n ids s

end Drifting

section Rewiring

variable {h h' h'' : Heap} {ch : Addr} {c c' c'' : Chan}

theorem Rewires.trans (r : Rewires h h' ch c c') (r' : Rewires h' h'' ch c' c'') : Rewires h h'' ch c c'' := by
  refine ⟨r'.size.trans r.size, r.before, r'.after, r'.queues.trans r.queues, fun b hb ne out => ?_⟩
  refine (r.others b hb ne out).trans (r'.others b ?_ ne (r.queues ▸ out))
  exact (nodeIn_congr r.size).2 hb

/-- Writing to the channel itself. -/
theorem Plays.ring {closed : Bool} {items : List Addr} (p : Plays h.words ch c)
    (u : Updates h h' ch (.channel c.capacity closed c.senders c.receivers items)) :
    Rewires h h' ch c { c with closed, items } := by
  have apart : ∀ q ∈ c.queues, q ≠ ch := by
    rintro q mem rfl
    cases (p.tagAt_queue mem).symm.trans p.tagAt
  refine ⟨u.size, p, ⟨u.shows, u.toOnly.shows (apart _ ?_) p.senders, u.toOnly.shows (apart _ ?_) p.receivers⟩,
    rfl, fun b hb ne _ => u.others b hb ne⟩
  · simp [Chan.queues]
  · simp [Chan.queues]

theorem Plays.sendersQueue {ws : List Waiter} (p : Plays h.words ch c) (distinct : c.senders ≠ c.receivers)
    (u : Updates h h' c.senders (.queue ws)) : Rewires h h' ch c { c with sending := ws } := by
  refine ⟨u.size, p, ⟨u.toOnly.shows ?_ p.channel, u.shows, u.toOnly.shows distinct.symm p.receivers⟩, rfl,
    fun b hb _ out => u.others b hb fun eq => out (by simp [Chan.queues, eq])⟩
  intro same
  have tag := p.senders.tagAt
  rw [← same, p.tagAt] at tag
  cases tag

theorem Plays.receiversQueue {ws : List Waiter} (p : Plays h.words ch c) (distinct : c.senders ≠ c.receivers)
    (u : Updates h h' c.receivers (.queue ws)) : Rewires h h' ch c { c with receiving := ws } := by
  refine ⟨u.size, p, ⟨u.toOnly.shows ?_ p.channel, u.toOnly.shows distinct p.senders, u.shows⟩, rfl,
    fun b hb _ out => u.others b hb fun eq => out (by simp [Chan.queues, eq])⟩
  intro same
  have tag := p.receivers.tagAt
  rw [← same, p.tagAt] at tag
  cases tag

end Rewiring

section Acting

variable {h h' : Heap} {ch a : Addr} {act : Act} {c c' d : Chan}

theorem Wired.plays_other (wired : Wired h.words) (acts : Acts h h' ch act c c') (ne : a ≠ ch)
    (p : Plays h.words a d) : Plays h'.words a d := by
  refine p.of_same acts.size (acts.others a p.channel.node ne fun mem => ?_) fun q mem => ?_
  · exact absurd ((acts.before.tagAt_queue mem).symm.trans p.tagAt) (by decide)
  · refine acts.others q (p.nodeIn_queue mem) ?_ fun mem' => ne (wired.apart a ch d c p acts.before q mem mem')
    rintro rfl
    exact absurd (acts.before.tagAt.symm.trans (p.tagAt_queue mem)) (by decide)

theorem Acts.shows (acts : Acts h h' ch act c c') {n : Node} (s : Shows h.words a n) (tag : n.tag ≠ .intChannel)
    (tag' : n.tag ≠ .waitQueue) : Shows h'.words a n := by
  refine s.of_same (acts.others a s.node ?_ fun mem => ?_) acts.size
  · rintro rfl
    exact tag (s.tagAt.symm.trans acts.before.tagAt)
  · exact tag' (s.tagAt.symm.trans (acts.before.tagAt_queue mem))

theorem Acts.nodeIn (acts : Acts h h' ch act c c') : NodeIn h'.words a ↔ NodeIn h.words a :=
  nodeIn_congr acts.size

theorem Acts.tagAt (acts : Acts h h' ch act c c') (node : NodeIn h.words a) :
    Heap.tagAt h'.words a = Heap.tagAt h.words a := by
  by_cases here : a = ch
  · rw [here, acts.after.tagAt, acts.before.tagAt]
  · by_cases mem : a ∈ c.queues
    · rw [acts.after.tagAt_queue (acts.queues ▸ mem), acts.before.tagAt_queue mem]
    · exact (acts.others a node here mem).tagAt

theorem Wired.plays_acts (wired : Wired h.words) (acts : Acts h h' ch act c c') (p : Plays h'.words a d) :
    a = ch ∧ d = c' ∨ a ≠ ch ∧ Plays h.words a d := by
  by_cases here : a = ch
  · subst here
    exact .inl ⟨rfl, p.unique acts.after⟩
  · have node := acts.nodeIn.1 p.channel.node
    obtain ⟨e, p₀⟩ := wired.channels a node (acts.tagAt node ▸ p.tagAt)
    exact .inr ⟨here, p.unique (wired.plays_other acts here p₀) ▸ p₀⟩

theorem Wired.group_acts {n : Int32} {ids : List Word} (wired : Wired h.words) (acts : Acts h h' ch act c c')
    (s : Shows h'.words a (.group n ids)) : Shows h.words a (.group n ids) := by
  have node := acts.nodeIn.1 s.node
  obtain ⟨n₀, ids₀, s₀⟩ := wired.groups a node (acts.tagAt node ▸ s.tagAt)
  obtain ⟨rfl, rfl⟩ := s.group_unique (acts.shows s₀ nofun nofun)
  exact s₀

/-- The act leaves every channel its queues. -/
theorem Wired.queues_acts (wired : Wired h.words) (acts : Acts h h' ch act c c') (p : Plays h'.words a d) :
    ∃ d₀, Plays h.words a d₀ ∧ d₀.queues = d.queues := by
  obtain ⟨rfl, rfl⟩ | ⟨-, p₀⟩ := wired.plays_acts acts p
  · exact ⟨c, acts.before, acts.queues.symm⟩
  · exact ⟨d, p₀, rfl⟩

theorem Wired.acts (wired : Wired h.words) (acts : Acts h h' ch act c c') : Wired h'.words where
  small := acts.size ▸ wired.small
  high a node sync := wired.high a (acts.nodeIn.1 node) (acts.tagAt (acts.nodeIn.1 node) ▸ sync)
  queues a node tag := by
    by_cases mem : a ∈ c'.queues
    · simp only [Chan.queues, List.mem_cons, List.not_mem_nil, or_false] at mem
      rcases mem with rfl | rfl
      · exact ⟨_, acts.after.senders⟩
      · exact ⟨_, acts.after.receivers⟩
    · have node₀ := acts.nodeIn.1 node
      obtain ⟨ws, s⟩ := wired.queues a node₀ (acts.tagAt node₀ ▸ tag)
      refine ⟨ws, s.of_same (acts.others a node₀ ?_ (acts.queues ▸ mem)) acts.size⟩
      rintro rfl
      cases acts.before.tagAt.symm.trans s.tagAt
  groups a node tag := by
    have node₀ := acts.nodeIn.1 node
    obtain ⟨n, ids, s⟩ := wired.groups a node₀ (acts.tagAt node₀ ▸ tag)
    exact ⟨n, ids, acts.shows s nofun nofun⟩
  channels a node tag := by
    by_cases here : a = ch
    · exact ⟨c', here ▸ acts.after⟩
    · have node₀ := acts.nodeIn.1 node
      obtain ⟨e, p⟩ := wired.channels a node₀ (acts.tagAt node₀ ▸ tag)
      exact ⟨e, wired.plays_other acts here p⟩
  settled a e p := by
    obtain ⟨-, rfl⟩ | ⟨-, p₀⟩ := wired.plays_acts acts p
    · exact (wired.settled ch c acts.before).step acts.step
    · exact wired.settled a e p₀
  ints a e p x mem := by
    have int : ∃ k, Shows h.words x (.int k) := by
      obtain ⟨-, rfl⟩ | ⟨-, p₀⟩ := wired.plays_acts acts p
      · exact (acts.ints x mem).elim (wired.ints ch c acts.before x) id
      · exact wired.ints a e p₀ x mem
    exact int.imp fun k s => acts.shows s nofun nofun
  distinct a e p := by
    obtain ⟨e₀, p₀, same⟩ := wired.queues_acts acts p
    obtain ⟨senders, receivers⟩ : e₀.senders = e.senders ∧ e₀.receivers = e.receivers := by
      simpa [Chan.queues] using same
    exact senders ▸ receivers ▸ wired.distinct a e₀ p₀
  apart a b e f p p' q mem mem' := by
    obtain ⟨e₀, p₀, same⟩ := wired.queues_acts acts p
    obtain ⟨f₀, p₀', same'⟩ := wired.queues_acts acts p'
    exact wired.apart a b e₀ f₀ p₀ p₀' q (same ▸ mem) (same' ▸ mem')
  tallied a n ids s := wired.tallied a n ids (wired.group_acts acts s)

end Acting

section Grouping

variable {h h' : Heap} {a g : Addr} {c : Chan} {n n' : Int32} {ids ids' : List Word}

theorem Updates.tagAt_group (s : Shows h.words g (.group n ids)) (u : Updates h h' g (.group n' ids'))
    (node : NodeIn h'.words a) : tagAt h'.words a = tagAt h.words a := by
  by_cases here : a = g
  · rw [here, u.shows.tagAt, s.tagAt]
    rfl
  · exact (u.others a (u.nodeIn.1 node) here).tagAt

theorem Updates.shows_group (s : Shows h.words g (.group n ids)) (u : Updates h h' g (.group n' ids')) {k : Node}
    (t : Shows h.words a k) (tag : k.tag ≠ .waitGroup) : Shows h'.words a k := by
  refine u.toOnly.shows ?_ t
  rintro rfl
  exact tag (t.tagAt.symm.trans s.tagAt)

theorem Wired.plays_group (wired : Wired h.words) (s : Shows h.words g (.group n ids))
    (u : Updates h h' g (.group n' ids')) : Plays h'.words a c ↔ Plays h.words a c := by
  have forth : ∀ {e}, Plays h.words a e → Plays h'.words a e := fun p =>
    ⟨u.shows_group s p.channel nofun, u.shows_group s p.senders nofun, u.shows_group s p.receivers nofun⟩
  refine ⟨fun p => ?_, forth⟩
  obtain ⟨e, p₀⟩ := wired.channels a (u.nodeIn.1 p.channel.node) (u.tagAt_group s p.channel.node ▸ p.tagAt)
  exact p.unique (forth p₀) ▸ p₀

theorem Wired.group_other {k : Int32} {js : List Word} (wired : Wired h.words) (s : Shows h.words g (.group n ids))
    (u : Updates h h' g (.group n' ids')) (other : a ≠ g) (t : Shows h'.words a (.group k js)) :
    Shows h.words a (.group k js) := by
  obtain ⟨k₀, js₀, t₀⟩ := wired.groups a (u.nodeIn.1 t.node) (u.tagAt_group s t.node ▸ t.tagAt)
  obtain ⟨rfl, rfl⟩ := t.group_unique (u.toOnly.shows other t₀)
  exact t₀

theorem Wired.group (wired : Wired h.words) (s : Shows h.words g (.group n ids))
    (u : Updates h h' g (.group n' ids')) (tally : Tally n ids n' ids') : Wired h'.words where
  small := u.size ▸ wired.small
  high a node sync := wired.high a (u.nodeIn.1 node) (u.tagAt_group s node ▸ sync)
  queues a node tag := by
    obtain ⟨ws, t⟩ := wired.queues a (u.nodeIn.1 node) (u.tagAt_group s node ▸ tag)
    exact ⟨ws, u.shows_group s t nofun⟩
  groups a node tag := by
    by_cases here : a = g
    · exact ⟨n', ids', here ▸ u.shows⟩
    · obtain ⟨k, js, t⟩ := wired.groups a (u.nodeIn.1 node) (u.tagAt_group s node ▸ tag)
      exact ⟨k, js, u.toOnly.shows here t⟩
  channels a node tag := by
    obtain ⟨e, p⟩ := wired.channels a (u.nodeIn.1 node) (u.tagAt_group s node ▸ tag)
    exact ⟨e, (wired.plays_group s u).2 p⟩
  settled a e p := wired.settled a e ((wired.plays_group s u).1 p)
  ints a e p x mem := by
    obtain ⟨k, t⟩ := wired.ints a e ((wired.plays_group s u).1 p) x mem
    exact ⟨k, u.shows_group s t nofun⟩
  distinct a e p := wired.distinct a e ((wired.plays_group s u).1 p)
  apart a b e f p p' := wired.apart a b e f ((wired.plays_group s u).1 p) ((wired.plays_group s u).1 p')
  tallied a k js t := by
    by_cases here : a = g
    · subst here
      obtain ⟨rfl, rfl⟩ := t.group_unique u.shows
      exact (wired.tallied a n ids s).step tally
    · exact wired.tallied a k js (wired.group_other s u here t)

end Grouping

theorem Wired.effect {h h' : Heap} (wired : Wired h.words) (effect : Effect h h') : Wired h'.words := by
  cases effect with
  | drift d => exact wired.drift d ⟨nofun, nofun, nofun⟩
  | newQueues new =>
    obtain ⟨new, d, queues⟩ := new
    refine wired.drift d ⟨fun a mem => (queues a mem).2, fun a mem => .inl (queues a mem).1, ?_⟩
    intro a mem b _ tag _
    exact absurd ((queues a mem).1.tagAt.symm.trans tag) (by decide)
  | @newChannel capacity ch s r made =>
    have plays : Plays h'.words ch ⟨capacity, Bool.false, s, r, [], [], []⟩ :=
      ⟨made.channel, made.senders, made.receivers⟩
    refine wired.drift made.drift ⟨?_, ?_, ?_⟩
    · simpa using made.high
    · simp only [List.forall_mem_cons]
      exact ⟨.inl made.senders, .inl made.receivers, .inr (.inr ⟨capacity, s, r, plays, made.apart,
        by simp, by simp⟩), nofun⟩
    · have only : ∀ a ∈ [s, r, ch], tagAt h'.words a = .intChannel → a = ch := by
        intro a mem tag
        simp only [List.mem_cons, List.not_mem_nil, or_false] at mem
        rcases mem with rfl | rfl | rfl
        · cases made.senders.tagAt.symm.trans tag
        · cases made.receivers.tagAt.symm.trans tag
        · rfl
      intro a ha b hb tag tag'
      rw [only a ha tag, only b hb tag']
  | @newGroup g d s high =>
    refine wired.drift d ⟨by simpa using high, List.forall_mem_singleton.2 (.inr (.inl s)), ?_⟩
    simp
  | acts acts => exact wired.acts acts
  | group s u tally => exact wired.group s u tally

end Heap

end FiberVm
