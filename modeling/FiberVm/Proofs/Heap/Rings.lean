import FiberVm.Proofs.Heap.Queue
import FiberVm.Proofs.Heap.Threaded

/-!
# Packed rings are lists

A wait queue and the ring of a channel live in the cells of one node, with the indices and the count in bytes of its
header. Whatever calls are made one after the other, and however often the indices wrap round, they return what the
same calls on a list return, where one goes in at the end and comes out at the front. Such calls touch nothing but the
node, and of its header neither the tag nor the size nor the mark.

A full queue refuses one more fiber and stays as it is. A channel leaves it to the caller to see that there is room
before a push and an item before a pop.
-/

set_option autoImplicit false

namespace FiberVm

section Sessions

variable {γ ρ σ τ : Type}

/-- Makes calls one after the other: what they return, and the state that they leave. -/
def session (call : γ → σ → ρ × σ) : List γ → σ → List ρ × σ
  | [], s => ([], s)
  | c :: cs, s =>
    let (r, s) := call c s
    let (rs, s) := session call cs s
    (r :: rs, s)

/-- Every call is allowed in the state in which it is made. -/
def Permitted (call : γ → σ → ρ × σ) (allowed : γ → σ → Prop) : List γ → σ → Prop
  | [], _ => True
  | c :: cs, s => allowed c s ∧ Permitted call allowed cs (call c s).2

instance Permitted.decidable {call : γ → σ → ρ × σ} {allowed : γ → σ → Prop} [∀ c s, Decidable (allowed c s)] :
    ∀ cs s, Decidable (Permitted call allowed cs s)
  | [], _ => instDecidableTrue
  | c :: cs, s =>
    have : Decidable (Permitted call allowed cs (call c s).2) := Permitted.decidable cs (call c s).2
    inferInstanceAs (Decidable (allowed c s ∧ Permitted call allowed cs (call c s).2))

/-- If each call does the same on both sides, so does a session. -/
theorem session_simulates {f : γ → σ → ρ × σ} {g : γ → τ → ρ × τ} {allowed : γ → τ → Prop} {R : σ → τ → Prop}
    (step : ∀ c s t, R s t → allowed c t → (f c s).1 = (g c t).1 ∧ R (f c s).2 (g c t).2) {cs : List γ} {s : σ} {t : τ}
    (start : R s t) (permitted : Permitted g allowed cs t) :
    (session f cs s).1 = (session g cs t).1 ∧ R (session f cs s).2 (session g cs t).2 := by
  induction cs generalizing s t with
  | nil => exact ⟨rfl, start⟩
  | cons c cs ih =>
    obtain ⟨first, rest⟩ := permitted
    obtain ⟨returns, next⟩ := step c s t start first
    obtain ⟨later, last⟩ := ih next rest
    exact ⟨by simp only [session, returns, later], last⟩

theorem permitted_of_all {call : γ → σ → ρ × σ} {allowed : γ → Prop} {cs : List γ} {s : σ} (all : ∀ c ∈ cs, allowed c) :
    Permitted call (fun c _ => allowed c) cs s := by
  induction cs generalizing s with
  | nil => trivial
  | cons c cs ih => exact ⟨all c List.mem_cons_self, ih fun d mem => all d (List.mem_cons_of_mem c mem)⟩

end Sessions

namespace Heap

/-- What an operation returns and the heap that it leaves, whether it fails or not. -/
def outcome {α : Type} (op : HeapM α) (h : Heap) : Except Failure α × Heap :=
  match op h with
  | .ok a h' => (.ok a, h')
  | .error e h' => (.error e, h')

section

variable {α : Type} {op : HeapM α} {h h' : Heap}

theorem outcome_of_ok {a : α} (run : op h = .ok a h') : outcome op h = (.ok a, h') := by rw [outcome, run]

theorem outcome_of_error {e : Failure} (run : op h = .error e h') : outcome op h = (.error e, h') := by
  rw [outcome, run]

end

/-- The heap has been changed at `a` only, and there neither in the tag nor in the size nor in the mark. -/
structure Within (h h' : Heap) (a : Addr) : Prop extends Only h h' a where
  header : ∀ k < 3, (cell h'.words a 0).byte k = (cell h.words a 0).byte k

theorem Updates.within {h h' : Heap} {a : Addr} {n n' : Node} (u : Updates h h' a n') (s : Shows h.words a n)
    (tag : n'.tag = n.tag) (size : n'.size = n.size) : Within h h' a := by
  refine ⟨u.toOnly, fun k lt => ?_⟩
  obtain rfl | rfl | rfl : k = 0 ∨ k = 1 ∨ k = 2 := by omega
  · rw [u.shows.tag, s.tag, tag]
  · rw [← UInt8.toNat_inj, u.shows.size, s.size, size]
  · rw [u.shows.unmarked, s.unmarked]

section Queues

/-- A call on a wait queue. -/
inductive QueueCall
  | enqueue (w : Waiter)
  | dequeue
deriving DecidableEq, Repr

namespace QueueCall

def run (q : Addr) : QueueCall → HeapM (Option Waiter)
  | enqueue w => do
    Heap.enqueue q w
    return none
  | dequeue => Heap.dequeue q

/-- Makes the call on a list that holds no more than fifteen. -/
def onList : QueueCall → List Waiter → Except Failure (Option Waiter) × List Waiter
  | enqueue w, ws => if ws.length = 15 then (.error (.fault .queueCapacity), ws) else (.ok none, ws ++ [w])
  | dequeue, [] => (.ok none, [])
  | dequeue, w :: ws => (.ok (some w), ws)

/-- The id of a fiber that is parked fits 32 bits. -/
def Fits : QueueCall → Prop
  | enqueue w => w.fiber < 4294967296
  | dequeue => True

instance : DecidablePred Fits
  | enqueue w => inferInstanceAs (Decidable (w.fiber < 4294967296))
  | dequeue => instDecidableTrue

end QueueCall

/-- The queue at `q` holds `ws`, and nothing else has been changed since `h₀`. -/
structure Queued (h₀ h : Heap) (q : Addr) (ws : List Waiter) : Prop extends Within h₀ h q where
  threaded : Threaded h
  room : ws.length ≤ 15
  length : queueLen q h = .ok ws.length h
  waiters : waiters q h = .ok ws h
  refuses : ws.length = 15 → ∀ w, ∃ c, c.kind = .nodeCapacity ∧ enqueue q w h = .error (.fault c) h
  takes : ws.length ≠ 15 → ∀ w, ∃ h', enqueue q w h = .ok () h'

variable {h₀ h : Heap} {q : Addr} {ws : List Waiter}

theorem queueCall_simulates (c : QueueCall) (u : Updates h₀ h q (.queue ws)) (fits : c.Fits) :
    (outcome (c.run q) h).1 = (c.onList ws).1 ∧ Updates h₀ (outcome (c.run q) h).2 q (.queue (c.onList ws).2) := by
  cases c with
  | enqueue w =>
    by_cases full : ws.length = 15
    · have refused : QueueCall.run q (.enqueue w) h = .error (.fault .queueCapacity) h :=
        bind_of_error (enqueue_full u.shows full w)
      rw [outcome_of_error refused, QueueCall.onList, if_pos full]
      exact ⟨rfl, u⟩
    · obtain ⟨h', run, u'⟩ := enqueue_shows u.shows full w
      have same : w.fiber.toUInt32.toNat = w.fiber := UInt32.toNat_ofNat_of_lt fits
      have parked : QueueCall.run q (.enqueue w) h = .ok none h' := bind_of_ok run
      rw [same] at u'
      rw [outcome_of_ok parked, QueueCall.onList, if_neg full]
      exact ⟨rfl, u.trans u'⟩
  | dequeue =>
    cases ws with
    | nil =>
      have nobody : QueueCall.run q .dequeue h = .ok none h := dequeue_nil u.shows
      rw [outcome_of_ok nobody]
      exact ⟨rfl, u⟩
    | cons w ws =>
      obtain ⟨h', run, u'⟩ := dequeue_cons u.shows
      have oldest : QueueCall.run q .dequeue h = .ok (some w) h' := run
      rw [outcome_of_ok oldest]
      exact ⟨rfl, u.trans u'⟩

theorem Updates.queued (u : Updates h₀ h q (.queue ws)) (t : Threaded h₀) (s : Shows h₀.words q (.queue [])) :
    Queued h₀ h q ws := by
  have ring : Ring _ _ _ _ _ _ _ ws := u.shows.body
  refine ⟨u.within s rfl rfl, u.threaded t s.layout.tagAt_ne, ring.room, queueLen_shows u.shows, waiters_shows u.shows,
    fun full w => ?_, fun space w => ?_⟩
  · exact ⟨.queueCapacity, rfl, enqueue_full u.shows full w⟩
  · obtain ⟨h', run, -⟩ := enqueue_shows u.shows space w
    exact ⟨h', run⟩

end Queues

section Channels

/-- A call on a channel. -/
inductive ChanCall
  | push (v : Addr)
  | pop
  | close
deriving DecidableEq, Repr

/-- Items in the order in which they came, open for more or closed. -/
structure Buffer where
  closed : Bool := Bool.false
  items : List Addr := []
deriving DecidableEq, Repr

namespace ChanCall

def run (ch : Addr) : ChanCall → HeapM (Option Addr)
  | push v => do
    chanPush ch v
    return none
  | pop => return some (← chanPop ch)
  | close => do
    closeChan ch
    return none

/-- Makes the call on a list. -/
def onBuffer : ChanCall → Buffer → Except Failure (Option Addr) × Buffer
  | push v, b => (.ok none, { b with items := b.items ++ [v] })
  | pop, b => (.ok b.items.head?, { b with items := b.items.tail })
  | close, b => (.ok none, { b with closed := Bool.true })

/-- There is room for what is pushed, and something to be popped. -/
def Allowed (capacity : Nat) : ChanCall → Buffer → Prop
  | push _, b => b.items.length < capacity
  | pop, b => b.items ≠ []
  | close, _ => True

instance {capacity : Nat} (c : ChanCall) (b : Buffer) : Decidable (c.Allowed capacity b) :=
  match c with
  | push _ => inferInstanceAs (Decidable (b.items.length < capacity))
  | pop => inferInstanceAs (Decidable (b.items ≠ []))
  | close => instDecidableTrue

end ChanCall

/-- The channel at `ch` holds the items of `b`, and nothing else has been changed since `h₀`. -/
structure Buffered (h₀ h : Heap) (ch : Addr) (capacity : Nat) (b : Buffer) : Prop extends Within h₀ h ch where
  threaded : Threaded h
  room : b.items.length ≤ capacity
  length : chanLen ch h = .ok b.items.length h
  capacity : chanCap ch h = .ok capacity h
  closed : chanClosed ch h = .ok b.closed h
  senders : ∃ q, sendQueue ch h₀ = .ok q h₀ ∧ sendQueue ch h = .ok q h
  receivers : ∃ q, recvQueue ch h₀ = .ok q h₀ ∧ recvQueue ch h = .ok q h

variable {h₀ h : Heap} {ch senders receivers : Addr} {capacity : Nat} {b : Buffer}

theorem chanCall_simulates (c : ChanCall)
    (u : Updates h₀ h ch (.channel capacity b.closed senders receivers b.items)) (allowed : c.Allowed capacity b) :
    (outcome (c.run ch) h).1 = (c.onBuffer b).1 ∧ Updates h₀ (outcome (c.run ch) h).2 ch
      (.channel capacity (c.onBuffer b).2.closed senders receivers (c.onBuffer b).2.items) := by
  obtain ⟨closed, items⟩ := b
  cases c with
  | push v =>
    obtain ⟨h', run, u'⟩ := chanPush_shows u.shows allowed v
    have pushed : ChanCall.run ch (.push v) h = .ok none h' := bind_of_ok run
    rw [outcome_of_ok pushed]
    exact ⟨rfl, u.trans u'⟩
  | pop =>
    cases items with
    | nil => exact absurd rfl allowed
    | cons x items =>
      obtain ⟨h', run, u'⟩ := chanPop_shows u.shows
      have popped : ChanCall.run ch .pop h = .ok (some x) h' := bind_of_ok run
      rw [outcome_of_ok popped]
      exact ⟨rfl, u.trans u'⟩
  | close =>
    obtain ⟨h', run, u'⟩ := closeChan_shows u.shows
    have closed : ChanCall.run ch .close h = .ok none h' := bind_of_ok run
    rw [outcome_of_ok closed]
    exact ⟨rfl, u.trans u'⟩

theorem Updates.buffered (u : Updates h₀ h ch (.channel capacity b.closed senders receivers b.items))
    (t : Threaded h₀) (s : Shows h₀.words ch (.channel capacity Bool.false senders receivers [])) :
    Buffered h₀ h ch capacity b := by
  obtain ⟨-, -, -, -, -, ring⟩ := u.shows.body
  exact ⟨u.within s rfl rfl, u.threaded t s.layout.tagAt_ne, ring.room, chanLen_shows u.shows, chanCap_shows u.shows,
    chanClosed_shows u.shows, ⟨senders, sendQueue_shows s, sendQueue_shows u.shows⟩,
    receivers, recvQueue_shows s, recvQueue_shows u.shows⟩

end Channels

/-- **Rings refine lists.** On a new wait queue any calls, if the ids of the fibers fit 32 bits, and on a new channel any
pushes, pops and closings, as long as there is room for what is pushed and an item to be popped, return what they return
on a list. What is then on the node is the list, and nothing else has been changed. -/
theorem rings_refine_lists {h : Heap} (threaded : Threaded h) (roots : Roots) :
    (∀ q h₀, newWaitQueue roots h = .ok q h₀ → ∀ calls : List QueueCall, (∀ c ∈ calls, c.Fits) →
      (session (fun c => outcome (c.run q)) calls h₀).1 = (session QueueCall.onList calls []).1 ∧
        Queued h₀ (session (fun c => outcome (c.run q)) calls h₀).2 q (session QueueCall.onList calls []).2) ∧
    ∀ capacity ch h₀, newChannel roots capacity h = .ok ch h₀ → ∀ calls : List ChanCall,
      Permitted ChanCall.onBuffer (ChanCall.Allowed capacity.toNat) calls {} →
      (session (fun c => outcome (c.run ch)) calls h₀).1 = (session ChanCall.onBuffer calls {}).1 ∧
        Buffered h₀ (session (fun c => outcome (c.run ch)) calls h₀).2 ch capacity.toNat
          (session ChanCall.onBuffer calls {}).2 := by
  constructor
  · intro q h₀ run calls fits
    obtain ⟨t, s⟩ : Threaded h₀ ∧ Shows h₀.words q (.queue []) := by
      have made := threaded.newWaitQueue roots
      rwa [run] at made
    have start : Updates h₀ h₀ q (.queue []) := ⟨.refl h₀ q, s⟩
    obtain ⟨same, u⟩ := session_simulates (R := fun h ws => Updates h₀ h q (.queue ws))
      (fun c _ _ u fits => queueCall_simulates c u fits) start (permitted_of_all fits)
    exact ⟨same, u.queued t s⟩
  · intro capacity ch h₀ run calls permitted
    obtain ⟨t, senders, receivers, s⟩ : Threaded h₀ ∧ ∃ senders receivers,
        Shows h₀.words ch (.channel capacity.toNat Bool.false senders receivers []) := by
      have made := threaded.newChannel roots capacity
      rwa [run] at made
    have start : Updates h₀ h₀ ch (.channel capacity.toNat Bool.false senders receivers []) := ⟨.refl h₀ ch, s⟩
    obtain ⟨same, u⟩ := session_simulates
      (R := fun h b => Updates h₀ h ch (.channel capacity.toNat b.closed senders receivers b.items))
      (fun c _ _ u allowed => chanCall_simulates c u allowed) start permitted
    exact ⟨same, u.buffered t s⟩

/-- In a channel for two items the third one takes the slot of the first. -/
theorem rings_refine_lists_wrap : ∃ h q h₁ ch h₂, create 304 = .ok h ∧ newWaitQueue (.pure []) h = .ok q h₁ ∧
    newChannel (.pure []) 2 h = .ok ch h₂ ∧
    (session (fun c => outcome (QueueCall.run q c)) [.enqueue ⟨4, 256⟩, .dequeue, .dequeue] h₁).1 =
      [.ok none, .ok (some ⟨4, 256⟩), .ok none] ∧
    (session (fun c => outcome (ChanCall.run ch c)) [.push 256, .push 272, .pop, .push 288, .pop, .pop] h₂).1 =
      [.ok none, .ok none, .ok (some 256), .ok none, .ok (some 272), .ok (some 288)] := by
  obtain ⟨h, made, first, fourth⟩ : ∃ h, create 304 = .ok h ∧ (newWaitQueue (.pure [])).run' h = some 256 ∧
      (newChannel (.pure []) 2).run' h = some 288 := ⟨_, rfl, by decide +kernel, by decide +kernel⟩
  obtain ⟨h₁, parked⟩ := ok_of_run' first
  obtain ⟨h₂, opened⟩ := ok_of_run' fourth
  have both := rings_refine_lists (History.create made).threaded (.pure [])
  refine ⟨h, 256, h₁, 288, h₂, made, parked, opened, ?_, ?_⟩
  · rw [(both.1 256 h₁ parked _ (by decide)).1]
    rfl
  · rw [(both.2 2 288 h₂ opened _ (by decide)).1]
    rfl

end Heap

end FiberVm
