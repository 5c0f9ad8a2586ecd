import FiberVm.Proofs.Machine.Sturdy

/-!
# Work within an activation

Operators, variables, channels, wait groups and builtins leave every fiber where it is in the program, and
the runtime stacks with it. A channel is found by its tag, and its queues are tied to it.
-/

set_option autoImplicit false

namespace FiberVm

open Heap (Shows Has IsAddress NodeIn Shaped Linked Updates IsSync tagAt)

namespace Treads

variable {β : Type} {c : Code} {P : Int → Prop} {v : Scene} {m : Machine} {Q : β → Machine → Prop} {a : Addr}

theorem refuse {α : Type} {op : HeapM α} {k : α → Exec β} {e : Cause} (sturdy : m.Sturdy c P)
    (run : op m.heap = .error (.fault e) m.heap) : Treads c P Q (Exec.onHeap op >>= k) m :=
  stuck (onHeap_error run) sturdy

theorem last {x : Exec Unit} {Q : Unit → Machine → Prop} (treads : Treads c P Q (x >>= Pure.pure) m) :
    Treads c P Q x m := by
  rwa [bind_pure] at treads

section Values

theorem reserved (poised : m.Poised c P v) (aligned : a.toNat % Heap.nodeSize = 0) (low : a < Heap.bottom) :
    IsAddress m.heap.words a := .inr (poised.shaped.sized.nodeIn_low aligned low)

theorem boxResult {k : Addr → Exec β} {r : OpResult} (poised : m.Poised c P v)
    (rest : ∀ a h, IsAddress h.words a → Machine.Poised c P v { m with heap := h } →
      Treads c P Q (k a) { m with heap := h }) : Treads c P Q (Exec.boxResult r >>= k) m := by
  cases r with
  | int n =>
    change Treads c P Q ((Exec.allocating fun roots => Heap.newInt roots n) >>= k) m
    refine build poised (Heap.newInt_anyOrder poised.shaped poised.start n) ?_ rest
    exact (Heap.newInt_makes poised.shaped poised.start n).builds (show ¬ IsSync .int by decide)
  | bool b =>
    change Treads c P Q ((Pure.pure (Heap.ofBool b) : Exec Addr) >>= k) m
    refine step rfl (rest _ m.heap (reserved poised ?_ ?_) poised)
    all_goals cases b <;> decide
  | fault e => exact fault poised.toSturdy

theorem binary {k : Addr → Exec β} {op : Operator} {x y : Addr} (poised : m.Poised c P v)
    (rest : ∀ a h, IsAddress h.words a → Machine.Poised c P v { m with heap := h } →
      Treads c P Q (k a) { m with heap := h }) : Treads c P Q (Exec.binary op x y >>= k) m := by
  have sturdy := poised.toSturdy
  unfold Exec.binary
  simp only [bind_assoc]
  refine read sturdy (Exec.still_tagOf x) fun tx _ => read sturdy (Exec.still_tagOf y) fun ty _ => ?_
  split
  · simp only [bind_assoc]
    refine read sturdy (Exec.still_onHeap (Heap.still_intValue x)) fun i _ => ?_
    exact read sturdy (Exec.still_onHeap (Heap.still_intValue y)) fun j _ => boxResult poised rest
  · split
    · exact boxResult poised rest
    · exact fault sturdy

theorem unary {k : Addr → Exec β} {op : Operator} {x : Addr} (poised : m.Poised c P v)
    (rest : ∀ a h, IsAddress h.words a → Machine.Poised c P v { m with heap := h } →
      Treads c P Q (k a) { m with heap := h }) : Treads c P Q (Exec.unary op x >>= k) m := by
  have sturdy := poised.toSturdy
  unfold Exec.unary
  split
  · simp only [bind_assoc]
    refine read sturdy (Exec.still_tagOf x) fun tag _ => ?_
    split
    · simp only [bind_assoc]
      exact read sturdy (Exec.still_onHeap (Heap.still_intValue x)) fun n _ => boxResult poised rest
    · exact fault sturdy
  · split
    · split
      · exact boxResult (r := .bool (x == Heap.false)) poised rest
      · rw [bind_assoc]
        exact read sturdy (Exec.still_tagOf x) fun tag _ => fault sturdy
    · exact fault sturdy

/-- What a variable holds may be stale, but it is an address. -/
theorem load {pos : Pos} {k : Addr → Exec β} (poised : m.Poised c P v)
    (rest : ∀ a, IsAddress m.heap.words a → Treads c P Q (k a) m) :
    Treads c P Q (Exec.onHeap (Heap.lookup m.control.sched.current.env pos.frame pos.slot) >>= k) m := by
  rcases poised.shaped.slotFrame poised.typed.env pos.frame pos.slot with ⟨e, run⟩ | ⟨f, slots, run, s, index, lt⟩
  · exact refuse poised.toSturdy (bind_of_error run)
  · have get := List.getElem?_eq_getElem lt
    refine onHeap ((bind_of_ok run).trans (Heap.child_frame s index get)) (rest _ ?_)
    exact poised.shaped.inside s _ (List.mem_of_getElem? get)

theorem assign {pos : Pos} (free : ∀ m', v.met m') (poised : m.Poised c P v) (is : IsAddress m.heap.words a) :
    Treads c P (fun _ m' => m'.Poised c P v)
      (Exec.onHeap (Heap.store m.control.sched.current.env pos.frame pos.slot a)) m := by
  refine last ?_
  rcases poised.shaped.slotFrame poised.typed.env pos.frame pos.slot with ⟨e, run⟩ | ⟨f, slots, run, s, index, lt⟩
  · exact refuse poised.toSturdy (bind_of_error run)
  · obtain ⟨h, set, u⟩ := Heap.setChild_slots (.inl rfl) s index lt a
    refine onHeap ((bind_of_ok run).trans set) (.pure ?_)
    refine poised.update u s.tagAt (.of_plain rfl rfl fun x mem => ?_) nofun fun m' _ => free m'
    rcases List.mem_or_eq_of_mem_set mem with mem | rfl
    · exact poised.shaped.inside s x mem
    · exact is

end Values

section Meeting

variable (free : ∀ m', v.met m')

include free

section Channels

variable {ch : Addr}

/-- A wait queue is written to. The values in it are addresses. -/
theorem enqueued {q : Addr} {ws ws' : List Waiter} {h : Heap} (poised : m.Poised c P v)
    (s : Shows m.heap.words q (.queue ws)) (u : Updates m.heap h q (.queue ws'))
    (values : ∀ w ∈ ws', IsAddress m.heap.words w.value) : Machine.Poised c P v { m with heap := h } := by
  refine poised.update u s.tagAt (.of_plain rfl rfl fun x mem => ?_) nofun fun m' _ => free m'
  obtain ⟨w, inside, rfl⟩ := List.mem_map.1 (List.mem_of_mem_filter mem)
  exact values w inside

theorem dequeue {q : Addr} {find : HeapM Addr} {k : Option Waiter → Exec β} (poised : m.Poised c P v)
    (found : find m.heap = .ok q m.heap) (has : Has m.heap.words q .waitQueue)
    (rest : ∀ w h, h.words.size = m.heap.words.size → (∀ x ∈ w, IsAddress m.heap.words (Waiter.value x)) →
      (∀ a n, Shows m.heap.words a n → n.tag ≠ .waitQueue → Shows h.words a n) →
      Machine.Poised c P v { m with heap := h } → Treads c P Q (k w) { m with heap := h }) :
    Treads c P Q (Exec.onHeap (find >>= Heap.dequeue) >>= k) m := by
  obtain ⟨ws, s⟩ := poised.shaped.queue has
  cases ws with
  | nil =>
    exact onHeap ((bind_of_ok found).trans (Heap.dequeue_nil s)) (rest none m.heap rfl nofun (fun _ _ t _ => t) poised)
  | cons w ws =>
    obtain ⟨h, run, u⟩ := Heap.dequeue_cons s
    refine onHeap ((bind_of_ok found).trans run) (rest (some w) h u.size ?_ (fun b n t other => ?_) ?_)
    · rintro x ⟨⟩
      exact poised.shaped.waiter s List.mem_cons_self
    · refine u.toOnly.shows ?_ t
      rintro rfl
      exact other (t.tagAt.symm.trans s.tagAt)
    · exact enqueued free poised s u fun x mem => poised.shaped.waiter s (List.mem_cons_of_mem w mem)

theorem parkIn {q : Addr} {find : HeapM Addr} {w : Waiter} (poised : m.Poised c P v)
    (running : m.control.sched.current.state = .running) (found : find m.heap = .ok q m.heap)
    (has : Has m.heap.words q .waitQueue) (is : IsAddress m.heap.words w.value) :
    Treads c P (fun _ m' => m'.Poised c P v)
      (Exec.onHeap (find >>= fun q => Heap.enqueue q w) >>= fun _ => Exec.park) m := by
  obtain ⟨ws, s⟩ := poised.shaped.queue has
  by_cases full : ws.length = 15
  · exact refuse poised.toSturdy ((bind_of_ok found).trans (Heap.enqueue_full s full w))
  · obtain ⟨h, run, u⟩ := Heap.enqueue_shows s full w
    refine onHeap ((bind_of_ok found).trans run) (of_ok rfl (Machine.Poised.park (m := { m with heap := h }) free ?_ running))
    refine enqueued free poised s u fun x mem => ?_
    rcases List.mem_append.1 mem with mem | mem
    · exact poised.shaped.waiter s mem
    · exact List.mem_singleton.1 mem ▸ is

omit free in
theorem channel (poised : m.Poised c P v) (has : Has m.heap.words ch .intChannel) :
    ∃ cap closed senders receivers items, Shows m.heap.words ch (.channel cap closed senders receivers items) ∧
      Has m.heap.words senders .waitQueue ∧ Has m.heap.words receivers .waitQueue := by
  obtain ⟨n, s, linked, tag⟩ := poised.shaped.has has nofun
  obtain ⟨cap, closed, senders, receivers, items, rfl⟩ := s.channel_of_tag tag
  exact ⟨cap, closed, senders, receivers, items, s, linked.ties (senders, .waitQueue) List.mem_cons_self,
    linked.ties (receivers, .waitQueue) (List.mem_cons_of_mem _ List.mem_cons_self)⟩

theorem refilled {cap : Nat} {closed flag : Bool} {senders receivers : Addr} {items items' : List Addr} {h : Heap}
    (poised : m.Poised c P v) (s : Shows m.heap.words ch (.channel cap closed senders receivers items))
    (u : Updates m.heap h ch (.channel cap flag senders receivers items'))
    (values : ∀ x ∈ items', IsAddress m.heap.words x) : Machine.Poised c P v { m with heap := h } :=
  poised.update u s.tagAt ((poised.shaped.channel s).refill values) nofun fun m' _ => free m'

omit free in
theorem mem_items {cap : Nat} {closed : Bool} {senders receivers x : Addr} {items : List Addr}
    (poised : m.Poised c P v) (s : Shows m.heap.words ch (.channel cap closed senders receivers items))
    (mem : x ∈ items) : IsAddress m.heap.words x :=
  poised.shaped.inside s x (List.mem_cons_of_mem _ (List.mem_cons_of_mem _ mem))

theorem send (poised : m.Poised c P v) (running : m.control.sched.current.state = .running) :
    Treads c P (fun _ m' => m'.Poised c P v) Exec.send m := by
  unfold Exec.send
  refine peek poised fun x _ is => peek poised fun ch _ isCh => expectTag poised.toSturdy isCh fun has => ?_
  refine tagOf poised.toSturdy is fun t _ => ?_
  split
  · exact fault poised.toSturdy
  obtain ⟨cap, closed, senders, receivers, items, s, sends, receives⟩ := channel poised has
  refine step (onHeap_ok (Heap.chanClosed_shows s)) ?_
  split
  · exact fault poised.toSturdy
  refine drop poised fun poised => dequeue free poised (Heap.recvQueue_shows s) receives fun w h size _ kept poised => ?_
  cases w with
  | some w => exact wake free poised ((Heap.isAddress_congr size).2 is)
  | none =>
    have s := kept ch _ s nofun
    refine step (onHeap_ok (Heap.chanLen_shows s)) (step (onHeap_ok (Heap.chanCap_shows s)) ?_)
    split
    · next space =>
      obtain ⟨h', run, u⟩ := Heap.chanPush_shows s space x
      refine last (onHeap run (.pure (refilled free poised s u fun y mem => ?_)))
      rcases List.mem_append.1 mem with mem | mem
      · exact mem_items poised s mem
      · exact List.mem_singleton.1 mem ▸ (Heap.isAddress_congr size).2 is
    · have sends := (poised.shaped.channel s).ties (senders, .waitQueue) List.mem_cons_self
      exact asksFiber (parkIn free poised running (Heap.sendQueue_shows s) sends ((Heap.isAddress_congr size).2 is))

theorem recv (poised : m.Poised c P v) (running : m.control.sched.current.state = .running) :
    Treads c P (fun _ m' => m'.Poised c P v) Exec.recv m := by
  unfold Exec.recv
  refine peek poised fun ch _ isCh => expectTag poised.toSturdy isCh fun has => ?_
  obtain ⟨cap, closed, senders, receivers, items, s, sends, receives⟩ := channel poised has
  refine step (onHeap_ok (Heap.chanClosed_shows s)) ?_
  split
  · exact fault poised.toSturdy
  refine drop poised fun poised => step (onHeap_ok (Heap.chanLen_shows s)) ?_
  split
  · next filled =>
    obtain ⟨x, rest, rfl⟩ := List.exists_cons_of_length_pos filled
    obtain ⟨-, -, -, -, -, ring⟩ := s.body
    have space : rest.length < cap := ring.room
    obtain ⟨h, run, u⟩ := Heap.chanPop_shows s
    have value := mem_items poised s List.mem_cons_self
    have popped := refilled free poised s u fun y mem => mem_items poised s (List.mem_cons_of_mem x mem)
    have sends : Has h.words senders .waitQueue := u.has s.tagAt sends
    refine onHeap run (step (Exec.push_eq _ x) ?_)
    refine dequeue free (popped.push ((Heap.isAddress_congr u.size).2 value)) (Heap.sendQueue_shows u.shows) sends
      fun w h' size values kept poised => ?_
    cases w with
    | none => exact .pure poised
    | some w =>
      have s := kept ch _ u.shows nofun
      obtain ⟨h'', run, u'⟩ := Heap.chanPush_shows s space w.value
      refine onHeap run (wake free (refilled free poised s u' fun y mem => ?_) (.inl rfl))
      rcases List.mem_append.1 mem with mem | mem
      · exact mem_items poised s mem
      · exact List.mem_singleton.1 mem ▸ (Heap.isAddress_congr size).2 (values w rfl)
  · refine dequeue free poised (Heap.sendQueue_shows s) sends fun w h size values kept poised => ?_
    cases w with
    | some w =>
      refine step (Exec.push_eq _ w.value) (wake free (poised.push ?_) (.inl rfl))
      exact (Heap.isAddress_congr size).2 (values w rfl)
    | none =>
      have s := kept ch _ s nofun
      have receives := (poised.shaped.channel s).ties (receivers, .waitQueue)
        (List.mem_cons_of_mem _ List.mem_cons_self)
      exact asksFiber (parkIn free poised running (Heap.recvQueue_shows s) receives (.inl rfl))

theorem closeChan (poised : m.Poised c P v) (is : IsAddress m.heap.words ch) :
    Treads c P (fun _ m' => m'.Poised c P v) (Exec.closeChan ch) m := by
  unfold Exec.closeChan
  refine expectTag poised.toSturdy is fun has => ?_
  obtain ⟨cap, closed, senders, receivers, items, s, -⟩ := channel poised has
  refine step (onHeap_ok (Heap.chanClosed_shows s)) ?_
  split
  · exact fault poised.toSturdy
  · obtain ⟨h, run, u⟩ := Heap.closeChan_shows s
    exact last (onHeap run (.pure (refilled free poised s u fun x mem => mem_items poised s mem)))

end Channels

section Groups

variable {g : Addr}

theorem regrouped {n n' : Int32} {ids ids' : List Word} {h : Heap} (poised : m.Poised c P v)
    (s : Shows m.heap.words g (.group n ids)) (u : Updates m.heap h g (.group n' ids')) :
    Machine.Poised c P v { m with heap := h } :=
  poised.update u s.tagAt (.of_plain rfl rfl nofun) nofun fun m' _ => free m'

omit free in
theorem group (poised : m.Poised c P v) (has : Has m.heap.words g .waitGroup) :
    ∃ n ids, Shows m.heap.words g (.group n ids) := by
  obtain ⟨n, s, -, tag⟩ := poised.shaped.has has nofun
  obtain ⟨counter, ids, rfl⟩ := s.group_of_tag tag
  exact ⟨counter, ids, s⟩

theorem wakeAll (ids : List Word) (poised : m.Poised c P v) : Treads c P (fun _ m' => m'.Poised c P v)
    (ids.forM fun id => Exec.wake id.toInt64.toInt noAddr) m := by
  induction ids generalizing m with
  | nil => exact .pure poised
  | cons id ids ih => exact bind (wake free poised (.inl rfl)) fun _ _ poised => ih poised

theorem groupAdd (poised : m.Poised c P v) (is : IsAddress m.heap.words g) (delta : Int64) :
    Treads c P (fun _ m' => m'.Poised c P v) (Exec.groupAdd g delta) m := by
  unfold Exec.groupAdd
  refine expectTag poised.toSturdy is fun has => ?_
  obtain ⟨counter, ids, s⟩ := group poised has
  refine step (onHeap_ok (Heap.groupCounter_shows s)) ?_
  generalize counter.toInt64 + delta = sum
  dsimp only
  split
  · exact fault poised.toSturdy
  split
  · exact fault poised.toSturdy
  obtain ⟨h, set, u⟩ := Heap.setGroupCounter_shows s sum.toInt32
  have poised := regrouped free poised s u
  refine onHeap set ?_
  split
  · obtain ⟨h', drained, u'⟩ := Heap.drainGroupWaiters_shows u.shows
    exact onHeap drained (wakeAll free ids (regrouped free poised u.shows u'))
  · exact .pure poised

theorem groupWait (poised : m.Poised c P v) (running : m.control.sched.current.state = .running)
    (is : IsAddress m.heap.words g) : Treads c P (fun _ m' => m'.Poised c P v) (Exec.groupWait g) m := by
  unfold Exec.groupWait
  refine expectTag poised.toSturdy is fun has => ?_
  obtain ⟨counter, ids, s⟩ := group poised has
  refine step (onHeap_ok (Heap.groupCounter_shows s)) ?_
  split
  · exact .pure poised
  refine asksFiber ?_
  by_cases full : ids.length = 15
  · exact refuse poised.toSturdy (Heap.addGroupWaiter_full s full _)
  · obtain ⟨h, run, u⟩ := Heap.addGroupWaiter_shows s full m.control.sched.current.id
    exact onHeap run (of_ok rfl (Machine.Poised.park (m := { m with heap := h }) free (regrouped free poised s u) running))

end Groups

theorem builtin {b : Builtin} {args : List Addr} (poised : m.Poised c P v)
    (running : m.control.sched.current.state = .running) (values : ∀ a ∈ args, IsAddress m.heap.words a) :
    Treads c P (fun _ m' => m'.Poised c P v) (Exec.builtin b args) m := by
  have argument : ∀ {m' : Machine} {i : Nat} {k : Addr → Exec Unit}, m'.Poised c P v →
      m'.heap = m.heap → (∀ a, IsAddress m'.heap.words a → Treads c P (fun _ m' => m'.Poised c P v) (k a) m') →
      Treads c P (fun _ m' => m'.Poised c P v) (Exec.argument args i >>= k) m' := by
    intro m' i k poised same rest
    refine read poised.toSturdy (Exec.still_argument args i) fun a run => rest a ?_
    rw [same]
    exact values a (Exec.mem_of_argument run)
  have intArg : ∀ {i : Nat} {who : String} {k : Int64 → Exec Unit},
      (∀ x, Treads c P (fun _ m' => m'.Poised c P v) (k x) m) → Treads c P (fun _ m' => m'.Poised c P v)
        (Exec.argument args i >>= fun a => Exec.intArg a who >>= k) m := fun rest =>
    argument poised rfl fun a _ => read poised.toSturdy (Exec.still_intArg a _) fun x _ => rest x
  have unassigned : ∀ {m' : Machine}, m'.Poised c P v → IsAddress m'.heap.words Heap.unassigned := fun poised =>
    reserved poised (by decide) (by decide)
  have integer : ∀ k : Int64, Treads c P (fun _ m' => m'.Poised c P v)
      (do Exec.push (← Exec.allocating fun roots => Heap.newInt roots k)) m := by
    intro k
    refine build poised (Heap.newInt_anyOrder poised.shaped poised.start k) ?_ fun a h is poised => push poised is
    exact (Heap.newInt_makes poised.shaped poised.start k).builds (show ¬ IsSync .int by decide)
  unfold Exec.builtin
  split
  -- `println`
  · refine argument poised rfl fun a _ => read poised.toSturdy (Exec.still_onHeap (Heap.still_format a)) fun text _ => ?_
    refine bind (R := fun _ m' => m'.Poised c P v) ?_ fun _ _ poised => push poised (unassigned poised)
    refine asks (fun _ _ => rfl) ?_
    split
    · refine .of_ok rfl ?_
      exact ⟨⟨poised.code, poised.shaped, poised.fit, poised.counters, poised.pins, poised.result⟩, poised.alive,
        poised.own, poised.others, poised.nextId, poised.watched, fun m' _ => free m'⟩
    · exact fault poised.toSturdy
  -- `panic`
  · refine argument poised rfl fun a _ => read poised.toSturdy (Exec.still_onHeap (Heap.still_format a)) fun text _ => ?_
    exact fault poised.toSturdy
  -- `sleep`
  · refine intArg fun ms => step (Exec.push_eq m _) (of_ok rfl ?_)
    exact Machine.Poised.sleep free (poised.push (unassigned poised)) running ms
  -- `make`, the only one that may collect more than once
  · refine intArg fun capacity => allocating poised (Heap.newChannel_anyOrder poised.shaped poised.start _)
      (Heap.newChannel_founds poised.shaped poised.start capacity.toInt) (fun _ _ _ m' _ => free m') fun a h _ founds poised => ?_
    obtain ⟨_, _, made, -⟩ := founds
    exact push poised (.inr made.channel.node)
  -- `close`
  · refine argument poised rfl fun a is => bind (closeChan free poised is) fun _ _ poised => ?_
    exact push poised (unassigned poised)
  -- `max` and `min`
  · exact intArg fun x => intArg fun y => integer _
  · exact intArg fun x => intArg fun y => integer _
  -- `wgAdd` and `wgDone`
  · refine argument poised rfl fun g is => intArg fun delta => bind (groupAdd free poised is delta) fun _ _ poised => ?_
    exact push poised (unassigned poised)
  · refine argument poised rfl fun g is => bind (groupAdd free poised is (-1)) fun _ _ poised => ?_
    exact push poised (unassigned poised)
  -- `wgWait` pushes its result before it waits.
  · refine step (Exec.push_eq m _) ?_
    have pushed := poised.push (unassigned poised)
    exact argument pushed rfl fun g is => groupWait free pushed running is
  · exact fault poised.toSturdy

end Meeting

end Treads

end FiberVm
