import FiberVm.Proofs.Machine.Travel

/-!
# What an instruction of a sturdy machine does

Stale operands do no harm to the fibers and to the nodes at which they meet, so an instruction that does not fail
does what its label says on any sturdy machine whose channels are in order. It arms a timer only to put its own
fiber to sleep, it releases those who leave the wait group that it names, and it writes to new nodes and to what it
names: a variable, a channel and one of its wait queues, or a wait group.
-/

set_option autoImplicit false

namespace FiberVm

open Heap (Shows Has IsAddress NodeIn Shaped Drift Wired Plays Spares Allots IsSync cell tagAt)

namespace Heap

/-- Of the nodes in use only those that are new have changed, and other words only where `scope` says so. -/
structure Confined (scope : Addr → Nat → Prop) (new : List Addr) (h h' : Heap) : Prop where
  size : h'.words.size = h.words.size
  same : ∀ a, NodeIn h.words a → a ∉ new → tagAt h'.words a ≠ .free →
    ∀ k < nodeSize, ¬ scope a k → cell h'.words a k = cell h.words a k
  allots : Allots new h h'

variable {h h' : Heap} {a : Addr} {written new : List Addr} {scope : Addr → Nat → Prop}

theorem Spares.confined (s : Spares written new h h') (inside : ∀ a ∈ written, ∀ k, scope a k) :
    Confined scope new h h' :=
  ⟨s.size, fun a node old used k lt out => s.same a node (fun mem => out (inside a mem k)) old used k lt, s.allots⟩

theorem Slight.confined (s : Slight h h') : ∃ new, Confined scope new h h' :=
  s.spares.imp fun _ spares => spares.confined nofun

theorem Shaped.has_of_tagOf {P : Int → Prop} (shaped : Shaped P h) (is : IsAddress h.words a) {t : Tag}
    (read : tagOf a h = .ok t h') : Has h.words a t := by
  rcases is with rfl | node
  · cases (Heap.tagOf_noAddr shaped.sized).symm.trans read
  · exact ⟨node, (EStateM.Result.ok.inj ((Heap.tagOf_ok node).symm.trans read)).1⟩

theorem Shaped.tells {P : Int → Prop} (shaped : Shaped P h) (is : IsAddress h.words a) : h.Tells a := by
  intro t read used
  obtain ⟨node, same⟩ := shaped.has_of_tagOf is read
  obtain ⟨n, s, -⟩ := shaped.nodes a node (same ▸ used)
  exact ⟨n, s⟩

theorem setChild_confined {slots : List Addr} (s : Shows h.words a (.frame slots)) {i : Nat} (lt : i < slots.length)
    (v : Addr) : ∃ h', setChild a i v h = .ok () h' ∧ Drift [] h h' ∧
      Confined (fun b k => b = a ∧ k = i + 1) [] h h' := by
  have room : slots.length ≤ 15 := s.body.1
  obtain ⟨h', run, e⟩ := (Edited.refl s.node).setChild (k := (i : Int)) rfl (by unfold nodeSize; omega) v
  obtain ⟨h'', run', u⟩ := setChild_slots (.inl rfl) s rfl lt v
  cases run.symm.trans run'
  refine ⟨h', run, e.toOnly.drift ?_ ?_, ⟨e.size, fun b node _ _ k lt out => ?_, e.toOnly.allots s.layout.tagAt_ne⟩⟩
  · rw [u.shows.tagAt]
    exact show ¬ IsSync .frame by decide
  · rw [s.tagAt]
    exact show ¬ Heap.IsLinked .frame by decide
  by_cases own : b = a
  · subst own
    rw [e.cells k lt, write_of_ne _ _ fun eq => out ⟨rfl, eq⟩]
  · exact e.others b node own k lt

end Heap

theorem Exec.has_of_tagOf {P : Int → Prop} {m m' : Machine} {a : Addr} {t : Tag} (shaped : Shaped P m.heap)
    (is : IsAddress m.heap.words a) (run : Exec.tagOf a m = .ok t m') : Has m.heap.words a t := by
  cases read : Heap.tagOf a m.heap with
  | error e h => cases (onHeap_error (m := m) read).symm.trans run
  | ok t' h =>
    obtain ⟨rfl, -⟩ := EStateM.Result.ok.inj ((onHeap_ok (m := m) read).symm.trans run)
    exact shaped.has_of_tagOf is read

theorem Does.arrives {D : Machine → Prop} {x : Exec Unit} {m : Machine} (does : Does D x m) :
    Arrives (fun _ => D) x m := by
  intro u m' run
  rw [Does, run] at does
  exact does

namespace Arrives

variable {β : Type} {D : β → Machine → Prop} {m : Machine}

theorem allocating {op : Heap.Roots → HeapM Addr} {k : Addr → Exec β} {S : Addr → Heap → Prop} {F : Heap → Prop}
    (yields : Yields S F (op m.rootThunk m.heap)) (rest : ∀ a h, S a h → Arrives D (k a) { m with heap := h }) :
    Arrives D (Exec.allocating op >>= k) m := by
  refine bind (R := fun a m' => ∃ h, m' = { m with heap := h } ∧ S a h) (fun a m' run => ?_) ?_
  · cases ran : op m.rootThunk m.heap with
    | ok b h =>
      rw [ran] at yields
      rw [allocating_ok ran] at run
      cases run
      exact ⟨h, rfl, yields⟩
    | error e h =>
      rw [allocating_error ran] at run
      cases run
  · rintro a _ ⟨h, rfl, made⟩
    exact rest a h made

end Arrives

/-- The builtins that write to their first argument. -/
def Builtin.acts : Builtin → Bool
  | .close | .wgAdd | .wgDone | .wgWait => true
  | _ => false

/-- Where a builtin writes to nodes that are not new. -/
def Builtin.scope (b : Builtin) (args : List Addr) (a : Addr) (_ : Nat) : Prop := b.acts = true ∧ args[0]? = some a

/-- The timer that a builtin arms for the current fiber, if it is one that sleeps. It is due when the time given has
passed since a new look at the clock. -/
def Builtin.nap (m : Machine) (args : List Addr) : Builtin → Option Timer
  | .sleep =>
    match args[0]? with
    | some a =>
      match Heap.intValue a m.heap with
      | .ok ms _ => some ⟨m.control.sched.look.clock.now + (millis ms).toInt, m.current.id⟩
      | .error _ _ => none
    | none => none
  | _ => none

/-- Those whom a builtin releases: they have waited at the wait group that it is called on, and do so no more. -/
def Builtin.releases (h h' : Heap) (args : List Addr) : Builtin → List Nat
  | .wgAdd | .wgDone | .wgWait =>
    match args[0]? with
    | some g => Heap.leaving h h' g
    | none => []
  | _ => []

/-- The timer that is armed for the current fiber. -/
def StepLabel.naps (id : Nat) : StepLabel → Option Timer
  | sleep deadline => some ⟨deadline, id⟩
  | _ => none

namespace Machine

/-- The arguments of a call, the first one first. -/
def arguments (m : Machine) : Instr → List Addr
  | .call arity | .tailCall arity => (m.current.operands.take arity.toNat).reverse
  | _ => []

/-- The timer that an instruction arms for the current fiber, if it is a call that sleeps. -/
def nap (m : Machine) (i : Instr) : Option Timer :=
  match m.callee i with
  | some b => b.nap m (m.arguments i)
  | none => none

/-- Those whom an instruction releases from a wait group, in the order in which they came. -/
def releases (m : Machine) (i : Instr) (h' : Heap) : List Nat :=
  match m.callee i with
  | some b => b.releases m.heap h' (m.arguments i)
  | none => []

/-- Where an instruction may write to nodes that are not new: to the slot of a variable, to a channel and one of its
wait queues, or to what a builtin acts on. -/
inductive Scope (m : Machine) : Instr → (Addr → Nat → Prop) → Prop
  | nothing {i : Instr} : m.Scope i fun _ _ => False
  | assigns {pos : Pos} {sym : String} {f : Addr} :
    Heap.slotFrame m.current.env pos.frame pos.slot m.heap = .ok f m.heap →
    m.Scope (.assign pos sym) fun a k => a = f ∧ k = pos.slot.toNat + 1
  | sends {v ch q : Addr} {rest : List Addr} {c : Chan} : m.current.operands = v :: ch :: rest →
    Plays m.heap.words ch c → q = c.senders ∨ q = c.receivers → m.Scope .send fun a _ => a = ch ∨ a = q
  | receives {ch q : Addr} {rest : List Addr} {c : Chan} : m.current.operands = ch :: rest →
    Plays m.heap.words ch c → q = c.senders ∨ q = c.receivers → m.Scope .recv fun a _ => a = ch ∨ a = q
  | calls {i : Instr} {b : Builtin} : m.callee i = some b → m.Scope i (b.scope (m.arguments i))

/-- What an instruction has done: what its label says, and nothing outside its scope. -/
structure Conducts (m : Machine) (i : Instr) (m' : Machine) : Prop where
  label : ∃ l : StepLabel, m.Deed l m' ∧ l.Of m i m' ∧ l.naps m.current.id = m.nap i ∧ l.releases = m.releases i m'.heap
  confined : ∃ scope new, m.Scope i scope ∧ Heap.Confined scope new m.heap m'.heap

end Machine

/-- A builtin that makes no channel has done what is up to it. -/
def Builtin.Serves (b : Builtin) (args : List Addr) (m m' : Machine) : Prop :=
  (∃ l : StepLabel, m.Deed l m' ∧ l.IsPlain ∧ l.naps m.current.id = b.nap m args ∧
      l.releases = b.releases m.heap m'.heap args) ∧
    ∃ new, Heap.Confined (b.scope args) new m.heap m'.heap

namespace Builtin

variable {b : Builtin} {args : List Addr} {m m' m'' : Machine} {ch g : Addr}

/-- Pushing the result comes last. -/
theorem Serves.push (serves : b.Serves args m m') (a : Addr) :
    b.Serves args m (m'.withSched (m'.control.sched.push a)) := by
  obtain ⟨⟨l, deed, plain, does⟩, confined⟩ := serves
  exact ⟨⟨l, ⟨deed.heap, deed.sched.undisturbed (.push _ a)⟩, plain, does⟩, confined⟩

/-- Unless it sleeps a builtin has no business with timers, and unless it acts on a wait group it releases nobody. -/
theorem Serves.of_slight (slight : m.Slight m') (awake : b.nap m args = none)
    (alone : b.releases m.heap m'.heap args = []) : b.Serves args m m' :=
  ⟨⟨.quiet, ⟨slight.heap.drift, slight.sched⟩, trivial, awake.symm, alone.symm⟩, slight.heap.confined⟩

theorem Serves.of_closed (closed : m.Closed ch m') (first : args[0]? = some ch) : close.Serves args m m' := by
  refine ⟨⟨_, closed.1, trivial, rfl, rfl⟩, [], closed.2.confined fun a mem _ => ⟨rfl, ?_⟩⟩
  rw [List.mem_singleton.1 mem]
  exact first

theorem Serves.of_grouped (grouped : m.Grouped g m') (is : b = .wgAdd ∨ b = .wgDone ∨ b = .wgWait)
    (first : args[0]? = some g) : b.Serves args m m' := by
  obtain ⟨l, deed, on, released, spares⟩ := grouped
  have label : l.IsPlain ∧ l.naps m.current.id = none := by
    cases l with
    | quiet | count | drain | wait => exact ⟨trivial, rfl⟩
    | _ => exact on.elim
  have acts : b.acts = Bool.true ∧ b.nap m args = none := by
    rcases is with rfl | rfl | rfl <;> exact ⟨rfl, rfl⟩
  have leave : b.releases m.heap m'.heap args = Heap.leaving m.heap m'.heap g := by
    unfold Builtin.releases
    rw [first]
    rcases is with rfl | rfl | rfl <;> rfl
  refine ⟨⟨l, deed, label.1, label.2.trans acts.2.symm, released.trans leave.symm⟩, [],
    spares.confined fun a mem _ => ⟨acts.1, ?_⟩⟩
  rw [List.mem_singleton.1 mem]
  exact first

end Builtin

namespace Arrives

section Builtins

variable {c : Code} {P : Int → Prop} {v : Scene} {m : Machine} {b : Builtin} {args : List Addr}

theorem intValue_of_intArg {a : Addr} {who : String} {k : Int64} (run : Exec.intArg a who m = .ok k m) :
    Heap.intValue a m.heap = .ok k m.heap := by
  unfold Exec.intArg at run
  cases read : Exec.tagOf a m with
  | error e m₁ =>
    rw [bind_of_error read] at run
    cases run
  | ok t m₁ =>
    have same := Exec.still_tagOf a m
    rw [read] at same
    obtain rfl : m₁ = m := same
    rw [bind_of_ok read] at run
    split at run
    · cases value : Heap.intValue a m₁.heap with
      | error e h =>
        rw [onHeap_error value] at run
        cases run
      | ok n h =>
        have same := Heap.still_intValue a m₁.heap
        rw [value] at same
        obtain rfl : h = m₁.heap := same
        cases (onHeap_ok value).symm.trans run
        rfl
    · cases run

theorem builtin (poised : m.Poised c P v) (wired : Wired m.heap.words) (values : ∀ a ∈ args, IsAddress m.heap.words a)
    (other : b ≠ .make) : Arrives (fun _ => b.Serves args m) (Exec.builtin b args) m := by
  have tells : ∀ {i : Nat} {a : Addr}, args[i]? = some a → m.heap.Tells a := fun get =>
    poised.shaped.tells (values _ (List.mem_of_getElem? get))
  have argument : ∀ {i : Nat} {k : Addr → Exec Unit},
      (∀ a, args[i]? = some a → Arrives (fun _ => b.Serves args m) (k a) m) →
      Arrives (fun _ => b.Serves args m) (Exec.argument args i >>= k) m := fun rest =>
    read (Exec.still_argument args _) fun a run => rest a (Exec.getElem?_of_argument run)
  have push : ∀ {x : Exec Unit}, Arrives (fun _ => b.Serves args m) x m →
      Arrives (fun _ => b.Serves args m) (x >>= fun _ => Exec.push Heap.unassigned) m := fun arrives =>
    bind arrives fun _ _ serves => of_ok (Exec.push_eq _ _) (serves.push _)
  have integer : ∀ k : Int64, b.nap m args = none → (∀ h', b.releases m.heap h' args = []) →
      Arrives (fun _ => b.Serves args m) (do Exec.push (← Exec.allocating fun roots => Heap.newInt roots k)) m := by
    intro k awake alone
    have builds := (Heap.newInt_makes poised.shaped poised.start k).builds (show ¬ IsSync .int by decide)
    refine allocating builds fun a h built => of_ok (Exec.push_eq _ _) (.push (.of_slight ?_ awake (alone h)) a)
    exact .of_heap built.2.2
  unfold Exec.builtin
  split
  -- `println`
  · refine argument fun a _ => read (Exec.still_onHeap (Heap.still_format a)) fun text _ => push ?_
    refine read (Exec.still_asks _) fun sink _ => ?_
    split
    · exact of_ok rfl (.of_slight ⟨.refl _, .refl _⟩ rfl rfl)
    · exact fault
  -- `panic`
  · exact argument fun a _ => read (Exec.still_onHeap (Heap.still_format a)) fun text _ => fault
  -- `sleep`, the only one that arms a timer
  · refine argument fun a get => read (Exec.still_intArg a _) fun ms run => ?_
    refine step (Exec.push_eq m _) (of_ok rfl ⟨⟨.sleep (m.control.sched.look.clock.now + (millis ms).toInt),
      ⟨.refl _, ?_⟩, trivial, ?_, rfl⟩, (Heap.Slight.refl _).confined⟩)
    · exact Scheduler.Undisturbed.doze ((Scheduler.Undisturbed.push _ _).trans (.clock _ _)) _
    · simp only [Builtin.nap, get, intValue_of_intArg run]
      rfl
  · exact absurd rfl other
  -- `close`
  · refine argument fun ch get => push ((Does.closeChan wired (tells get)).arrives.imp fun _ m' closed => ?_)
    exact .of_closed closed get
  -- `max` and `min`
  · exact argument fun x _ => read (Exec.still_intArg x _) fun _ _ => argument fun y _ =>
      read (Exec.still_intArg y _) fun _ _ => integer _ rfl fun _ => rfl
  · exact argument fun x _ => read (Exec.still_intArg x _) fun _ _ => argument fun y _ =>
      read (Exec.still_intArg y _) fun _ _ => integer _ rfl fun _ => rfl
  -- `wgAdd`
  · refine argument fun g get => argument fun d _ => read (Exec.still_intArg d _) fun delta _ => push ?_
    exact (Does.groupAdd (tells get) delta).arrives.imp fun _ m' grouped => .of_grouped grouped (.inl rfl) get
  -- `wgDone`
  · refine argument fun g get => push ?_
    exact (Does.groupAdd (tells get) (-1)).arrives.imp fun _ m' grouped => .of_grouped grouped (.inr (.inl rfl)) get
  -- `wgWait` pushes its result before it waits.
  · have undisturbed := Scheduler.Undisturbed.push m.control.sched Heap.unassigned
    refine step (Exec.push_eq m _) (read (Exec.still_argument args 0) fun g run => ?_)
    have get := Exec.getElem?_of_argument run
    refine (Does.groupWait (m := m.withSched (m.control.sched.push Heap.unassigned)) (tells get)).arrives.imp
      fun _ m' grouped => ?_
    obtain ⟨l, deed, on⟩ := grouped
    exact .of_grouped ⟨l, ⟨deed.heap, deed.sched.of_undisturbed undisturbed⟩, on⟩ (.inr (.inr rfl)) get
  · exact fault

end Builtins

section Instructions

variable {c : Code} {P : Int → Prop} {v : Scene} {m : Machine} {i : Instr} {arity : Int} {tail : Bool}

theorem callee {b : Builtin} (plain : i.IsPlain) (poised : m.Poised c P v) (wired : Wired m.heap.words)
    (callee : m.callee i = some b) (values : ∀ a ∈ m.arguments i, IsAddress m.heap.words a) (k : Nat) :
    Arrives (fun _ => m.Conducts i) (Exec.builtin b (m.arguments i))
      (m.withFiber (m.control.sched.current.drop k)) := by
  have undisturbed := m.undisturbed_withFiber (f := m.control.sched.current.drop k) rfl rfl
  have dropped := poised.drop k
  have nap : m.nap i = b.nap m (m.arguments i) := by rw [Machine.nap, callee]
  have releases : ∀ h', m.releases i h' = b.releases m.heap h' (m.arguments i) := fun h' => by
    rw [Machine.releases, callee]
  by_cases other : b = .make
  · subst other
    refine read (Exec.still_argument _ 1) fun a _ => read (Exec.still_intArg a _) fun capacity _ => ?_
    refine allocating (Heap.newChannel_founds dropped.shaped dropped.start capacity.toInt) fun ch h founds => ?_
    obtain ⟨-, s, r, made, spares⟩ := founds
    refine of_ok (Exec.push_eq _ ch) ⟨⟨.make _ ch s r, ⟨made, ?_⟩, ⟨callee, rfl⟩, nap.symm, (releases h).symm⟩,
      _, _, .nothing, spares.confined (List.forall_mem_nil _)⟩
    exact undisturbed.trans (.push _ ch)
  · refine (builtin dropped wired values other).imp fun _ m' serves => ?_
    obtain ⟨⟨l, deed, label, naps, released⟩, new, confined⟩ := serves
    refine ⟨⟨l, ⟨deed.heap, deed.sched.of_undisturbed undisturbed⟩, label.of plain ?_, naps.trans nap.symm,
      released.trans (releases m'.heap).symm⟩, _, new, .calls callee, confined⟩
    rw [callee]
    exact fun make => other (Option.some.inj make)

theorem call (is : i = .call arity ∨ i = .tailCall arity) (poised : m.Poised c P v) (wired : Wired m.heap.words)
    (none : ¬ m.CallsClosure arity) : Arrives (fun _ => m.Conducts i) (Exec.call arity tail) m := by
  have plain : i.IsPlain := by rcases is with rfl | rfl <;> simp [Instr.IsPlain]
  unfold Exec.call
  split
  · exact fault
  refine read (Exec.still_peek _) fun fn get => read (Exec.still_asks _) fun operands run => ?_
  obtain rfl : m.control.sched.current.operands = operands := by cases run; rfl
  have found := Exec.getElem?_of_peek get
  have address := poised.operand (List.mem_of_getElem? found)
  refine read (Exec.still_tagOf fn) fun tag run => ?_
  have has := Exec.has_of_tagOf poised.shaped address run
  have values : ∀ a ∈ (m.control.sched.current.operands.take arity.toNat).reverse, IsAddress m.heap.words a :=
    fun a mem => poised.operand (List.mem_of_mem_take (List.mem_reverse.1 mem))
  split
  · next builtin =>
    subst builtin
    cases row : Heap.builtinAt fn m.heap with
    | error e h =>
      intro u m' run
      cases (bind_of_error (onHeap_error row)).symm.trans run
    | ok found' h =>
      obtain ⟨b, want⟩ := found'
      have same := Heap.still_builtinAt fn m.heap
      rw [row] at same
      obtain rfl : h = m.heap := same
      have callee : m.callee i = some b := by
        rcases is with rfl | rfl <;> simp only [Machine.callee, Machine.current, found, has.2, row, if_true]
      have arguments : m.arguments i = (m.control.sched.current.operands.take arity.toNat).reverse := by
        rcases is with rfl | rfl <;> rfl
      refine step (onHeap_ok row) ?_
      dsimp only
      split
      · exact fault
      rw [← arguments] at values ⊢
      exact drop (Arrives.callee plain poised wired callee values (arity.toNat + 1))
  split
  · next closure =>
    subst closure
    exact absurd ⟨fn, found, has⟩ none
  · exact fault

theorem assign {pos : Pos} {sym : String} (poised : m.Poised c P v) :
    Arrives (fun _ => m.Conducts (.assign pos sym)) (Exec.instr (.assign pos sym)) m := by
  refine read (Exec.still_peek 0) fun a _ => read (Exec.still_asks _) fun env run => ?_
  obtain rfl : m.control.sched.current.env = env := by cases run; rfl
  rcases poised.shaped.slotFrame poised.typed.env pos.frame pos.slot with ⟨e, run⟩ | ⟨f, slots, run, s, index, lt⟩
  · intro u m' ran
    have refused : Heap.store m.control.sched.current.env pos.frame pos.slot a m.heap = _ := bind_of_error run
    cases (onHeap_error refused).symm.trans ran
  · obtain ⟨h, set, drift, confined⟩ := Heap.setChild_confined s lt a
    rw [← index] at set
    refine of_ok (onHeap_ok ((bind_of_ok run).trans set)) ⟨⟨.quiet, ⟨drift, .refl _⟩, ?_, rfl, rfl⟩, _, [],
      .assigns run, confined⟩
    exact ⟨⟨nofun, nofun, nofun, by simp⟩, nofun⟩

theorem makeWaitGroup (poised : m.Poised c P v) :
    Arrives (fun _ => m.Conducts .makeWaitGroup) (Exec.instr .makeWaitGroup) m := by
  refine allocating (Heap.newWaitGroup_makes poised.shaped poised.start) fun g h made => of_ok (Exec.push_eq _ g) ?_
  obtain ⟨-, s, mints⟩ := made
  refine ⟨⟨.newGroup g, ⟨⟨mints.drift, s, mints.high⟩, .push _ g⟩, ?_, rfl, rfl⟩, _, _, .nothing, mints.spares.confined nofun⟩
  exact ⟨⟨nofun, nofun, nofun, by simp⟩, nofun⟩

end Instructions

end Arrives

/-- An act writes to one wait queue at most. -/
theorem Act.one_queue (a : Act) (c : Chan) : ∃ q, (q = c.senders ∨ q = c.receivers) ∧ ∀ x ∈ a.queue c, x = q := by
  cases a with
  | store | take | close => exact ⟨c.senders, .inl rfl, List.forall_mem_nil _⟩
  | parkSender | refill | pass => exact ⟨c.senders, .inl rfl, List.forall_mem_singleton.2 rfl⟩
  | hand | parkReceiver => exact ⟨c.receivers, .inr rfl, List.forall_mem_singleton.2 rfl⟩

namespace Machine

variable {c : Code} {P : Int → Prop} {m m' : Machine} {i : Instr}

theorem nap_of_callee (none : m.callee i = .none) : m.nap i = .none := by
  rw [Machine.nap, none]

theorem releases_of_callee (none : m.callee i = .none) (h' : Heap) : m.releases i h' = [] := by
  rw [Machine.releases, none]

/-- Code that meets nobody and writes to new nodes only has a quiet label. -/
theorem Slight.conducts (slight : m.Slight m') (plain : i.IsPlain) (none : m.callee i = none) : m.Conducts i m' := by
  obtain ⟨new, confined⟩ : ∃ new, Heap.Confined (fun _ _ => False) new m.heap m'.heap := slight.heap.confined
  refine ⟨⟨.quiet, ⟨slight.heap.drift, slight.sched⟩, ⟨plain, ?_⟩, (nap_of_callee none).symm,
    (releases_of_callee none _).symm⟩, _, new, .nothing, confined⟩
  rw [none]
  nofun

theorem Light.plain (light : m.Light i) : i.IsPlain := by
  cases i with
  | send | recv | startFiber | stopFiber => exact light.elim
  | _ => exact ⟨nofun, nofun, nofun, by simp⟩

theorem Light.callee (light : m.Light i) : m.callee i = none := by
  have closure : ∀ {arity : Int}, m.CallsClosure arity → m.callee (.call arity) = none ∧ m.callee (.tailCall arity) = none := by
    rintro arity ⟨fn, get, has⟩
    have get : m.current.operands[arity.toNat]? = some fn := get
    have other : Tag.closure ≠ .builtin := nofun
    constructor <;> simp only [Machine.callee, get, has.2, if_neg other]
  cases i with
  | call => exact (closure light).1
  | tailCall => exact (closure light).2
  | _ => rfl

/-- What an instruction does on a sturdy machine, unless it fails. -/
theorem Sturdy.conducts (sturdy : m.Sturdy c P) (running : m.current.state = .running) (wired : Wired m.heap.words)
    (passes : m.Passes c P i m') (run : Exec.instr i m = .ok () m') : m.Conducts i m' := by
  have poised := sturdy.poised (by rw [running]; decide) i
  have tells : ∀ a ∈ m.control.sched.current.operands, m.heap.Tells a := fun a mem =>
    sturdy.shaped.tells (poised.operand mem)
  by_cases light : m.Light i
  · exact (passes.slight light).conducts light.plain light.callee
  cases i with
  | assign pos sym => exact Arrives.assign poised () m' run
  | send =>
    obtain ⟨ch, a, deed, fits, c, p, spares⟩ := (Does.send wired tells).arrives () m' run
    obtain ⟨q, own, all⟩ := a.one_queue c
    obtain ⟨v, rest, operands⟩ : ∃ v rest, m.current.operands = v :: ch :: rest := by
      obtain ⟨-, v, rest, -, operands⟩ | ⟨no, -⟩ | ⟨no, -⟩ | ⟨-, plain, -⟩ := id fits
      · exact ⟨v, rest, operands⟩
      · cases no
      · cases no
      · exact absurd rfl plain.1
    exact ⟨⟨_, deed, fits, rfl, rfl⟩, _, [], .sends operands p own,
      spares.confined fun x mem _ => (List.mem_cons.1 mem).imp_right (all x)⟩
  | recv =>
    obtain ⟨ch, a, deed, fits, c, p, spares⟩ := (Does.recv wired tells).arrives () m' run
    obtain ⟨q, own, all⟩ := a.one_queue c
    obtain ⟨rest, operands⟩ : ∃ rest, m.current.operands = ch :: rest := by
      obtain ⟨no, -⟩ | ⟨-, v, rest, -, operands, -⟩ | ⟨-, -, rest, operands, -⟩ | ⟨-, plain, -⟩ := id fits
      · cases no
      · exact ⟨rest, operands⟩
      · exact ⟨rest, operands⟩
      · exact absurd rfl plain.2.1
    exact ⟨⟨_, deed, fits, rfl, rfl⟩, _, [], .receives operands p own,
      spares.confined fun x mem _ => (List.mem_cons.1 mem).imp_right (all x)⟩
  | startFiber stop =>
    obtain ⟨pc, env, deed, heap⟩ := (Does.startFiber stop).arrives () m' run
    refine ⟨⟨_, deed, ⟨stop, rfl⟩, rfl, rfl⟩, fun _ _ => False, [], .nothing, ?_⟩
    rw [heap]
    exact (Spares.refl _).confined nofun
  | stopFiber =>
    cases run
    exact ⟨⟨.stop, ⟨.refl _, .refl _⟩, rfl, rfl, rfl⟩, _, [], .nothing, (Spares.refl _).confined nofun⟩
  | makeWaitGroup => exact Arrives.makeWaitGroup poised () m' run
  | call arity => exact Arrives.call (.inl rfl) poised wired light () m' run
  | tailCall arity => exact Arrives.call (.inr rfl) poised wired light () m' run
  | _ => exact absurd trivial light

end Machine

end FiberVm
