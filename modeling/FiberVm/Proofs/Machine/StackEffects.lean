import FiberVm.Proofs.Machine.CallReturn
import FiberVm.Proofs.Machine.Entering
import FiberVm.Proofs.Machine.Keeps
import FiberVm.Proofs.Machine.Ledger
import FiberVm.Proofs.Machine.Ordered

/-!
# What instructions do to operand stacks

The table of opcodes says by how much an instruction changes the number of operands of the fiber that executes it.
What an instruction does to that number can be read off the code: a few operations push or drop, all others leave it
as it is. A call takes the function and its arguments, and a builtin gives a result for them, before it blocks. A
receive that has to wait has taken the channel; the value comes when it is sent, and nothing else happens to the stack
of a fiber that is not current.
-/

set_option autoImplicit false

namespace FiberVm

open Heap (Shows Wired Plays Acts Has tagAt)

theorem Fiber.operands_of_resting {f g : Fiber} (same : g.resting = f.resting) : g.operands = f.operands :=
  show g.resting.operands = f.resting.operands from congrArg Fiber.operands same

/-- The fiber goes on with `d` more operands. -/
def Fiber.Gains (f : Fiber) (d : Int) (g : Fiber) : Prop :=
  g.id = f.id ∧ (g.operands.length : Int) = f.operands.length + d

namespace Fiber.Gains

variable {f g g' : Fiber} {d e : Int}

theorem trans (first : f.Gains d g) (second : g.Gains e g') : f.Gains (d + e) g' := by
  obtain ⟨id, height⟩ := first
  obtain ⟨id', height'⟩ := second
  exact ⟨id'.trans id, by omega⟩

theorem of_resting (gains : f.Gains d g) (same : g'.resting = g.resting) : f.Gains d g' := by
  have id : g'.resting.id = g.resting.id := congrArg Fiber.id same
  refine ⟨id.trans gains.1, ?_⟩
  rw [operands_of_resting same]
  exact gains.2

end Fiber.Gains

/-- The current fiber is `id` and has `n` operands. -/
def Control.Stands (id n : Nat) (c : Control) : Prop := c.sched.current.id = id ∧ c.sched.current.operands.length = n

/-- A value for the current fiber takes the place of an operand, if it comes to lie on the stack at all. -/
theorem Scheduler.height_deliver (s : Scheduler) (id : Nat) (v : Addr) :
    (s.deliver id v).current.operands.length = s.current.operands.length := by
  unfold deliver deliverSaved Fiber.overwrite
  repeat' split
  all_goals simp

instance (id n : Nat) : Control.Coarse (Control.Stands id n) where
  level _ _ same _ _ _ height stands := ⟨same.trans stands.1, height.trans stands.2⟩
  wake c k stands :=
    ⟨(c.sched.current_id_wake k).trans stands.1, (congrArg List.length (c.sched.wake_operands k)).trans stands.2⟩
  deliver c k v stands :=
    ⟨(congrArg Context.id (c.sched.context_deliver k v).1).trans stands.1, (c.sched.height_deliver k v).trans stands.2⟩
  park _ stands := stands
  sleep _ _ stands := stands
  print _ _ stands := stands

instance (id n : Nat) : Control.Placeless (Control.Stands id n) where
  jump _ _ stands := stands
  spawn _ _ _ stands := stands
  finish _ _ stands := stands

/-- When the code comes to its end, the current fiber has `d` more operands. -/
def Exec.Lifts {α : Type} (d : Int) (x : Exec α) (m : Machine) : Prop :=
  Arrives (fun _ m' => m.current.Gains d m'.current) x m

namespace Exec.Lifts

section Rules

variable {α β : Type} {d e : Int} {m : Machine} {x : Exec α} {k : α → Exec β}

theorem level [keeps : ∀ id n, Keeps (Control.Stands id n) x] : Lifts 0 x m := by
  intro a m' run
  have ends := (keeps m.current.id m.current.operands.length).keeps m ⟨rfl, rfl⟩
  rw [run] at ends
  obtain ⟨id, height⟩ : m'.current.id = m.current.id ∧ m'.current.operands.length = m.current.operands.length := ends
  exact ⟨id, by omega⟩

theorem bind (first : Lifts d x m) (rest : ∀ a m', Lifts e (k a) m') : Lifts (d + e) (x >>= k) m :=
  Arrives.bind first fun a m' gains b m'' run => gains.trans (rest a m' b m'' run)

theorem after [∀ id n, Keeps (Control.Stands id n) x] (rest : ∀ a m', Lifts d (k a) m') : Lifts d (x >>= k) m := by
  have lifts := bind (level (x := x) (m := m)) rest
  rwa [Int.zero_add] at lifts

theorem before (first : Lifts d x m) (rest : ∀ a id n, Keeps (Control.Stands id n) (k a)) : Lifts d (x >>= k) m := by
  have still : ∀ a m', Lifts 0 (k a) m' := fun a _ =>
    have := rest a
    level
  have lifts := bind first still
  rwa [Int.add_zero] at lifts

theorem fault {c : Cause} : Lifts d (FiberVm.fault c : Exec α) m := Arrives.fault

theorem push {a : Addr} : Lifts 1 (Exec.push a) m :=
  Arrives.of_ok (Exec.push_eq m a) ⟨rfl, by simp [Machine.current, Machine.withSched, Scheduler.push, Fiber.push]⟩

theorem drop {n : Nat} : Lifts (-n) (Exec.drop n) m := by
  by_cases enough : n ≤ m.control.sched.current.operands.length
  · refine Arrives.of_ok (Exec.drop_ok enough) ⟨rfl, ?_⟩
    have height : (m.control.sched.current.drop n).operands.length = m.control.sched.current.operands.length - n :=
      List.length_drop
    change ((m.control.sched.current.drop n).operands.length : Int) = m.control.sched.current.operands.length + -n
    omega
  · intro u m' run
    cases (Exec.drop_short (Nat.lt_of_not_le enough)).symm.trans run

theorem pop : Lifts (-1) Exec.pop m :=
  after fun _ _ => before drop fun _ _ _ => inferInstance

theorem withPins {as : List Addr} {body : Exec Unit} (lifts : ∀ m, Lifts d body m) :
    Lifts d (Exec.withPins as body) m := by
  intro u m' run
  rw [withPins_eq] at run
  cases ran : body (m.addPins as) with
  | error e m₁ =>
    rw [ran] at run
    cases run
  | ok u m₁ =>
    rw [ran] at run
    cases run
    exact lifts (m.addPins as) () m₁ ran

end Rules

variable {m : Machine}

theorem send : Lifts (-2) Exec.send m := by
  refine after fun v _ => after fun ch _ => after fun _ _ => after fun tag _ => ?_
  split
  · exact fault
  refine after fun closed _ => ?_
  split
  · exact fault
  -- Both operands are gone before it is known whether the value is taken, kept or has to wait.
  refine before drop fun _ id n => .seq (.onHeap _) fun w => ?_
  split <;> infer_instance

/-- A builtin gives one result, also one that blocks. -/
theorem builtin (b : Builtin) (args : List Addr) : Lifts 1 (Exec.builtin b args) m := by
  have sleep : ∀ ms id n, Keeps (Control.Stands id n) (Exec.modifySched fun s => s.sleep ms) := fun ms _ _ => .sleep ms
  unfold Exec.builtin
  split
  · exact after fun _ _ => after fun _ _ => after fun _ _ => push
  · exact after fun _ _ => after fun _ _ => fault
  · exact after fun _ _ => after fun ms _ => before push fun _ => sleep ms
  · exact after fun _ _ => after fun _ _ => after fun _ _ => push
  · exact after fun _ _ => after fun _ _ => push
  · exact after fun _ _ => after fun _ _ => after fun _ _ => after fun _ _ => after fun _ _ => push
  · exact after fun _ _ => after fun _ _ => after fun _ _ => after fun _ _ => after fun _ _ => push
  · exact after fun _ _ => after fun _ _ => after fun _ _ => after fun _ _ => push
  · exact after fun _ _ => after fun _ _ => push
  · exact before push fun _ _ _ => inferInstance
  · exact fault

theorem enterClosure (fn : Addr) (args : List Addr) (tail : Bool) :
    Lifts (-(args.length + 1 : Nat)) (Exec.enterClosure fn args tail) m := by
  have enter : ∀ frame m, Lifts (-(args.length + 1 : Nat)) (do
      let captured ← Exec.onHeap (Heap.closureEnv fn)
      let env ← Exec.allocating fun roots => Heap.extend roots captured frame
      Exec.drop (args.length + 1)
      Exec.setEnv env
      Exec.jump (← Exec.onHeap (Heap.closurePc fn))) m := fun frame m =>
    after fun _ _ => after fun _ _ => before drop fun _ _ _ => inferInstance
  unfold Exec.enterClosure
  dsimp only
  refine after fun frame _ => after fun _ _ => withPins fun m => ?_
  split
  · exact after fun _ m => enter frame m
  · exact after fun _ _ => after fun _ _ => after fun _ _ => after fun _ m => enter frame m

/-- The table has the effect of whatever neither calls nor receives nor ends the fiber. -/
theorem instr {i : Instr} (plain : i.opcode ∉ [Opcode.call, Opcode.tailCall, Opcode.stopFiber]) (other : i ≠ .recv) :
    Lifts i.opcode.stackEffect (Exec.instr i) m := by
  unfold Exec.instr
  cases i with
  | loadConst v => exact after (d := 1) fun _ _ => push
  | load pos sym =>
    refine after (d := 1) fun env _ => after fun a _ => ?_
    split
    · exact fault
    · exact push
  | loadFunc arity entry => exact after (d := 1) fun _ _ => after fun _ _ => push
  | assign pos sym => exact level
  | binary op => exact after (d := -2 + 1) fun _ _ => after fun _ _ => after fun _ _ => bind drop fun _ _ => push
  | unary op => exact after (d := -1 + 1) fun _ _ => after fun _ _ => bind drop fun _ _ => push
  | jumpOnFalse target => exact before (d := -1) pop fun c _ _ => inferInstance
  | done =>
    have finish : ∀ result id n, Keeps (Control.Stands id n) (Exec.modifyControl fun c => { c with result }) :=
      fun result _ _ => .finish result
    exact level
  | pop => exact before (d := -1) pop fun _ _ _ => inferInstance
  | makeWaitGroup => exact after (d := 1) fun _ _ => push
  | send => exact send
  | goto | reset | nop | enterScope | exitScope | startFiber => exact level
  | recv => exact absurd rfl other
  | foreign => exact fault
  | call | tailCall | stopFiber => simp [Instr.opcode] at plain

/-- A builtin leaves a result in the place of the function and its arguments, a closure nothing as yet. -/
theorem call {arity : Int} {tail : Bool} (shows : ∀ a ∈ m.current.operands, ∃ n, Shows m.heap.words a n) :
    Arrives (fun _ m' => ∃ (n : Nat) (fn : Addr), arity = n ∧ m.current.operands[n]? = some fn ∧
      (Has m.heap.words fn .builtin ∧ m.current.Gains (-n) m'.current ∨
        Has m.heap.words fn .closure ∧ m.current.Gains (-(n + 1)) m'.current)) (Exec.call arity tail) m := by
  unfold Exec.call
  split
  · exact .fault
  rename_i positive
  refine .read (Exec.still_peek _) fun fn get => .read (Exec.still_asks _) fun operands run => ?_
  obtain rfl : m.current.operands = operands := (EStateM.Result.ok.inj run).1
  have found := Exec.getElem?_of_peek get
  have natural : arity = arity.toNat := by omega
  have height : (m.current.operands.take arity.toNat).reverse.length = arity.toNat := by
    have enough := (List.getElem?_eq_some_iff.1 found).1
    rw [List.length_reverse, List.length_take]
    exact Nat.min_eq_left (Nat.le_of_lt enough)
  obtain ⟨n, s⟩ := shows fn (List.mem_of_getElem? found)
  refine .read (Exec.still_tagOf fn) fun tag run => ?_
  obtain rfl : n.tag = tag := (EStateM.Result.ok.inj ((onHeap_ok (Heap.tagOf_shows s)).symm.trans run)).1
  split
  · next isBuiltin =>
    refine .read (Exec.still_onHeap (Heap.still_builtinAt fn)) fun row _ => ?_
    dsimp only
    split
    · exact .fault
    refine (bind drop fun _ _ => builtin row.1 _).imp fun _ m' gains => ?_
    refine ⟨_, fn, natural, found, .inl ⟨⟨s.node, s.tagAt.trans isBuiltin⟩, gains.1, gains.2.trans ?_⟩⟩
    omega
  split
  · next isClosure =>
    refine .read (Exec.still_onHeap ((Heap.still_field fn 3).bind fun _ => .pure _)) fun want _ => ?_
    split
    · exact .fault
    refine (enterClosure fn _ tail).imp fun _ m' gains => ?_
    rw [height] at gains
    exact ⟨_, fn, natural, found, .inr ⟨⟨s.node, s.tagAt.trans isClosure⟩, gains⟩⟩
  · exact .fault

end Exec.Lifts

theorem Scheduler.current_wake {s : Scheduler} (running : s.current.state = .running) (id : Nat) :
    (s.wake id).current = s.current := by
  rcases s.wake_cases id with same | ⟨-, blocked, -⟩ | ⟨-, same⟩
  · rw [same]
  · cases running.symm.trans blocked
  · rw [same]

namespace Machine

section

variable {m m₁ m' : Machine} {i : Instr} {l : StepLabel}

/-- A receive gets a value for the channel, or it takes the channel and parks. -/
theorem Deed.received (deed : m.Deed l m₁) (fits : l.Of m .recv m₁)
    (running : m.control.sched.current.state = .running) :
    (m₁.current.state = .running ∧ m.current.Gains 0 m₁.current) ∨
      (m₁.current.state = .blocked ∧ m.current.Gains (-1) m₁.current) := by
  have applied := deed.sched.apply
  cases l with
  | quiet | sleep | newGroup | count | drain | wait => exact absurd rfl fits.1.2.1
  | spawn =>
    obtain ⟨stop, other⟩ := fits
    cases other
  | stop => cases fits
  | make => cases fits.1
  | act ch a =>
    rcases fits with ⟨other, -⟩ | ⟨-, v, rest, gives, operands, got⟩ | ⟨-, rfl, rest, operands, left⟩ | ⟨-, plain, -⟩
    · cases other
    · have same : (StepLabel.apply m.control.sched (.act ch a)).current = m.control.sched.current := by
        cases a with
        | take => rfl
        | refill x w => exact Scheduler.current_wake running w.fiber
        | pass w => exact Scheduler.current_wake running w.fiber
        | hand | store | parkSender | parkReceiver | close => exact gives.elim
      refine .inl ⟨applied.state.trans (same ▸ running), applied.id.trans (congrArg Fiber.id same), ?_⟩
      rw [got, operands, List.length_cons, List.length_cons, Int.add_zero]
    · refine .inr ⟨applied.state, applied.id, ?_⟩
      rw [left, operands, List.length_cons]
      omega
    · exact absurd rfl plain.2.1

end

/-- The current fiber goes on with `d` more operands. -/
def Grows (m : Machine) (d : Int) (m' : Machine) : Prop := ∃ g ∈ m'.fibers, m.current.Gains d g

/-- What a step does to the operands of the fiber that executes `i`. The machine is `m₁` when the instruction has been
executed, and `m'` after the step. -/
structure OwnEffect (m : Machine) (i : Instr) (m₁ m' : Machine) : Prop where
  listed : i.opcode ∉ [Opcode.call, Opcode.tailCall, Opcode.stopFiber] →
    ¬ (i = .recv ∧ m₁.current.state = .blocked) → m.Grows i.opcode.stackEffect m'
  /-- A receive that parks its fiber has taken the channel. -/
  parks : i = .recv → m₁.current.state = .blocked → m.Grows (-1) m'
  calls : ∀ arity, i = .call arity ∨ i = .tailCall arity →
    ∃ (n : Nat) (fn : Addr), arity = n ∧ m.current.operands[n]? = some fn ∧
      (Has m.heap.words fn .builtin ∧ m.Grows (-n) m' ∨ Has m.heap.words fn .closure ∧ m.Grows (-(n + 1)) m')

/-- What a turn that gives no error does to the operands of all fibers. -/
structure StackEffects (m : Machine) (t : Turn) (m' : Machine) : Prop where
  own : ∀ canceled, t = .step canceled → ∃ i m₁, m.executed t = some (i, m₁) ∧ m.OwnEffect i m₁ m'
  /-- Only a value that is handed over comes to lie on the stack of a fiber that is not current. -/
  others : ∀ f ∈ m.fibers, f.id ≠ m.current.id → ∃ g ∈ m'.fibers, g.id = f.id ∧
    (∀ v, m.Hands t v f.id → g.operands = v :: f.operands) ∧
      ((∀ v, ¬ m.Hands t v f.id) → g.operands = f.operands)
  collects : t = .collect → m'.fibers = m.fibers

section

variable {q : Terms} {w : World} {code : Code} {m m₁ m' : Machine} {i : Instr} {l : StepLabel} {t : Turn}

/-- What the instruction does to the operands, the scheduler's decision leaves as it is. -/
theorem Paired.ownEffect (p : m.Paired q w m) (next : m.Executes i) (run : Exec.instr i m.begun = .ok () m₁)
    (deed : m.Deed l m₁) (fits : l.Of m i m₁) (continues : m₁.control.sched.Continues m'.control.sched) :
    m.OwnEffect i m₁ m' := by
  have running := p.running next.1 next.2.1
  have alive : m.control.sched.current.state ≠ .terminated := by rw [running]; decide
  have grows : ∀ {d}, i ≠ .stopFiber → m.current.Gains d m₁.current → m.Grows d m' := by
    intro d lasts gains
    have ends := (Exec.Keeps.instr_of_ne (I := fun c => c.sched.current.state ≠ .terminated) lasts).keeps m.begun alive
    rw [run] at ends
    obtain ⟨g, there, same⟩ := List.mem_map.1
      (continues.fibers.mem_iff.2 (List.mem_map_of_mem (Scheduler.mem_live.2 (.inl ⟨rfl, ends⟩))))
    exact ⟨g, there, gains.of_resting same⟩
  refine ⟨fun plain goesOn => ?_, ?_, fun arity calls => ?_⟩
  -- Whether a receive parks depends on the channel, so its effect is read off the deed and not off the code.
  · by_cases receives : i = .recv
    · subst receives
      rcases deed.received fits running with ⟨-, gains⟩ | ⟨blocked, -⟩
      · exact grows nofun gains
      · exact absurd ⟨rfl, blocked⟩ goesOn
    · refine grows ?_ (Exec.Lifts.instr (m := m.begun) plain receives () m₁ run)
      rintro rfl
      simp [Instr.opcode] at plain
  · rintro rfl blocked
    rcases deed.received fits running with ⟨still, -⟩ | ⟨-, gains⟩
    · cases still.symm.trans blocked
    · exact grows nofun gains
  · have shows : ∀ a ∈ m.begun.current.operands, ∃ n, Shows m.begun.heap.words a n := fun a mem =>
      p.alike.shows alive mem
    have lasts : i ≠ .stopFiber := by rcases calls with rfl | rfl <;> nofun
    obtain ⟨n, fn, natural, found, effect⟩ : ∃ (n : Nat) (fn : Addr), arity = n ∧ m.current.operands[n]? = some fn ∧
        (Has m.heap.words fn .builtin ∧ m.current.Gains (-n) m₁.current ∨
          Has m.heap.words fn .closure ∧ m.current.Gains (-(n + 1)) m₁.current) := by
      rcases calls with rfl | rfl
      · exact Exec.Lifts.call shows () m₁ run
      · exact Exec.Lifts.call shows () m₁ run
    exact ⟨n, fn, natural, found, effect.imp (.imp_right (grows lasts)) (.imp_right (grows lasts))⟩

theorem Steady.stackEffects (steady : m.Steady code) (ok : perform t m = .ok () m') : m.StackEffects t m' := by
  have outcome := steady.outcome t
  have turn : m.turn t = m' := turn_of_run ok
  rw [turn] at outcome
  obtain ⟨w, p⟩ := steady.paired
  cases outcome with
  | rests _ control none =>
    have idle : ∀ v id, ¬ m.Hands t v id := by
      rintro v id ⟨sends, -⟩
      rw [m.executed_of_rests none] at sends
      cases sends
    refine ⟨?_, fun f mem _ => ⟨f, ?_, rfl, fun v hands => absurd hands (idle v f.id), fun _ => rfl⟩, fun _ => ?_⟩
    · rintro canceled rfl
      obtain ⟨i, next⟩ := executes_of_step ok
      exact absurd next (none canceled i rfl)
    · rwa [Machine.fibers, control]
    · rw [Machine.fibers, control, Machine.fibers]
  | @goes canceled i l m₁ _ next run deed fits goes =>
    have executed := m.executed_of_executes canceled next run
    have orderly := steady.ordered.deed_orderly next.1 (p.running next.1 next.2.1) deed
    have continues := goes.keeps_fibers orderly.cons
    refine ⟨fun _ _ => ⟨i, m₁, executed, p.ownEffect next run deed fits continues⟩, fun f mem foreign => ?_, ?_⟩
    swap
    · intro same
      cases same
    have other := Scheduler.mem_others_of_ne mem foreign
    obtain ⟨g, there, id, pushed, kept⟩ := deed.retains executed fits continues other foreign
    refine ⟨g, there, id, fun v hands => ?_, fun none => ?_⟩
    · exact Fiber.operands_of_resting (pushed v hands)
    · exact Fiber.operands_of_resting (kept none)
  | fails _ _ _ _ _ raised => cases ok.symm.trans raised

end

end Machine

namespace Ledger

variable {code : Code} {m : Machine} {ch : Addr} {l : Ledger}

theorem balanced_play (steady : m.Steady code)
    (balanced : m.control.failed = none → ∀ c, Plays m.heap.words ch c → l.Balanced m.heap c) (ts : List Turn)
    (fine : (m.play ts).control.failed = none) :
    ∀ c, Plays (m.play ts).heap.words ch c → (m.recount (account ch) l ts).Balanced (m.play ts).heap c := by
  induction ts generalizing m l with
  | nil => exact balanced fine
  | cons t ts ih =>
    have outcome := steady.outcome t
    refine ih (steady.turn t) (fun fine => ?_) fine
    exact balanced_of_outcome steady.wired outcome (balanced (outcome.fine fine)) fine

theorem mem_parked_enter {m' : Machine} {i : Instr} {k : Nat} (mem : k ∈ (l.enter ch m i m').parked) :
    k ∈ l.parked ∨ k = m.current.id := by
  unfold enter at mem
  split at mem
  · split at mem
    · unfold send at mem
      split at mem <;> exact .inl mem
    · exact .inl mem
  · split at mem
    · unfold recv at mem
      split at mem
      · exact .inl mem
      · exact (List.mem_append.1 mem).imp_right List.mem_singleton.1
    · exact .inl mem
  · split at mem
    · cases mem
    · exact .inl mem

/-- Whoever has been parked has been started. -/
theorem parked_lt (steady : m.Steady code) (known : ∀ k ∈ l.parked, k < m.control.sched.nextId) (ts : List Turn) :
    ∀ k ∈ (m.recount (account ch) l ts).parked, k < (m.play ts).control.sched.nextId := by
  induction ts generalizing m l with
  | nil => exact known
  | cons t ts ih =>
    refine ih (steady.turn t) fun k mem => ?_
    refine Nat.lt_of_lt_of_le ?_ (steady.nextId_le t)
    unfold account at mem
    split at mem
    · next i m' has =>
      obtain ⟨next, -⟩ := Machine.executes_of_executed has
      rcases mem_parked_enter mem with old | rfl
      · exact known k old
      · exact (steady.ordered.orderly next.1).cons.current_lt
    · exact known k mem

/-- Whoever a value is handed to is, as far as an entry of a queue tells, the one that has been parked at the channel
before all others who have not been served. -/
theorem parked_of_hands {q : Terms} {w : World} {m' : Machine} {i : Instr} {t : Turn} {v : Addr} {id : Nat}
    (p : m.Paired q w m) (wired : Wired m.heap.words) (has : m.executed t = some (i, m')) (hands : m.Hands t v id)
    {L : Addr → Ledger} (balanced : ∀ ch c, Plays m.heap.words ch c → (L ch).Balanced m.heap c) :
    ∃ ch k, m.current.operands[1]? = some ch ∧ (L ch).parked[(L ch).served.length]? = some k ∧
      k.toUInt32.toNat = id := by
  obtain ⟨next, run⟩ := Machine.executes_of_executed has
  have does := p.does wired next
  rw [run] at does
  obtain ⟨l, deed, fits⟩ := does
  obtain ⟨ch, waiter, rfl, rfl⟩ := (deed.hands has fits v id).1 hands
  obtain ⟨c, c', acts⟩ := deed.heap
  obtain ⟨rest, waiting⟩ : ∃ rest, c.receiving = waiter :: rest := by
    cases acts.step with
    | hand v waiting => exact ⟨_, waiting⟩
  have operands : m.current.operands[1]? = some ch := by
    rcases fits with ⟨-, x, below, -, operands⟩ | ⟨-, x, below, gives, -⟩ | ⟨-, parks, -⟩ | ⟨closes, -⟩
    · rw [operands]
      rfl
    · exact gives.elim
    · cases parks
    · cases closes
  have receivers := (balanced ch c acts.before).2
  rw [waiting] at receivers
  -- The receivers that wait are those who parked and have not been served, in the order in which they parked.
  have first : ((L ch).parked.map fun id => id.toUInt32.toNat)[(L ch).served.length]? = some waiter.fiber := by
    rw [receivers, List.getElem?_append_right (Nat.le_refl _), Nat.sub_self]
    rfl
  rw [List.getElem?_map, Option.map_eq_some_iff] at first
  obtain ⟨k, parked, same⟩ := first
  exact ⟨ch, k, operands, parked, same⟩

end Ledger

namespace Machine

/-- In every state that a decoded program reaches by steps and collections, if it assigns nothing to the outermost
frame, a turn that gives no error changes the number of operands of the current fiber as the table says, or as the
callee does, and of the others only by handing a value to a fiber that has been parked at the channel, the one that
has waited longest there. Entries of a queue keep the low half of its id. -/
theorem stack_effects {p : Program Datum} {is : List Instr} (decoded : p.instrs = .ok is)
    (inner : ∀ pos sym, Instr.assign pos sym ∈ is → pos.frame ≠ 0) {size : Int} {options : Options} {clock : Clock}
    {sink : Sink} {order : Enumeration} {m m' : Machine}
    (made : Machine.create size (Code.ofInstrs is) options clock sink order = .ok m) (ts : List Turn) {t : Turn}
    (ok : perform t (m.play ts) = .ok () m') :
    (m.play ts).StackEffects t m' ∧ ∀ v id, (m.play ts).Hands t v id →
      ∃ ch k, (m.play ts).current.operands[1]? = some ch ∧
        (m.recount (Ledger.account ch) {} ts).parked[(m.recount (Ledger.account ch) {} ts).served.length]? = some k ∧
        k.toUInt32.toNat = id ∧ ((m.play ts).control.sched.nextId ≤ UInt32.size → k = id) := by
  have start := create_steady decoded inner made
  have steady := start.play ts
  have effects := steady.stackEffects ok
  refine ⟨effects, fun v id hands => ?_⟩
  obtain ⟨⟨i, m₁⟩, has, -⟩ := Option.map_eq_some_iff.1 hands.1
  obtain ⟨w, paired⟩ := steady.paired
  have nothing : ∀ ch c, ¬ Plays m.heap.words ch c := by
    obtain ⟨h, heap, rfl⟩ := Machine.create_eq made
    obtain ⟨init, -⟩ := Heap.create_initial heap
    exact fun ch c plays => init.not_sync plays.channel.node (.inl plays.tagAt)
  obtain ⟨ch, k, operands, parked, same⟩ := Ledger.parked_of_hands paired steady.wired has hands fun ch =>
    Ledger.balanced_play start (fun _ c plays => absurd plays (nothing ch c)) ts (executes_of_executed has).1.1
  refine ⟨ch, k, operands, parked, same, fun few => ?_⟩
  have lt := Ledger.parked_lt start (l := {}) nofun ts k (List.mem_of_getElem? parked)
  rw [← same]
  exact (Nat.mod_eq_of_lt (Nat.lt_of_lt_of_le lt few)).symm

/-- The sixth step of the relay takes the channel and the integer. -/
theorem stack_effects_relay : ∃ m m', Program.relay.instrs = .ok Program.relayInstrs ∧
    Machine.create 336 (Code.ofInstrs Program.relayInstrs) {} = .ok m ∧
    (m.play (List.replicate 5 (.step false))).current.operands.length = 2 ∧ m'.current.operands = [] ∧
    perform (.step false) (m.play (List.replicate 5 (.step false))) = .ok () m' ∧
    (m.play (List.replicate 5 (.step false))).StackEffects (.step false) m' := by
  obtain ⟨m, made, before, after, makes⟩ : ∃ m, Machine.create 336 (Code.ofInstrs Program.relayInstrs) {} = .ok m ∧
      (m.play (List.replicate 5 (.step false))).current.operands.length = 2 ∧
      ((m.play (List.replicate 5 (.step false))).turn (.step false)).current.operands = [] ∧
      (m.play (List.replicate 5 (.step false))).makes false 1 := ⟨_, Machine.create_listed rfl, by decide +kernel⟩
  obtain ⟨m', ok, -⟩ := ok_of_makes makes
  have turn : (m.play (List.replicate 5 (.step false))).turn (.step false) = m' := turn_of_run ok
  rw [turn] at after
  exact ⟨m, m', rfl, made, before, after, ok, (stack_effects (p := Program.relay) rfl Program.relay_inner made _ ok).1⟩

end Machine

end FiberVm
