import FiberVm.Proofs.Machine.Keeps
import FiberVm.Proofs.Program.Checked

/-!
# Program counters and the count of steps

No program counter of decoded code ever becomes negative, and executing an instruction neither changes
the code nor counts another step. This is so even if the instruction fails or crashes half way, so nothing is
assumed of the heap: a return address read from any word is a 32-bit number. Only jumps need to be looked at, as
everything else leaves the counters alone.
-/

set_option autoImplicit false

namespace FiberVm

/-- An instruction that passes the check leads to no negative place. -/
theorem Instr.Checked.lands_nonneg {size : Nat} {i : Instr} (checked : i.Checked size) : i.Lands (0 ≤ ·) := by
  cases i with
  | goto target => exact (checked.target (.inl rfl)).1
  | jumpOnFalse target => exact (checked.target (.inr rfl)).1
  | loadFunc arity entry => exact Int.natCast_nonneg _
  | _ => trivial


/-- No program counter is negative, and that of the current fiber is at least `least`. -/
structure Scheduler.Placed (least : Int) (s : Scheduler) : Prop where
  current : least ≤ s.current.pc
  others : ∀ f ∈ s.others, 0 ≤ f.pc

/-- The code, the step limit, the count of steps and the fault are those of `base`, and no program counter is
negative. -/
structure Control.Tracks (base : Control) (least : Int) (c : Control) : Prop where
  code : c.code = base.code
  limit : c.stepLimit = base.stepLimit
  steps : c.steps = base.steps
  failed : c.failed = base.failed
  placed : c.sched.Placed least

namespace Scheduler.Placed

variable {least : Int} {s s' : Scheduler}

theorem mono (placed : s.Placed least) {lower : Int} (le : lower ≤ least) : s.Placed lower :=
  ⟨Int.le_trans le placed.current, placed.others⟩

theorem of_context (placed : s.Placed least) (current : s'.current.context = s.current.context)
    (others : s'.others.map Fiber.context = s.others.map Fiber.context) : s'.Placed least := by
  refine ⟨?_, fun f mem => ?_⟩
  · rw [show s'.current.pc = s.current.pc from congrArg Context.pc current]
    exact placed.current
  · have inside : f.context ∈ s.others.map Fiber.context := others ▸ List.mem_map_of_mem mem
    obtain ⟨g, there, same⟩ := List.mem_map.1 inside
    rw [show f.pc = g.pc from (congrArg Context.pc same).symm]
    exact placed.others g there

theorem wake (placed : s.Placed least) (id : Nat) : (s.wake id).Placed least :=
  placed.of_context (s.context_wake id).1 (s.context_wake id).2.1

theorem deliver (placed : s.Placed least) (id : Nat) (v : Addr) : (s.deliver id v).Placed least :=
  placed.of_context (s.context_deliver id v).1 (s.context_deliver id v).2.1

theorem poll (placed : s.Placed least) : s.poll.Placed least :=
  poll_invariant (fun _ id placed => placed.wake id) (fun _ _ _ placed => ⟨placed.current, placed.others⟩) placed

theorem spawn (placed : s.Placed least) {pc : Int} (start : 0 ≤ pc) (env : Addr) :
    (s.spawn pc env).Placed least := by
  refine ⟨placed.current, fun f mem => ?_⟩
  rcases mem_insertFiber.1 mem with rfl | mem
  · exact start
  · exact placed.others f mem

theorem resume (placed : s.Placed 0) : s.resume.Placed 0 := by
  unfold Scheduler.resume
  split
  · exact placed
  split
  · exact ⟨placed.current, placed.others⟩
  split
  · exact ⟨placed.current, placed.others⟩
  · next f found =>
    refine ⟨placed.others f (List.mem_of_find?_eq_some found), fun f mem => ?_⟩
    rcases mem_exchanged.1 mem with ⟨rfl, -⟩ | ⟨mem, -⟩
    · exact placed.current
    · exact placed.others f mem

theorem awaitReady (canceled : Bool) (placed : s.Placed 0) : Settles (Placed 0) (awaitReady canceled s) := by
  fun_induction Scheduler.awaitReady canceled s with
  | case1 => exact placed
  | case2 => exact placed
  | case3 s empty t rest some go ih => exact ih (Placed.poll ⟨placed.current, placed.others⟩)
  | case4 => exact placed

theorem next (canceled : Bool) (placed : s.Placed 0) : Settles (Placed 0) (next canceled s) := by
  have waited := placed.poll.awaitReady canceled
  unfold Scheduler.next
  split <;> rename_i run <;> rw [run] at waited
  · exact waited.resume
  · exact waited

theorem reschedule (canceled : Bool) (placed : s.Placed 0) : Settles (Placed 0) (reschedule canceled s) := by
  have charged : s.charge.Placed 0 := ⟨placed.current, placed.others⟩
  by_cases running : s.current.state = .running
  · rw [reschedule_of_running running]
    split
    · exact charged
    split
    · exact ⟨charged.poll.current, charged.poll.others⟩
    · exact next canceled ⟨charged.poll.current, charged.poll.others⟩
  · rw [reschedule_of_blocked running]
    exact placed.next canceled

end Scheduler.Placed

namespace Control.Tracks

variable {base : Control} {least : Int}

instance : Control.Indifferent (Control.Tracks base least) where
  registers _ _ _ _ _ pc _ tracks :=
    ⟨tracks.code, tracks.limit, tracks.steps, tracks.failed, pc.symm ▸ tracks.placed.current, tracks.placed.others⟩
  wake _ id tracks := ⟨tracks.code, tracks.limit, tracks.steps, tracks.failed, tracks.placed.wake id⟩
  deliver _ id v tracks := ⟨tracks.code, tracks.limit, tracks.steps, tracks.failed, tracks.placed.deliver id v⟩
  park _ tracks :=
    ⟨tracks.code, tracks.limit, tracks.steps, tracks.failed, tracks.placed.current, tracks.placed.others⟩
  sleep _ _ tracks :=
    ⟨tracks.code, tracks.limit, tracks.steps, tracks.failed, tracks.placed.current, tracks.placed.others⟩
  print _ _ tracks := ⟨tracks.code, tracks.limit, tracks.steps, tracks.failed, tracks.placed⟩

theorem modifySched {f : Scheduler → Scheduler} (closed : ∀ s, s.Placed least → (f s).Placed least) :
    Exec.Keeps (Control.Tracks base least) (Exec.modifySched f) :=
  .modifyControl fun _ tracks => ⟨tracks.code, tracks.limit, tracks.steps, tracks.failed, closed _ tracks.placed⟩


theorem jump {pc : Int} (start : 0 ≤ pc) : Exec.Keeps (Control.Tracks base 0) (Exec.jump pc) :=
  modifySched (f := fun s => { s with current := { s.current with pc := pc } }) fun _ placed =>
    ⟨start, placed.others⟩

theorem ofWide {α : Type} {I : Control → Prop} {a : Addr} {op : HeapM Int} [Heap.Releases op]
    (reads : op = do return ((← Heap.wideField a).toNat : Int)) {k : Int → Exec α}
    (rest : ∀ pc, 0 ≤ pc → Exec.Keeps I (k pc)) : Exec.Keeps I (Exec.onHeap op >>= k) := by
  have start : ∀ {m m' : Machine} {pc : Int}, Exec.onHeap op m = .ok pc m' → 0 ≤ pc := by
    intro m m' pc run
    subst reads
    unfold Exec.onHeap at run
    cases read : Heap.wideField a m.heap with
    | ok w h =>
      simp only [bind_of_ok read] at run
      cases run
      exact Int.natCast_nonneg _
    | error e h =>
      simp only [bind_of_error read] at run
      cases run
  have reading : Exec.Keeps I (Exec.onHeap op) := .onHeap op
  constructor
  · exact fun m holds => (reading.keeps m holds).bind (fun pc m' run => (rest pc (start run)).keeps m') fun _ => id
  · exact fun m => (reading.pins m).bind (fun pc m' run same => same ▸ (rest pc (start run)).pins m') fun _ => id

instance enterClosure (fn : Addr) (args : List Addr) (tail : Bool) :
    Exec.Keeps (Control.Tracks base 0) (Exec.enterClosure fn args tail) := by
  have enter : Exec.Keeps (Control.Tracks base 0) (do Exec.jump (← Exec.onHeap (Heap.closurePc fn))) :=
    ofWide rfl fun _ => jump
  have rest : ∀ frame, Exec.Keeps (Control.Tracks base 0) (do
      let captured ← Exec.onHeap (Heap.closureEnv fn)
      let env ← Exec.allocating fun roots => Heap.extend roots captured frame
      Exec.drop (args.length + 1)
      Exec.setEnv env
      Exec.jump (← Exec.onHeap (Heap.closurePc fn))) := fun frame => by
    refine .seq (.onHeap _) fun env => .seq (.allocating _) fun env => .seq (.drop _) fun _ => .seq (.setEnv _) fun _ => ?_
    exact enter
  unfold Exec.enterClosure
  dsimp only
  refine .seq (.allocating _) fun frame => .seq (.onHeap _) fun _ => ?_
  have := rest frame
  infer_instance

instance call (arity : Int) (tail : Bool) : Exec.Keeps (Control.Tracks base 0) (Exec.call arity tail) := by
  unfold Exec.call
  dsimp only
  infer_instance

end Control.Tracks

instance Control.careless_count (n : Nat) (limit : Int) (failed : Option Fault) :
    Control.Careless fun c => c.steps = n ∧ c.stepLimit = limit ∧ c.failed = failed where
  registers := fun _ _ _ _ _ _ _ same => same
  wake := fun _ _ same => same
  deliver := fun _ _ _ same => same
  park := fun _ same => same
  sleep := fun _ _ same => same
  print := fun _ _ same => same
  jump := fun _ _ same => same
  spawn := fun _ _ _ same => same
  stop := fun _ same => same
  finish := fun _ _ same => same

/-- An instruction that is executed is counted. If that ends in a fault, the machine keeps it, with the opcode. -/
theorem Machine.Executes.counted {m : Machine} {i : Instr} (next : m.Executes i) (canceled : Bool) :
    (left (step canceled m)).control.steps = m.control.steps + 1 ∧
      (left (step canceled m)).control.stepLimit = m.control.stepLimit ∧
      match step canceled m with
      | .error (.fault f) m' => m'.control.failed = some f ∧ f.op = some i.opcode
      | .error _ m' => m'.control.failed = none
      | .ok _ m' => m'.control.failed = none := by
  have keeps : Exec.Keeps (fun c => c.steps = m.control.steps + 1 ∧ c.stepLimit = m.control.stepLimit ∧ c.failed = none)
    (Exec.instr i) := .instr i
  have kept := keeps.keeps m.begun ⟨rfl, rfl, next.1⟩
  cases next.ends canceled with
  | crashes first step =>
    rw [first] at kept
    rw [show FiberVm.Machine.step canceled m = _ from step]
    exact kept
  | faults first step =>
    rw [first] at kept
    rw [show FiberVm.Machine.step canceled m = _ from step]
    exact ⟨kept.1, kept.2.1, rfl, rfl⟩
  | goes first goes step =>
    rw [first] at kept
    rw [show FiberVm.Machine.step canceled m = _ from step]
    cases goes with
    | halts => exact kept
    | resumes => exact kept
  | stalls first _ _ step =>
    rw [first] at kept
    rw [show FiberVm.Machine.step canceled m = _ from step]
    exact ⟨kept.1, kept.2.1, rfl, rfl⟩

/-- A step that goes well is counted, and does not pass the limit. -/
theorem Machine.step_counted {m m' : Machine} {canceled : Bool} (run : step canceled m = .ok () m') :
    m'.control.steps = m.control.steps + 1 ∧ m'.control.stepLimit = m.control.stepLimit ∧
      (0 < m.control.stepLimit → (m'.control.steps : Int) ≤ m.control.stepLimit) := by
  obtain ⟨i, next⟩ := executes_of_step run
  obtain ⟨steps, limit, -⟩ := next.counted canceled
  rw [run] at steps limit
  refine ⟨steps, limit, fun positive => Int.not_lt.1 fun past => ?_⟩
  have fetched := next.2.2
  rw [advance_snd, if_pos ⟨positive, show _ < ((m.control.steps + 1 : Nat) : Int) from steps ▸ past⟩] at fetched
  cases fetched

namespace Control.Tracks

variable {base : Control} {m : Machine}

theorem lower {c : Control} (tracks : base.Tracks 1 c) : base.Tracks 0 c :=
  ⟨tracks.code, tracks.limit, tracks.steps, tracks.failed, tracks.placed.mono (by decide)⟩

/-- A block frame sends the fiber back to the instruction it has just left. -/
theorem reset (tracks : base.Tracks 1 m.control) :
    Settles (fun m => base.Tracks 0 m.control) (Exec.reset m) := by
  have back : ∀ top, Exec.Keeps (Control.Tracks base 0) (do
      Exec.jump (← Exec.onHeap (Heap.callframePc top))
      Exec.setEnv (← Exec.onHeap (Heap.callframeEnv top))) := fun top =>
    ofWide rfl fun pc start => .seq (jump start) fun _ => inferInstance
  unfold Exec.reset
  refine Settles.bind (Exec.Keeps.popFrame.keeps m tracks) (fun top m₁ _ tracks => ?_) fun _ => lower
  refine Settles.bind ((Exec.Keeps.tagOf top).keeps m₁ tracks) (fun tag m₂ _ tracks => ?_) fun _ => lower
  split
  · exact (back top).keeps m₂ tracks.lower
  split
  · have start : 0 ≤ m₂.control.sched.current.pc - 1 := Int.sub_nonneg_of_le tracks.placed.current
    exact (jump start).keeps m₂ tracks.lower
  · exact tracks.lower

theorem startFiber (tracks : base.Tracks 1 m.control) (stop : Int) :
    Settles (fun m => base.Tracks 0 m.control) (Exec.startFiber stop m) := by
  have start : 0 ≤ m.control.sched.current.pc := Int.le_trans (by decide) tracks.placed.current
  have starts : ∀ last, Exec.Keeps (Control.Tracks base 0) (do
      if last < m.control.sched.current.pc ∨ (← Exec.asks fun c => (c.code.size : Int)) ≤ last then
        FiberVm.fault (.stopOutOfRange last)
      else
        let env ← Exec.asksFiber (·.env)
        Exec.modifySched fun s => s.spawn m.control.sched.current.pc env
        Exec.jump (last + 1)) := by
    refine fun last => .seq (.asks _) fun size => ?_
    split
    · infer_instance
    · next inside =>
      have target : 0 ≤ last + 1 := by omega
      refine .seq (.asks _) fun env => .seq (modifySched fun s placed => placed.spawn start env) fun _ => ?_
      exact jump target
  unfold Exec.startFiber
  refine Settles.bind ((Exec.Keeps.asksFiber _).keeps m tracks.lower) (fun pc m' run tracks => ?_) fun _ => id
  cases run
  dsimp only
  split
  · exact (Exec.Keeps.seq inferInstance starts).keeps m tracks
  · exact (Exec.Keeps.seq inferInstance starts).keeps m tracks

theorem instr {i : Instr} (tracks : base.Tracks 1 m.control) (lands : i.Lands (0 ≤ ·)) :
    Settles (fun m => base.Tracks 0 m.control) (Exec.instr i m) := by
  have keeps : (i ≠ .reset ∧ ∀ stop, i ≠ .startFiber stop) →
      Exec.Keeps (Control.Tracks base 0) (Exec.instr i) := by
    rintro ⟨reset, start⟩
    cases i with
    | reset => exact absurd rfl reset
    | startFiber stop => exact absurd rfl (start stop)
    | goto target => exact jump lands
    | jumpOnFalse target =>
      have : Exec.Keeps (Control.Tracks base 0) (Exec.jump target) := jump lands
      unfold Exec.instr
      infer_instance
    | stopFiber => exact modifySched fun _ placed => ⟨placed.current, placed.others⟩
    | done =>
      refine .seq (.asks _) fun operands => .modifyControl fun c tracks => ?_
      exact ⟨tracks.code, tracks.limit, tracks.steps, tracks.failed, tracks.placed⟩
    | _ =>
      unfold Exec.instr
      infer_instance
  cases i with
  | reset => exact tracks.reset
  | startFiber stop => exact tracks.startFiber stop
  | _ => exact (keeps ⟨nofun, nofun⟩).keeps m tracks.lower

theorem reschedule (tracks : base.Tracks 0 m.control) (canceled : Bool) :
    Settles (fun m => base.Tracks 0 m.control) (Exec.reschedule canceled m) := by
  have decided := tracks.placed.reschedule canceled
  rw [Exec.reschedule_eq]
  split <;> rename_i run <;> rw [run] at decided
  · exact ⟨tracks.code, tracks.limit, tracks.steps, tracks.failed, decided⟩
  · exact ⟨tracks.code, tracks.limit, tracks.steps, tracks.failed, decided⟩

end Control.Tracks

/-- A machine for `code` and a step limit, of which no program counter is negative. -/
structure Machine.Grounded (code : Code) (limit : Int) (m : Machine) : Prop where
  code : m.control.code = code
  limit : m.control.stepLimit = limit
  placed : m.control.sched.Placed 0

namespace Machine.Grounded

variable {code : Code} {limit : Int} {m m' : Machine} {canceled : Bool}

theorem of_tracks (grounded : m.Grounded code limit) (tracks : m.counted.control.Tracks 0 m'.control) :
    m'.Grounded code limit :=
  ⟨tracks.code.trans grounded.code, tracks.limit.trans grounded.limit, tracks.placed⟩

theorem begun (grounded : m.Grounded code limit) : m.counted.control.Tracks 1 m.begun.control :=
  ⟨rfl, rfl, rfl, rfl, Int.add_le_add_right grounded.placed.current 1, grounded.placed.others⟩

theorem executed (grounded : m.Grounded code limit) (canceled : Bool)
    (lands : ∀ i, some i ∈ code.toList → i.Lands (0 ≤ ·)) {i : Instr} (next : m.Executes i) :
    Settles (fun m' => m.counted.control.Tracks 0 m'.control)
      ((Exec.instr i >>= fun _ => Exec.finish canceled) m.begun) := by
  have lands := lands i (grounded.code ▸ Machine.Executes.mem_code next)
  refine Settles.bind (grounded.begun.instr lands) (fun _ m' _ tracks => ?_) fun _ => id
  rw [Machine.finish_eq]
  split
  · exact tracks
  · exact tracks.reschedule canceled

/-- A step either does nothing, or it is counted, and then a fault that it leaves behind is raised by it. -/
theorem step (grounded : m.Grounded code limit) (lands : ∀ i, some i ∈ code.toList → i.Lands (0 ≤ ·))
    (canceled : Bool) : (m.turn (.step canceled) = m ∧ ∀ i, ¬ m.Executes i) ∨
      (m.turn (.step canceled)).Grounded code limit ∧
      (m.turn (.step canceled)).control.steps = m.control.steps + 1 ∧
      ∀ f, (m.turn (.step canceled)).control.failed = some f →
        Machine.step canceled m = .error (.fault f) (m.turn (.step canceled)) := by
  cases m.attempt canceled with
  | failed _ none step => exact .inl ⟨turn_of_run (t := .step canceled) step, none⟩
  | ended _ _ none step => exact .inl ⟨turn_of_run (t := .step canceled) step, none⟩
  | stuck _ _ _ run =>
    rw [turn_of_run (t := .step canceled) run]
    refine .inr ⟨⟨grounded.code, grounded.limit, grounded.placed⟩, rfl, fun f raised => ?_⟩
    cases raised
    exact run
  | @executes i next run =>
    have ends := grounded.executed canceled lands next
    have run : Machine.step canceled m = conclude m.current.id m.current.pc i.opcode
      ((Exec.instr i >>= fun _ => Exec.finish canceled) m.begun) := run
    have calm : ∀ {m' : Machine} {f : Fault}, m.counted.control.Tracks 0 m'.control →
        m'.control.failed = some f → False := fun tracks raised => by
      have before := tracks.failed.symm.trans raised
      cases next.1.symm.trans before
    refine .inr ?_
    cases done : (Exec.instr i >>= fun _ => Exec.finish canceled) m.begun with
    | ok _ m' =>
      rw [done] at run ends
      rw [turn_of_run (t := .step canceled) run]
      exact ⟨grounded.of_tracks ends, ends.steps, fun f raised => (calm ends raised).elim⟩
    | error e m' =>
      rw [done] at run ends
      rw [turn_of_run (t := .step canceled) run]
      cases e with
      | crash e => exact ⟨grounded.of_tracks ends, ends.steps, fun f raised => (calm ends raised).elim⟩
      | fault c =>
        refine ⟨⟨ends.code.trans grounded.code, ends.limit.trans grounded.limit, ends.placed⟩, ends.steps,
          fun f raised => ?_⟩
        cases raised
        exact run

/-- No turns make a program counter negative or change the code. -/
theorem play (grounded : m.Grounded code limit) (lands : ∀ i, some i ∈ code.toList → i.Lands (0 ≤ ·))
    (ts : List Turn) : (m.play ts).Grounded code limit := by
  induction ts generalizing m with
  | nil => exact grounded
  | cons t ts ih =>
    refine ih ?_
    cases t with
    | collect =>
      have same := m.turn_collect_control
      exact ⟨same ▸ grounded.code, same ▸ grounded.limit, same ▸ grounded.placed⟩
    | step canceled =>
      rcases grounded.step lands canceled with ⟨same, -⟩ | ⟨after, -⟩
      · exact same.symm ▸ grounded
      · exact after

end Machine.Grounded

theorem Machine.create_grounded {code : Code} {options : Options} {clock : Clock} {sink : Sink} {size : Int}
    {order : Enumeration} {m : Machine} (made : Machine.create size code options clock sink order = .ok m) :
    m.Grounded code options.withDefaults.stepLimit ∧ m.control.failed = none := by
  obtain ⟨h, -, rfl⟩ := Machine.create_eq made
  exact ⟨⟨rfl, rfl, Int.le_refl 0, fun _ mem => nomatch mem⟩, rfl⟩

end FiberVm
