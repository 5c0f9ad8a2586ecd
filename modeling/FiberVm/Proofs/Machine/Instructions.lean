import FiberVm.Proofs.Machine.Calls

/-!
# Instructions on two machines

Every instruction simulates itself, and so does a whole cycle of the machine. Two things could break
this: a constant that is an address, and an assignment to the outermost frame. That frame is not traced,
so only reserved values may be put there.
-/

set_option autoImplicit false

namespace FiberVm

open Heap (Shows bottom)

/-- The variable at (`i`, `j`) is in the frame at `f`, on both sides. Only the outermost frame is
reserved. -/
structure Located (w : World) (h₁ h₂ : Heap) (env : Addr) (i j : Int) (f : Addr) (slots : List Addr) :
    Prop where
  run₁ : Heap.slotFrame env i j h₁ = .ok f h₁
  run₂ : Heap.slotFrame (w.image env) i j h₂ = .ok (w.image f) h₂
  outer : f < bottom → i = 0
  role : w.role f .frame
  shows₁ : Shows h₁.words f (.frame slots)
  admits : w.Admits f .frame (.frame slots)
  shows₂ : Shows h₂.words (w.image f) (.frame (slots.map w.image))
  nonneg : 0 ≤ j
  lt : j.toNat < slots.length

section

variable {q : Terms} {w : World} {m₁ m₂ : Machine} {env v : Addr} {i j : Int}

/-- A variable is found in the same frame on both sides, or there is the same complaint. -/
theorem Mirror.located {h₁ h₂ : Heap} (m : Mirror w h₁ h₂) (role : w.role env .environment) (i j : Int) :
    (∃ e, Heap.slotFrame env i j h₁ = .error (.fault e) h₁ ∧
      Heap.slotFrame (w.image env) i j h₂ = .error (.fault e) h₂) ∨
    ∃ f slots, Located w h₁ h₂ env i j f slots := by
  obtain ⟨frames, s₁, admits, s₂⟩ := m.environment role
  by_cases out : i < 0 ∨ (frames.length : Int) ≤ i
  · refine .inl ⟨_, Heap.slotFrame_of_frame s₁ out, ?_⟩
    have fails := Heap.slotFrame_of_frame s₂ (j := j) (by simpa using out)
    rwa [List.length_map] at fails
  obtain ⟨nonneg, lt⟩ := not_or.1 out
  have inside : i.toNat < frames.length := by omega
  have get : frames[i.toNat]? = some frames[i.toNat] := List.getElem?_eq_getElem inside
  generalize frames[i.toNat] = f at get
  obtain ⟨rest, rfl, first, all⟩ := admits.fits
  have outer : w.role f .frame ∧ (f < bottom → i = 0) := by
    by_cases zero : i = 0
    · subst zero
      cases get
      exact ⟨first, fun _ => rfl⟩
    · obtain ⟨k, succ⟩ : ∃ k, i.toNat = k + 1 := ⟨i.toNat - 1, by omega⟩
      rw [succ] at get
      have found := all f (List.mem_of_getElem? get)
      exact ⟨found.1, fun low => absurd low (UInt32.not_lt.2 found.2)⟩
  obtain ⟨n, t₁, admits', t₂⟩ := m.nodes f _ outer.1
  have get₂ : (List.map w.image (Heap.builtinsFrame :: rest))[i.toNat]? = some (w.image f) := by
    rw [List.getElem?_map, get]
    rfl
  have fits := admits'.fits
  cases n with
  | frame slots =>
    by_cases out : j < 0 ∨ (slots.length : Int) ≤ j
    · refine .inl ⟨_, Heap.slotFrame_of_slot s₁ get t₁ (by omega) out, ?_⟩
      have fails := Heap.slotFrame_of_slot s₂ get₂ t₂ (by omega) (by simpa using out)
      rwa [List.length_map] at fails
    · have bounds : 0 ≤ j ∧ j < slots.length := by omega
      exact .inr ⟨f, slots, Heap.slotFrame_shows s₁ get t₁ (by omega) bounds,
        Heap.slotFrame_shows s₂ get₂ t₂ (by omega) (by simpa using bounds), outer.2, outer.1, t₁, admits', t₂,
        bounds.1, by omega⟩
  | _ => exact fits.elim

theorem Located.index {h₁ h₂ : Heap} {f : Addr} {slots : List Addr} (at_ : Located w h₁ h₂ env i j f slots) :
    j = (j.toNat : Nat) := (Int.toNat_of_nonneg at_.nonneg).symm

theorem Sim.load {name : String} (alike : m₁.Alike q w m₂)
    (alive : m₁.control.sched.current.state ≠ .terminated) :
    Sim q w
      (do
        let env ← Exec.asksFiber (·.env)
        let a ← Exec.onHeap (Heap.lookup env i j)
        if a = Heap.unassigned then FiberVm.fault (.unassigned name) else Exec.push a)
      (do
        let env ← Exec.asksFiber (·.env)
        let a ← Exec.onHeap (Heap.lookup env i j)
        if a = Heap.unassigned then FiberVm.fault (.unassigned name) else Exec.push a) m₁ m₂ := by
  refine .asksFiber alike ?_
  rw [Fiber.rename_env]
  rcases alike.heap.located (alike.typed alive).env i j with ⟨e, run₁, run₂⟩ | ⟨f, slots, there⟩
  · exact .refuse alike (.lookup _ _ _) (.lookup _ _ _) (bind_of_error run₁) (bind_of_error run₂) rfl
  obtain ⟨a, get⟩ : ∃ a, slots[j.toNat]? = some a := ⟨_, List.getElem?_eq_getElem there.lt⟩
  have value : IsValue w.role a := there.admits.fits a (List.mem_of_getElem? get)
  have get₂ : (slots.map w.image)[j.toNat]? = some (w.image a) := by
    rw [List.getElem?_map, get]
    rfl
  have run₁ := (bind_of_ok (f := (Heap.child · j)) there.run₁).trans (Heap.child_frame there.shows₁ there.index get)
  have run₂ := (bind_of_ok (f := (Heap.child · j)) there.run₂).trans (Heap.child_frame there.shows₂ there.index get₂)
  refine .read (.lookup _ _ _) (.lookup _ _ _) run₁ run₂ ?_
  have same := alike.heap.image_eq_iff value.knows reserved_unassigned
  by_cases unset : a = Heap.unassigned
  · rw [if_pos unset, if_pos (same.2 unset)]
    exact .raise alike rfl
  · rw [if_neg unset, if_neg fun e => unset (same.1 e)]
    exact .last (.push alike value fun n₂ alike _ => .pure alike)

theorem Sim.assign (alike : m₁.Alike q w m₂) (alive : m₁.control.sched.current.state ≠ .terminated)
    (settled : ∀ x, ¬ w.recent x)
    (outer : ∀ v h, i = 0 → m₁.control.sched.current.operands.head? = some v →
      Heap.store m₁.control.sched.current.env i j v m₁.heap = .ok () h → v < bottom) :
    Sim q w
      (do
        let v ← Exec.peek 0
        let env ← Exec.asksFiber (·.env)
        Exec.onHeap (Heap.store env i j v))
      (do
        let v ← Exec.peek 0
        let env ← Exec.asksFiber (·.env)
        Exec.onHeap (Heap.store env i j v)) m₁ m₂ := by
  refine .peek alike alive fun v get value => .asksFiber alike (.last ?_)
  rw [Fiber.rename_env]
  rcases alike.heap.located (alike.typed alive).env i j with ⟨e, run₁, run₂⟩ | ⟨f, slots, there⟩
  · exact .refuse alike (.store _ _ _ _) (.store _ _ _ _) (bind_of_error run₁) (bind_of_error run₂) rfl
  obtain ⟨h₁, set₁, u₁⟩ := Heap.setChild_slots (.inl rfl) there.shows₁ there.index there.lt v
  obtain ⟨h₂, set₂, u₂⟩ := Heap.setChild_slots (.inl rfl) there.shows₂ there.index (by simpa using there.lt)
    (w.image v)
  have run₁ := (bind_of_ok (f := (Heap.setChild · j v)) there.run₁).trans set₁
  have run₂ := (bind_of_ok (f := (Heap.setChild · j (w.image v))) there.run₂).trans set₂
  rw [← List.map_set] at u₂
  have top : m₁.control.sched.current.operands.head? = some v := by rwa [List.head?_eq_getElem?]
  have admits : w.Admits f .frame (.frame (slots.set j.toNat v)) := by
    refine ⟨fun x mem => ?_, fun low => ⟨trivial, fun x mem => ?_⟩, fun _ x _ => settled x⟩
    · rcases List.mem_or_eq_of_mem_set mem with mem | rfl
      · exact there.admits.fits x mem
      · exact value
    · rcases List.mem_or_eq_of_mem_set mem with mem | rfl
      · exact (there.admits.low low).2 x mem
      · exact outer x h₁ (there.outer low) top run₁
  exact .update alike there.role admits (.store _ _ _ _) (.store _ _ _ _) ⟨h₁, run₁, u₁⟩ ⟨h₂, run₂, u₂⟩
    fun h₁ h₂ _ _ alike => .pure alike

theorem Sim.pushLiteral {a : Addr} (alike : m₁.Alike q w m₂) (res : Reserved a .value) :
    Sim q w (do Exec.push (← Exec.allocating fun _ => Pure.pure a))
      (do Exec.push (← Exec.allocating fun _ => Pure.pure a)) m₁ m₂ := by
  obtain ⟨value, same⟩ := alike.reserved res
  have blind : Exec.Blind (Exec.allocating fun _ => (Pure.pure a : HeapM Addr)) := fun v m => by
    obtain ⟨h, c⟩ := m
    rfl
  have sim : Sim q w (Exec.push a) (Exec.push (w.image a)) m₁ m₂ :=
    .last (.push alike value fun n₂ alike _ => .pure alike)
  rw [same] at sim
  refine .step blind blind ?_ ?_ rfl sim
  · obtain ⟨h, c⟩ := m₁
    rfl
  · obtain ⟨h, c⟩ := m₂
    rfl

theorem Sim.pushConstant {c : Constant} (alike : m₁.Alike q w m₂)
    (alive : m₁.control.sched.current.state ≠ .terminated) (plain : ∀ a, c ≠ .ref a) :
    Sim q w (do Exec.push (← Exec.allocating fun roots => Heap.box roots c))
      (do Exec.push (← Exec.allocating fun roots => Heap.box roots c)) m₁ m₂ := by
  cases c with
  | nil => exact .pushLiteral alike reserved_nil
  | undefined => exact .pushLiteral alike reserved_unassigned
  | bool b => exact .pushLiteral alike (reserved_ofBool b)
  | int _ k => exact .takePush alike alive (.inl rfl) (alike.shared.newInt k) (List.Subset.refl _)
  | ref a => exact absurd rfl (plain a)
  | uint64 _ | float64 _ | string _ =>
    refine .rejectFault alike rfl rfl ?_
    rfl

theorem Sim.pushClosure {arity entry : Int} (alike : m₁.Alike q w m₂)
    (alive : m₁.control.sched.current.state ≠ .terminated) (role : w.role env .environment) :
    Sim q w (do Exec.push (← Exec.allocating fun roots => Heap.newClosure roots arity entry env))
      (do Exec.push (← Exec.allocating fun roots => Heap.newClosure roots arity entry (w.image env)))
      m₁ m₂ := by
  by_cases out : arity < 0 ∨ (Heap.maxChildren : Int) < arity
  · refine .rejectFault alike (if_pos out) (if_pos out) ?_
    rfl
  · have fits : 0 ≤ arity ∧ arity ≤ 15 := by
      unfold Heap.maxChildren at out
      omega
    exact .takePush alike alive (.inr rfl) (alike.shared.newClosure role fits entry) (subset_pins _ _ _)

theorem Exec.scanStop_ok {l : List (Option Instr)} (present : none ∉ l) (depth index : Nat) :
    ∃ found, Exec.scanStop depth index l = .ok found := by
  induction l generalizing depth index with
  | nil => exact ⟨none, rfl⟩
  | cons entry l ih =>
    have rest : none ∉ l := fun mem => present (List.mem_cons_of_mem entry mem)
    cases entry with
    | none => exact absurd List.mem_cons_self present
    | some instr =>
      rw [Exec.scanStop]
      split
      · exact ih rest _ _
      · split
        · split
          · exact ⟨_, rfl⟩
          · exact ih rest _ _
        · exact ih rest _ _

theorem Sim.findStop {next : Nat} {k₁ k₂ : Int → Exec Unit} (alike : m₁.Alike q w m₂)
    (rest : ∀ stop, Sim q w (k₁ stop) (k₂ stop) m₁ m₂) :
    Sim q w (Exec.findStop next >>= k₁) (Exec.findStop next >>= k₂) m₁ m₂ := by
  have present : none ∉ m₁.control.code.toList.drop next := fun mem => by
    rw [alike.control.program] at mem
    obtain ⟨i, e, -⟩ := alike.control.plain none (List.mem_of_mem_drop mem)
    cases e
  obtain ⟨found, scan⟩ := Exec.scanStop_ok present 0 next
  simp only [Exec.findStop, bind_assoc]
  refine .asks ?_
  rw [alike.control.code, scan]
  cases found with
  | none => exact .fails alike (.fault _) (.fault _) rfl rfl rfl
  | some stop => exact .step (.pure _) (.pure _) rfl rfl rfl (rest stop)

theorem Sim.spawn {pc stop : Int} (alike : m₁.Alike q w m₂)
    (alive : m₁.control.sched.current.state ≠ .terminated) :
    Sim q w
      (do
        if stop < pc ∨ (← Exec.asks fun c => (c.code.size : Int)) ≤ stop then
          FiberVm.fault (.stopOutOfRange stop)
        else
          let env ← Exec.asksFiber (·.env)
          Exec.modifySched fun s => s.spawn pc env
          Exec.jump (stop + 1))
      (do
        if stop < pc ∨ (← Exec.asks fun c => (c.code.size : Int)) ≤ stop then
          FiberVm.fault (.stopOutOfRange stop)
        else
          let env ← Exec.asksFiber (·.env)
          Exec.modifySched fun s => s.spawn pc env
          Exec.jump (stop + 1)) m₁ m₂ := by
  refine .asks ?_
  rw [alike.control.code]
  by_cases out : stop < pc ∨ (m₁.control.code.size : Int) ≤ stop
  · rw [if_pos out]
    exact .raise alike rfl
  · rw [if_neg out]
    refine .asksFiber alike (.modifySched alike (Scheduler.spawn_rename _ _ _ _) ?_ fun alike => ?_)
    · exact alike.control.fit.spawn (alike.typed alive).env pc
    · exact .last (.jump alike _ fun n₂ alike _ => .pure alike)

theorem Sim.startFiber {stop : Int} (alike : m₁.Alike q w m₂)
    (alive : m₁.control.sched.current.state ≠ .terminated) :
    Sim q w (Exec.startFiber stop) (Exec.startFiber stop) m₁ m₂ := by
  unfold Exec.startFiber
  refine .asksFiber alike ?_
  rw [Fiber.rename_pc]
  by_cases scan : stop = 0
  · rw [if_pos scan]
    exact .findStop alike fun stop => .spawn alike alive
  · rw [if_neg scan]
    exact .step (.pure _) (.pure _) rfl rfl rfl (.spawn alike alive)

theorem Sim.done (alike : m₁.Alike q w m₂) (alive : m₁.control.sched.current.state ≠ .terminated) :
    Sim q w (Exec.instr .done) (Exec.instr .done) m₁ m₂ := by
  refine .asksFiber alike (.last ?_)
  obtain ⟨unset, same⟩ := alike.reserved reserved_unassigned
  have operands := (alike.typed alive).operands
  rw [Fiber.rename_operands, List.head?_map]
  refine .step (.modifyControl _) (.modifyControl _) rfl rfl rfl (.pure ?_)
  obtain ⟨heap, pins, pinned, plain, program, code, limit, steps, sched, fit, -, -, sink, failed⟩ := alike
  refine ⟨heap, pins, pinned, plain, program, code, limit, steps, sched, fit, ?_, ?_, sink, failed⟩
  · cases m₁.control.sched.current.operands.head? with
    | none => exact congrArg some same.symm
    | some a => rfl
  · rintro a ⟨⟩
    cases top : m₁.control.sched.current.operands.head? with
    | none => exact unset
    | some a => exact operands a (List.mem_of_head? top)

theorem Sim.jumpOnFalse {target : Int} (alike : m₁.Alike q w m₂)
    (alive : m₁.control.sched.current.state ≠ .terminated) :
    Sim q w (Exec.instr (.jumpOnFalse target)) (Exec.instr (.jumpOnFalse target)) m₁ m₂ := by
  refine .pop alike alive fun c n₂ value alike _ => ?_
  have yes := alike.heap.image_eq_iff value.knows reserved_true
  have no := alike.heap.image_eq_iff value.knows reserved_false
  by_cases holds : c = Heap.true
  · rw [if_pos holds, if_pos (yes.2 holds)]
    exact .pure alike
  · rw [if_neg holds, if_neg fun e => holds (yes.1 e)]
    by_cases fails : c = Heap.false
    · rw [if_pos fails, if_pos (no.2 fails)]
      exact .last (.jump alike _ fun n₂ alike _ => .pure alike)
    · rw [if_neg fails, if_neg fun e => fails (no.1 e)]
      obtain ⟨n, r, -, s₁, -, s₂⟩ := alike.node value
      exact .tagOf s₁ s₂ (.raise alike rfl)

/-- The instruction may be executed: it has no address as a constant, it stores nothing that is collected
in the outermost frame, and if the terms say so it prints no address. -/
structure Machine.Allows (q : Terms) (m : Machine) (i : Instr) : Prop where
  constant : ∀ a, i ≠ .loadConst (.ref a)
  outer : ∀ pos sym v h, i = .assign pos sym → pos.frame = 0 → m.control.sched.current.operands.head? = some v →
    Heap.store m.control.sched.current.env pos.frame pos.slot v m.heap = .ok () h → v < bottom
  prints : q.quiet → i = .call 1 ∨ i = .tailCall 1 → ∀ x f rest, m.control.sched.current.operands = x :: f :: rest →
    Shows m.heap.words f (.builtin .println 1) → ∀ n, Shows m.heap.words x n → ¬ n.IsReference

theorem Sim.instr {i : Instr} (alike : m₁.Alike q w m₂)
    (running : m₁.control.sched.current.state = .running) (settled : ∀ x, ¬ w.recent x)
    (allows : m₁.Allows q i) : Sim q w (Exec.instr i) (Exec.instr i) m₁ m₂ := by
  have alive : m₁.control.sched.current.state ≠ .terminated := by rw [running]; decide
  cases i with
  | loadConst c => exact .pushConstant alike alive fun a e => allows.constant a (e ▸ rfl)
  | load pos sym => exact .load alike alive
  | loadFunc arity entry =>
    exact .asksFiber alike (.pushClosure alike alive (alike.typed alive).env)
  | assign pos sym =>
    exact .assign alike alive settled fun v h => allows.outer pos sym v h rfl
  | binary op =>
    refine .peek alike alive fun y _ vy => .peek alike alive fun x _ vx => ?_
    refine .binary alike alive vx vy fun a w' h₁ h₂ alike value => .drop alike fun n₂ alike _ => ?_
    exact .last (.push alike value fun n₂ alike _ => .pure alike)
  | unary op =>
    refine .peek alike alive fun x _ vx => ?_
    refine .unary alike alive vx fun a w' h₁ h₂ alike value => .drop alike fun n₂ alike _ => ?_
    exact .last (.push alike value fun n₂ alike _ => .pure alike)
  | jumpOnFalse target => exact .jumpOnFalse alike alive
  | goto target => exact .last (.jump alike target fun n₂ alike _ => .pure alike)
  | call arity => exact .call alike running settled fun h one => allows.prints h (.inl (one ▸ rfl))
  | tailCall arity => exact .call alike running settled fun h one => allows.prints h (.inr (one ▸ rfl))
  | done => exact .done alike alive
  | pop => exact .pop alike alive fun a n₂ _ alike _ => .pure alike
  | reset => exact .reset alike alive
  | nop => exact .pure alike
  | enterScope n => exact .enterScope alike alive
  | exitScope => exact .exitScope alike alive
  | startFiber stop => exact .startFiber alike alive
  | stopFiber =>
    exact .last (.modifySched alike (Scheduler.terminate_rename _ _)
      (alike.control.fit.stop running m₁.control.sched.timers) .pure)
  | send => exact .send alike running
  | recv => exact .recv alike running
  | makeWaitGroup => exact .takePush alike alive (.inr rfl) alike.shared.newWaitGroup (List.Subset.refl _)
  | foreign op typeName => exact .raise alike rfl

end

end FiberVm
