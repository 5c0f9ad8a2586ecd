import FiberVm.Debugger
import FiberVm.Proofs.Machine.Events

/-!
# A debugger only observes

Whatever is asked of a debugger, its machine is one that plain steps lead to, and its breakpoints can be
told apart by where they are and by their ids. A command that moves the machine makes one step after the
other until the first that errs, ends the program or comes to an active breakpoint, unless it stops by itself
before. Without active breakpoints going on is running.
-/

set_option autoImplicit false

namespace FiberVm

namespace Machine

/-- The machine after `n` steps, however they end. -/
def walk (m : Machine) (n : Nat) : Machine := m.play (List.replicate n (.step false))

theorem walk_one (m : Machine) : m.walk 1 = m.turn (.step false) := rfl

theorem walk_add (m : Machine) (k n : Nat) : m.walk (k + n) = (m.walk k).walk n := by
  rw [walk, List.replicate_add]
  exact List.foldl_append

theorem walk_of_step {m m' : Machine} (run : step false m = .ok () m') (n : Nat) : m.walk (n + 1) = m'.walk n := by
  rw [Nat.add_comm, walk_add, walk_one, turn_of_run (t := .step false) run]
  rfl

end Machine

namespace Debugger

/-- A command that moves the machine. -/
inductive Movement
  | step (n : Int)
  | stepOver
  | stepOut
  | resume

/-- The command, with a host that does not give up. -/
def Movement.command : Movement → Command StopEvent
  | step n => Debugger.step false n
  | stepOver => Debugger.stepOver false
  | stepOut => Debugger.stepOut false
  | resume => Debugger.resume false

inductive Request
  | set (pc : Int)
  | remove (id : Int)
  | enable (id : Int) (active : Bool)
  | move (movement : Movement)

/-- The debugger that a command leaves behind. -/
def left {α : Type} : EStateM.Result Machine.Error Debugger α → Debugger
  | .ok _ d => d
  | .error _ d => d

def obey (d : Debugger) : Request → Debugger
  | .set pc =>
    match d.setBreakpoint pc with
    | .ok (_, d) => d
    | .error _ => d
  | .remove id =>
    match d.removeBreakpoint id with
    | .ok d => d
    | .error _ => d
  | .enable id active =>
    match d.enableBreakpoint id active with
    | .ok d => d
    | .error _ => d
  | .move movement => left (movement.command d)

/-- The debugger after some calls. -/
def session (d : Debugger) (requests : List Request) : Debugger := requests.foldl obey d

variable {d d' d'' : Debugger}

section Movements

/-- The breakpoints are the same. -/
structure Same (d d' : Debugger) : Prop where
  breakpoints : d'.breakpoints = d.breakpoints
  nextId : d'.nextId = d.nextId

/-- The step from `m` goes well, and nothing stops the machine after it. -/
structure Passes (d : Debugger) (m m' : Machine) : Prop where
  step : Machine.step false m = .ok () m'
  going : m'.halted = false
  free : d.activeAt? m'.current.pc = none

/-- How a movement ends with its last step, which is made from `m`. -/
inductive LastStep (d : Debugger) (m : Machine) (spent : Prop) :
    EStateM.Result Machine.Error Debugger StopEvent → Prop
  | errs {e : Machine.Error} {d' : Debugger} : Machine.step false m = .error e d'.machine → d.Same d' →
    LastStep d m spent (.error e d')
  | halts {d' : Debugger} : Machine.step false m = .ok () d'.machine → d'.machine.halted = true → d.Same d' →
    LastStep d m spent (.ok .halted d')
  | hits {d' : Debugger} {b : Breakpoint} : Machine.step false m = .ok () d'.machine → d'.machine.halted = false →
    d.activeAt? d'.machine.current.pc = some b → d'.breakpoints = (d.hit b).breakpoints → d'.nextId = d.nextId →
    LastStep d m spent (.ok (.breakpoint { b with hits := b.hits + 1 }) d')
  | done {d' : Debugger} : d.Passes m d'.machine → d.Same d' → LastStep d m spent (.ok .step d')
  /-- No more steps are made, though nothing has happened. -/
  | cut {d' : Debugger} : spent → d.Passes m d'.machine → d.Same d' → LastStep d m spent (.error .endless d')

/-- A movement of some steps, of which all but the last pass. -/
def Travels (d : Debugger) (spent : Nat → Prop) (r : EStateM.Result Machine.Error Debugger StopEvent) : Prop :=
  ∃ k, (∀ i < k, d.Passes (d.machine.walk i) (d.machine.walk (i + 1))) ∧
    d.LastStep (d.machine.walk k) (spent (k + 1)) r

theorem Same.activeAt? (same : d.Same d') (pc : Int) : d'.activeAt? pc = d.activeAt? pc := by
  unfold Debugger.activeAt?
  rw [same.breakpoints]

theorem Same.passes (same : d.Same d') {m m' : Machine} (passes : d'.Passes m m') : d.Passes m m' :=
  ⟨passes.step, passes.going, same.activeAt? _ ▸ passes.free⟩

theorem Same.trans (same : d.Same d') (same' : d'.Same d'') : d.Same d'' :=
  ⟨same'.breakpoints.trans same.breakpoints, same'.nextId.trans same.nextId⟩

theorem Same.lastStep (same : d.Same d') {m : Machine} {spent : Prop}
    {r : EStateM.Result Machine.Error Debugger StopEvent} (last : d'.LastStep m spent r) : d.LastStep m spent r := by
  cases last with
  | errs step same' => exact .errs step (same.trans same')
  | halts step halted same' => exact .halts step halted (same.trans same')
  | hits step going hit breakpoints nextId =>
    refine .hits step going (same.activeAt? _ ▸ hit) (breakpoints.trans ?_) (nextId.trans same.nextId)
    unfold Debugger.hit
    rw [same.breakpoints]
  | done passes same' => exact .done (same.passes passes) (same.trans same')
  | cut spent passes same' => exact .cut spent (same.passes passes) (same.trans same')

/-- A single step passes, or it is the last. -/
theorem stepOnce_cases (d : Debugger) (spent : Prop) :
    (∃ d', stepOnce false d = .ok none d' ∧ d.Passes d.machine d'.machine ∧ d.Same d') ∨
    (∃ e d', stepOnce false d = .ok (some e) d' ∧ e ≠ .step ∧ d.LastStep d.machine spent (.ok e d')) ∨
    ∃ e d', stepOnce false d = .error e d' ∧ d.LastStep d.machine spent (.error e d') := by
  obtain ⟨m, bs, n, watching, seen⟩ := d
  unfold stepOnce
  simp only [Bool.false_eq_true, if_false]
  cases run : Machine.step false m with
  | error e m' => exact .inr (.inr ⟨e, _, rfl, .errs run ⟨rfl, rfl⟩⟩)
  | ok u m' =>
    dsimp only
    split
    · next halted => exact .inr (.inl ⟨_, _, rfl, nofun, .halts run halted ⟨rfl, rfl⟩⟩)
    · next going =>
      have going : m'.halted = false := Bool.eq_false_iff.2 going
      split
      · next b found => exact .inr (.inl ⟨_, _, rfl, nofun, .hits run going found rfl rfl⟩)
      · next free => exact .inl ⟨_, rfl, ⟨run, going, free⟩, ⟨rfl, rfl⟩⟩

theorem Travels.cons {spent : Nat → Prop} {r : EStateM.Result Machine.Error Debugger StopEvent}
    (first : d.Passes d.machine d'.machine) (same : d.Same d') (rest : d'.Travels (fun k => spent (k + 1)) r) :
    d.Travels spent r := by
  obtain ⟨k, passes, last⟩ := rest
  have next : ∀ i, d'.machine.walk i = d.machine.walk (i + 1) := fun i => (Machine.walk_of_step first.step i).symm
  refine ⟨k + 1, fun i below => ?_, ?_⟩
  · cases i with
    | zero =>
      have one : d.machine.walk 1 = d'.machine := Machine.walk_of_step first.step 0
      rw [one]
      exact first
    | succ i =>
      rw [← next, ← next]
      exact same.passes (passes i (Nat.lt_of_succ_lt_succ below))
  · rw [← next]
    exact same.lastStep last

theorem Travels.single {spent : Nat → Prop} {r : EStateM.Result Machine.Error Debugger StopEvent}
    (last : d.LastStep d.machine (spent 1) r) : d.Travels spent r := ⟨0, fun _ => nofun, last⟩

theorem Travels.imp {spent spent' : Nat → Prop} {r : EStateM.Result Machine.Error Debugger StopEvent}
    (travels : d.Travels spent r) (weaker : ∀ k, (∀ i < k, d.Passes (d.machine.walk i) (d.machine.walk (i + 1))) →
      spent k → spent' k) : d.Travels spent' r := by
  obtain ⟨k, passes, last⟩ := travels
  refine ⟨k, passes, ?_⟩
  cases last with
  | errs step same => exact .errs step same
  | halts step halted same => exact .halts step halted same
  | hits step going hit breakpoints nextId => exact .hits step going hit breakpoints nextId
  | done last same => exact .done last same
  | @cut d' few last same =>
    refine .cut (weaker (k + 1) (fun i below => ?_) few) last same
    rcases Nat.lt_succ_iff_lt_or_eq.1 below with lt | rfl
    · exact passes i lt
    · have next : d.machine.walk (i + 1) = d'.machine := by
        rw [Machine.walk_add, Machine.walk_one]
        exact Machine.turn_of_run (t := .step false) last.step
      rw [next]
      exact last

theorem runUntil_travels (stop : Machine → Bool) (n : Nat) (d : Debugger) :
    d.Travels (· = n + 1) (runUntil false stop (n + 1) d) := by
  induction n generalizing d with
  | zero =>
    unfold runUntil
    rcases d.stepOnce_cases (1 = 0 + 1) with ⟨d', run, passes, same⟩ | ⟨e, d', run, -, last⟩ | ⟨e, d', run, last⟩
    · rw [bind_of_ok run]
      change d.Travels _ ((if stop d'.machine then return .step else throw Machine.Error.endless : Command StopEvent) d')
      split
      · exact .single (.done passes same)
      · exact .single (.cut rfl passes same)
    · rw [bind_of_ok run]
      exact .single last
    · rw [bind_of_error run]
      exact .single last
  | succ n ih =>
    unfold runUntil
    rcases d.stepOnce_cases (1 = n + 1 + 1) with ⟨d', run, passes, same⟩ | ⟨e, d', run, -, last⟩ | ⟨e, d', run, last⟩
    · rw [bind_of_ok run]
      change d.Travels _ ((if stop d'.machine then return .step else runUntil false stop (n + 1) : Command StopEvent) d')
      split
      · exact .single (.done passes same)
      · refine .cons passes same ?_
        simpa only [Nat.add_right_cancel_iff] using ih d'
    · rw [bind_of_ok run]
      exact .single last
    · rw [bind_of_error run]
      exact .single last

theorem stepMore_travels (spent : Nat → Prop) (n : Nat) (d : Debugger) :
    d.Travels spent (stepMore false n d) := by
  induction n generalizing d spent with
  | zero =>
    unfold stepMore
    rcases d.stepOnce_cases (spent 1) with ⟨d', run, passes, same⟩ | ⟨e, d', run, -, last⟩ | ⟨e, d', run, last⟩
    · rw [bind_of_ok run]
      exact .single (.done passes same)
    · rw [bind_of_ok run]
      exact .single last
    · rw [bind_of_error run]
      exact .single last
  | succ n ih =>
    unfold stepMore
    rcases d.stepOnce_cases (spent 1) with ⟨d', run, passes, same⟩ | ⟨e, d', run, -, last⟩ | ⟨e, d', run, last⟩
    · rw [bind_of_ok run]
      exact .cons passes same (ih _ d')
    · rw [bind_of_ok run]
      exact .single last
    · rw [bind_of_error run]
      exact .single last

/-- Every step that passes is counted, and so a limit is kept. -/
theorem steps_walk {k : Nat} (passes : ∀ i < k, d.Passes (d.machine.walk i) (d.machine.walk (i + 1))) :
    (d.machine.walk k).control.steps = d.machine.control.steps + k ∧
      (d.machine.walk k).control.stepLimit = d.machine.control.stepLimit ∧
      (0 < k → 0 < d.machine.control.stepLimit →
        ((d.machine.control.steps + k : Nat) : Int) ≤ d.machine.control.stepLimit) := by
  induction k with
  | zero => exact ⟨rfl, rfl, nofun⟩
  | succ k ih =>
    obtain ⟨steps, limit, -⟩ := ih fun i below => passes i (Nat.lt_succ_of_lt below)
    obtain ⟨next, limit', kept⟩ := Machine.step_counted (passes k (Nat.lt_succ_self k)).step
    rw [steps] at next
    rw [limit] at limit' kept
    exact ⟨next, limit', fun _ positive => next ▸ kept positive⟩

/-- The next instruction cannot be looked at, for this reason. Past the end of the program nobody looks. -/
def Unreadable (m : Machine) (c : Crash) : Prop :=
  (m.current.pc < 0 ∧ c = .outOfRange) ∨
    (0 ≤ m.current.pc ∧ m.control.code[m.current.pc.toNat]? = some none ∧ c = .missingInstr)

/-- Stepping over looks at the next instruction before it is fetched. -/
theorem stepOver_cases (canceled : Bool) (d : Debugger) :
    (∃ c, Unreadable d.machine c ∧ Debugger.stepOver canceled d = .error (.crash c) d) ∨
    Debugger.stepOver canceled d = Debugger.step canceled 1 d ∨
    ∃ back, Debugger.stepOver canceled d = runUntil canceled back d.fuel d := by
  unfold Debugger.stepOver
  dsimp only
  split
  · exact .inr (.inl rfl)
  next inside =>
    split
    · next low => exact .inl ⟨_, .inl ⟨low, rfl⟩, rfl⟩
    next high =>
      split
      · split
        · exact .inr (.inr ⟨_, rfl⟩)
        · exact .inr (.inl rfl)
      · next missing =>
        refine .inl ⟨_, .inr ⟨Int.not_lt.1 high, ?_, rfl⟩, rfl⟩
        have lt : d.machine.current.pc.toNat < d.machine.control.code.size := by omega
        have there := Array.getElem?_eq_getElem lt
        cases entry : d.machine.control.code[d.machine.current.pc.toNat] with
        | some i => exact absurd (entry ▸ there) (missing i)
        | none => exact entry ▸ there

theorem stepOver_unreadable {c : Crash} (unreadable : Unreadable d.machine c) (canceled : Bool) :
    Debugger.stepOver canceled d = .error (.crash c) d := by
  unfold Debugger.stepOver
  dsimp only
  rcases unreadable with ⟨low, rfl⟩ | ⟨high, missing, rfl⟩
  · rw [if_neg (by omega), if_pos low]
  · have inside := (Array.getElem?_eq_some_iff.1 missing).1
    rw [if_neg (by omega), if_neg (by omega), missing]

/-- All commands that move the machine move it in the same way. Only without a step limit are they cut off. -/
theorem Movement.travels (movement : Movement) (readable : movement = .stepOver → ∀ c, ¬ Unreadable d.machine c) :
    d.Travels (fun k => d.machine.control.stepLimit ≤ 0 ∧ k = Machine.patience + 1) (movement.command d) := by
  have runs : ∀ stop, d.Travels (fun k => d.machine.control.stepLimit ≤ 0 ∧ k = Machine.patience + 1)
      (runUntil false stop d.fuel d) := by
    refine fun stop => (runUntil_travels stop d.machine.allowance d).imp fun k passes all => ?_
    obtain ⟨-, -, kept⟩ := steps_walk passes
    have allowance : d.machine.allowance = if 0 < d.machine.control.stepLimit then
      d.machine.control.stepLimit.toNat + 1 - d.machine.control.steps else Machine.patience := rfl
    have positive : 0 < k := all ▸ Nat.succ_pos _
    by_cases limited : 0 < d.machine.control.stepLimit
    · have kept := kept positive limited
      rw [if_pos limited] at allowance
      omega
    · rw [if_neg limited] at allowance
      exact ⟨Int.not_lt.1 limited, all.trans (by rw [allowance])⟩
  cases movement with
  | step n => exact stepMore_travels _ _ d
  | resume => exact runs fun _ => false
  | stepOut =>
    change d.Travels _ (Debugger.stepOut false d)
    unfold Debugger.stepOut
    dsimp only
    split
    · exact runs fun _ => false
    · exact runs _
  | stepOver =>
    change d.Travels _ (Debugger.stepOver false d)
    rcases stepOver_cases false d with ⟨c, unreadable, -⟩ | run | ⟨back, run⟩
    · exact absurd unreadable (readable rfl c)
    · rw [run]
      exact stepMore_travels _ _ d
    · rw [run]
      exact runs back

/-- In code without gaps every instruction can be looked at that is not before the first. -/
theorem readable_of_grounded {code : Code} {limit : Int} (plain : code.Plain) (grounded : d.machine.Grounded code limit)
    (c : Crash) : ¬ Unreadable d.machine c := by
  rintro (⟨low, -⟩ | ⟨-, missing, -⟩)
  · exact absurd grounded.placed.current (Int.not_le.2 low)
  · rw [grounded.code] at missing
    obtain ⟨i, entry, -⟩ := plain none (Array.mem_toList_iff.2 (Array.mem_of_getElem? missing))
    cases entry

end Movements

section Breakpoints

/-- Breakpoints can be told apart, and ids go up. -/
structure Distinct (d : Debugger) : Prop where
  pcs : (d.breakpoints.map Breakpoint.pc).Nodup
  ids : (d.breakpoints.map Breakpoint.id).Nodup
  below : ∀ b ∈ d.breakpoints, b.id < d.nextId

/-- An id that was given out before is still that of the breakpoint it was given to. -/
structure Succeeds (d d' : Debugger) : Prop where
  nextId : d.nextId ≤ d'.nextId
  old : ∀ b' ∈ d'.breakpoints, b'.id < d.nextId → ∃ b ∈ d.breakpoints, b.id = b'.id ∧ b.pc = b'.pc

theorem Succeeds.refl (d : Debugger) : d.Succeeds d := ⟨Nat.le_refl _, fun b mem _ => ⟨b, mem, rfl, rfl⟩⟩

theorem Succeeds.trans (s : d.Succeeds d') (s' : d'.Succeeds d'') : d.Succeeds d'' := by
  refine ⟨Nat.le_trans s.nextId s'.nextId, fun b mem lt => ?_⟩
  obtain ⟨b', mem', id', pc'⟩ := s'.old b mem (Nat.lt_of_lt_of_le lt s.nextId)
  obtain ⟨b'', mem'', id'', pc''⟩ := s.old b' mem' (id' ▸ lt)
  exact ⟨b'', mem'', id''.trans id', pc''.trans pc'⟩

/-- The breakpoints are where they were, under the same ids, or some are gone. -/
theorem Distinct.sublist (distinct : d.Distinct) (nextId : d'.nextId = d.nextId)
    (kept : (d'.breakpoints.map fun b => (b.id, b.pc)).Sublist (d.breakpoints.map fun b => (b.id, b.pc))) :
    d'.Distinct ∧ d.Succeeds d' := by
  have ids := kept.map Prod.fst
  have pcs := kept.map Prod.snd
  rw [List.map_map, List.map_map] at ids pcs
  have old : ∀ b' ∈ d'.breakpoints, ∃ b ∈ d.breakpoints, b.id = b'.id ∧ b.pc = b'.pc := by
    intro b' mem
    obtain ⟨b, inside, same⟩ := List.mem_map.1 (kept.subset (List.mem_map_of_mem mem))
    exact ⟨b, inside, (Prod.mk.inj same).1, (Prod.mk.inj same).2⟩
  refine ⟨⟨distinct.pcs.sublist pcs, distinct.ids.sublist ids, fun b' mem => ?_⟩, nextId.symm.le, fun b' mem _ => old b' mem⟩
  obtain ⟨b, inside, id, -⟩ := old b' mem
  rw [← id, nextId]
  exact distinct.below b inside

theorem Distinct.map (distinct : d.Distinct) (nextId : d'.nextId = d.nextId) {f : Breakpoint → Breakpoint}
    (same : ∀ b, (f b).id = b.id ∧ (f b).pc = b.pc) (breakpoints : d'.breakpoints = d.breakpoints.map f) :
    d'.Distinct ∧ d.Succeeds d' := by
  have kept : (d'.breakpoints.map fun b => (b.id, b.pc)) = d.breakpoints.map fun b => (b.id, b.pc) := by
    rw [breakpoints, List.map_map]
    exact List.map_congr_left fun b _ => Prod.ext (same b).1 (same b).2
  exact distinct.sublist nextId (kept ▸ List.Sublist.refl _)

theorem Distinct.set (distinct : d.Distinct) {pc : Int} {b : Breakpoint} (run : d.setBreakpoint pc = .ok (b, d')) :
    d'.Distinct ∧ d.Succeeds d' := by
  unfold Debugger.setBreakpoint at run
  dsimp only at run
  split at run
  · cases run
  split at run
  · cases run
    refine distinct.map rfl (fun b => ?_) rfl
    split <;> exact ⟨rfl, rfl⟩
  · next free =>
    cases run
    have new : pc.toNat ∉ d.breakpoints.map Breakpoint.pc := fun mem => by
      obtain ⟨b, inside, same⟩ := List.mem_map.1 mem
      exact absurd same (by simpa using List.find?_eq_none.1 free b inside)
    have fresh : d.nextId ∉ d.breakpoints.map Breakpoint.id := fun mem => by
      obtain ⟨b, inside, same⟩ := List.mem_map.1 mem
      exact Nat.ne_of_lt (distinct.below b inside) same
    refine ⟨⟨?_, ?_, fun b mem => ?_⟩, Nat.le_succ _, fun b mem lt => ?_⟩
    · rw [List.map_append]
      exact List.nodup_append.2 ⟨distinct.pcs, List.nodup_singleton _, by
        rintro k inside l here rfl
        obtain rfl : k = pc.toNat := List.mem_singleton.1 here
        exact new inside⟩
    · rw [List.map_append]
      exact List.nodup_append.2 ⟨distinct.ids, List.nodup_singleton _, by
        rintro k inside l here rfl
        obtain rfl : k = d.nextId := List.mem_singleton.1 here
        exact fresh inside⟩
    · rcases List.mem_append.1 mem with inside | new
      · exact Nat.lt_succ_of_lt (distinct.below b inside)
      · obtain rfl := List.mem_singleton.1 new
        exact Nat.lt_succ_self d.nextId
    · rcases List.mem_append.1 mem with inside | new
      · exact ⟨b, inside, rfl, rfl⟩
      · obtain rfl := List.mem_singleton.1 new
        exact absurd lt (Nat.lt_irrefl d.nextId)

theorem Distinct.remove (distinct : d.Distinct) {id : Int} (run : d.removeBreakpoint id = .ok d') :
    d'.Distinct ∧ d.Succeeds d' := by
  unfold Debugger.removeBreakpoint at run
  split at run
  · cases run
    exact distinct.sublist rfl (List.filter_sublist.map _)
  · cases run

theorem Distinct.enable (distinct : d.Distinct) {id : Int} {active : Bool}
    (run : d.enableBreakpoint id active = .ok d') : d'.Distinct ∧ d.Succeeds d' := by
  unfold Debugger.enableBreakpoint at run
  split at run
  · cases run
    refine distinct.map rfl (fun b => ?_) rfl
    split <;> exact ⟨rfl, rfl⟩
  · cases run

/-- Only hits are counted while the machine moves. -/
theorem Distinct.lastStep (distinct : d.Distinct) {m : Machine} {spent : Prop}
    {r : EStateM.Result Machine.Error Debugger StopEvent} (last : d.LastStep m spent r) :
    (left r).Distinct ∧ d.Succeeds (left r) := by
  have same : ∀ {d' : Debugger}, d.Same d' → d'.Distinct ∧ d.Succeeds d' := fun same =>
    distinct.map same.nextId (fun _ => ⟨rfl, rfl⟩) (same.breakpoints.trans (List.map_id _).symm)
  cases last with
  | errs _ kept => exact same kept
  | halts _ _ kept => exact same kept
  | hits _ _ _ breakpoints nextId =>
    refine distinct.map nextId (fun b => ?_) breakpoints
    split <;> exact ⟨rfl, rfl⟩
  | done _ kept => exact same kept
  | cut _ _ kept => exact same kept

theorem Distinct.hit (distinct : d.Distinct) {b : Breakpoint} (mem : b ∈ d.breakpoints) :
    (d.hit b).breakpoints = d.breakpoints.map fun c => if c = b then { c with hits := c.hits + 1 } else c := by
  refine List.map_congr_left fun c inside => ?_
  by_cases same : c = b
  · rw [if_pos same, if_pos (congrArg Breakpoint.id same)]
  · rw [if_neg same, if_neg fun id => same (List.inj_on_of_nodup_map distinct.ids inside mem id)]

end Breakpoints

section Sessions

variable {code : Code} {limit : Int} {m : Machine}

theorem LastStep.machine {spent : Prop} {r : EStateM.Result Machine.Error Debugger StopEvent}
    (last : d.LastStep m spent r) : (left r).machine = m.turn (.step false) := by
  cases last with
  | errs step => exact (Machine.turn_of_run (t := .step false) step).symm
  | halts step => exact (Machine.turn_of_run (t := .step false) step).symm
  | hits step => exact (Machine.turn_of_run (t := .step false) step).symm
  | done passes => exact (Machine.turn_of_run (t := .step false) passes.step).symm
  | cut _ passes => exact (Machine.turn_of_run (t := .step false) passes.step).symm

/-- A debugger that was attached to a machine with decoded code. -/
structure Attached (m : Machine) (d : Debugger) : Prop where
  distinct : d.Distinct
  walked : ∃ n, d.machine = m.walk n

/-- The machine does not care about breakpoints. -/
theorem machine_obey (d : Debugger) (request : Request) :
    (∃ movement, request = .move movement) ∨ (d.obey request).machine = d.machine := by
  cases request with
  | move movement => exact .inl ⟨movement, rfl⟩
  | set pc =>
    refine .inr ?_
    unfold Debugger.obey Debugger.setBreakpoint
    dsimp only
    repeat' split
    all_goals grind
  | remove id =>
    refine .inr ?_
    unfold Debugger.obey Debugger.removeBreakpoint
    dsimp only
    repeat' split
    all_goals grind
  | enable id active =>
    refine .inr ?_
    unfold Debugger.obey Debugger.enableBreakpoint
    dsimp only
    repeat' split
    all_goals grind

theorem Distinct.obey (distinct : d.Distinct) {request : Request} (still : ∀ movement, request ≠ .move movement) :
    (d.obey request).Distinct ∧ d.Succeeds (d.obey request) := by
  cases request with
  | move movement => exact absurd rfl (still movement)
  | set pc =>
    unfold Debugger.obey
    dsimp only
    split
    · next run => exact distinct.set run
    · exact ⟨distinct, .refl d⟩
  | remove id =>
    unfold Debugger.obey
    dsimp only
    split
    · next run => exact distinct.remove run
    · exact ⟨distinct, .refl d⟩
  | enable id active =>
    unfold Debugger.obey
    dsimp only
    split
    · next run => exact distinct.enable run
    · exact ⟨distinct, .refl d⟩

/-- What one call does to a debugger. -/
theorem Attached.obey (attached : d.Attached m) (plain : code.Plain)
    (lands : ∀ i, some i ∈ code.toList → i.Lands (0 ≤ ·)) (grounded : m.Grounded code limit)
    (request : Request) : (d.obey request).Attached m ∧ d.Succeeds (d.obey request) := by
  obtain ⟨distinct, k, walked⟩ := attached
  by_cases moves : ∃ movement, request = .move movement
  · obtain ⟨movement, rfl⟩ := moves
    have here : d.machine.Grounded code limit := walked ▸ grounded.play lands _
    obtain ⟨j, -, last⟩ := movement.travels (d := d) fun _ => readable_of_grounded plain here
    obtain ⟨distinct', succeeds⟩ := distinct.lastStep last
    refine ⟨⟨distinct', k + j + 1, ?_⟩, succeeds⟩
    rw [Machine.walk_add, Machine.walk_add, Machine.walk_one, ← walked]
    exact last.machine
  · obtain ⟨distinct', succeeds⟩ := distinct.obey fun movement same => moves ⟨movement, same⟩
    exact ⟨⟨distinct', k, ((d.machine_obey request).resolve_left moves).trans walked⟩, succeeds⟩

theorem Attached.session (attached : d.Attached m) (plain : code.Plain)
    (lands : ∀ i, some i ∈ code.toList → i.Lands (0 ≤ ·)) (grounded : m.Grounded code limit)
    (requests : List Request) : (d.session requests).Attached m ∧ d.Succeeds (d.session requests) := by
  induction requests generalizing d with
  | nil => exact ⟨attached, .refl d⟩
  | cons request requests ih =>
    obtain ⟨attached', succeeds⟩ := attached.obey plain lands grounded request
    obtain ⟨attached'', succeeds'⟩ := ih attached'
    exact ⟨attached'', succeeds.trans succeeds'⟩

end Sessions

section Running

/-- What a command that has run to the end of the program amounts to: the result or error, and the machine. -/
def verdict : EStateM.Result Machine.Error Debugger StopEvent → Except Machine.Error Value × Machine
  | .ok _ d => (d.machine.result, d.machine)
  | .error e d => (.error e, d.machine)

/-- Without active breakpoints nothing but the end of the program stops the machine. -/
theorem verdict_runUntil (fuel : Nat) (going : d.machine.halted = false)
    (inactive : ∀ b ∈ d.breakpoints, b.active = false) :
    verdict (runUntil false (fun _ => false) fuel d)
      = (Machine.runFor (fun _ _ => ()) false fuel () d.machine).2 := by
  induction fuel generalizing d with
  | zero =>
    rw [Machine.runFor, going]
    rfl
  | succ fuel ih =>
    have live : ¬ d.machine.halted := Bool.eq_false_iff.1 going
    have on : ¬ (false && d.machine.control.steps % 1024 == 0) = true := Bool.false_ne_true
    have free : ∀ pc, d.activeAt? pc = none := fun pc =>
      List.find?_eq_none.2 fun b mem => by simp [inactive b mem]
    unfold runUntil
    rcases d.stepOnce_cases False with ⟨d', run, passes, same⟩ | ⟨e, d', run, stops, last⟩ | ⟨e, d', run, last⟩
    · rw [bind_of_ok run, Machine.runFor_of_ok _ fuel () live on passes.step]
      exact ih passes.going (same.breakpoints ▸ inactive)
    · rw [bind_of_ok run]
      cases last with
      | halts step halted =>
        rw [Machine.runFor_of_ok _ fuel () live on step, Machine.runFor_of_halted _ fuel _ halted]
        rfl
      | hits _ _ hit => cases (free _).symm.trans hit
      | done => exact absurd rfl stops
    · rw [bind_of_error run]
      cases last with
      | errs step =>
        rw [Machine.runFor_of_error _ fuel () live on step]
        rfl
      | cut never => exact never.elim

end Running

/-- A session with a debugger, of which the last request may be any. Breakpoints are kept apart by their places
and ids, an id is never given out twice, and the machine is where plain steps have led it. A command that moves the
machine makes steps up to the first that errs, ends the program or comes to an active breakpoint, which is then
hit, unless it stops by itself before. Going on without active breakpoints is running. -/
theorem observes {p : Program Datum} {is : List Instr} (decoded : p.instrs = .ok is) {size : Int} {options : Options}
    {clock : Clock} {sink : Sink} {m : Machine}
    (made : Machine.create size (Code.ofInstrs is) options clock sink = .ok m) (ts : List Turn) (watching : Bool)
    (past : List Request) :
    let d := session { machine := m.play ts, watching } past
    ((d.breakpoints.map Breakpoint.pc).Nodup ∧ (d.breakpoints.map Breakpoint.id).Nodup) ∧
    (∀ later, ∀ b ∈ d.breakpoints, ∀ b' ∈ (d.session later).breakpoints, b'.id = b.id → b'.pc = b.pc) ∧
    (∀ later final, ∀ b ∈ d.breakpoints, b.id ∉ (d.session later).breakpoints.map Breakpoint.id →
      b.id ∉ ((d.session later).session final).breakpoints.map Breakpoint.id) ∧
    (∃ n, d.machine = (m.play ts).walk n) ∧
    (∀ movement : Movement, d.Travels (fun k => options.withDefaults.stepLimit ≤ 0 ∧ k = Machine.patience + 1)
      (movement.command d)) ∧
    (∀ b ∈ d.breakpoints, (d.hit b).breakpoints =
      d.breakpoints.map fun c => if c = b then { c with hits := c.hits + 1 } else c) ∧
    (d.machine.halted = false → (∀ b ∈ d.breakpoints, b.active = false) →
      verdict (Debugger.resume false d) = d.machine.run false) := by
  have plain := p.plain_of_instrs decoded
  have lands : ∀ i, some i ∈ (Code.ofInstrs is).toList → i.Lands (0 ≤ ·) := fun i mem =>
    (Program.checked_of_instrs decoded i (by simpa [Code.ofInstrs] using mem)).lands_nonneg
  have grounded := (Machine.create_grounded made).1.play lands ts
  have new : Attached (m.play ts) { machine := m.play ts, watching } :=
    ⟨⟨List.nodup_nil, List.nodup_nil, fun b mem => absurd mem List.not_mem_nil⟩, 0, rfl⟩
  intro d
  have attached : d.Attached (m.play ts) := (new.session plain lands grounded past).1
  have succeeds : ∀ later, (d.session later).Attached (m.play ts) ∧ d.Succeeds (d.session later) :=
    attached.session plain lands grounded
  refine ⟨⟨attached.distinct.pcs, attached.distinct.ids⟩, fun later b mem b' mem' same => ?_,
    fun later final b mem gone => ?_, attached.walked, fun movement => ?_, fun b => attached.distinct.hit,
    fun going inactive => verdict_runUntil _ going inactive⟩
  · obtain ⟨c, inside, id, pc⟩ := (succeeds later).2.old b' mem' (same ▸ attached.distinct.below b mem)
    rw [← pc, List.inj_on_of_nodup_map attached.distinct.ids inside mem (id.trans same)]
  · intro back
    obtain ⟨b', mem', same⟩ := List.mem_map.1 back
    obtain ⟨attached', succeeds'⟩ := succeeds later
    have issued : b'.id < (d.session later).nextId :=
      same ▸ Nat.lt_of_lt_of_le (attached.distinct.below b mem) succeeds'.nextId
    obtain ⟨c, inside, id, -⟩ := (attached'.session plain lands grounded final).2.old b' mem' issued
    exact gone (List.mem_map.2 ⟨c, inside, id.trans same⟩)
  · obtain ⟨k, walked⟩ := attached.walked
    have here : d.machine.Grounded (Code.ofInstrs is) options.withDefaults.stepLimit :=
      walked ▸ grounded.play lands _
    have travels := movement.travels (d := d) fun _ => readable_of_grounded plain here
    rwa [here.limit] at travels

/-- Does nothing twice. -/
def idleProgram : Program Datum :=
  { version := 1
    records := [{ opcode := "NOP", value := .null }, { opcode := "NOP", value := .null },
      { opcode := "DONE", value := .null }] }

/-- A breakpoint at the second instruction, and more steps than lead there. -/
def idleRequests : List Request := [.set 1, .move (.step 9)]

theorem observes_idle : ∃ m, idleProgram.instrs = .ok [.nop, .nop, .done] ∧
    Machine.create 272 (Code.ofInstrs [.nop, .nop, .done]) {} = .ok m ∧
    (session { machine := m } idleRequests).breakpoints = [{ id := 1, pc := 1, hits := 1 }] ∧
    (∃ n, (session { machine := m } idleRequests).machine = m.walk n) ∧
    (session { machine := m } idleRequests).Travels
      (fun k => ({} : Options).withDefaults.stepLimit ≤ 0 ∧ k = Machine.patience + 1)
      (Debugger.stepOver false (session { machine := m } idleRequests)) := by
  obtain ⟨m, made, stopped⟩ : ∃ m, Machine.create 272 (Code.ofInstrs [.nop, .nop, .done]) {} = .ok m ∧
      (session { machine := m } idleRequests).breakpoints = [{ id := 1, pc := 1, hits := 1 }] :=
    ⟨_, Machine.create_listed rfl, by decide +kernel⟩
  obtain ⟨-, -, -, walked, travels, -, -⟩ := observes (p := idleProgram) rfl made [] false idleRequests
  exact ⟨m, rfl, made, stopped, walked, travels .stepOver⟩

end Debugger

end FiberVm
