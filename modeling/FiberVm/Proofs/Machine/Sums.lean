import Mathlib.Algebra.Group.Int.Defs
import FiberVm.Proofs.Machine.Invocation
import FiberVm.Proofs.Machine.Sleepers

/-!
# Adding to the counter of a wait group

The counter has 32 bits and what is added to it has 64, and so has the sum. As long as the sum fits it is the sum of
the integers, and it is either the new counter or refused, for being negative or for being too large. A call that is
refused changes nothing. The sum is too large for 64 bits only if almost the largest number is added to a positive
counter. It then wraps round, and is refused for being negative.
-/

set_option autoImplicit false

namespace FiberVm

open Heap (Shows Wired)

section Sum

variable {c : Int32} {delta n : Int64}

/-- Nothing that is added to a counter falls below 64 bits. -/
theorem toInt_sum (low : 0 ≤ c) (fits : c.toInt + delta.toInt < 2 ^ 63) :
    (c.toInt64 + delta).toInt = c.toInt + delta.toInt := by
  have low : 0 ≤ c.toInt := Int32.le_iff_toInt_le.1 low
  have least := Int64.le_toInt delta
  rw [Int64.toInt_add, Int32.toInt_toInt64]
  exact Int.bmod_eq_of_le (by omega) (by omega)

theorem toInt_counter (low : ¬ n < 0) (high : ¬ 2147483647 < n) : n.toInt32.toInt = n.toInt := by
  have low : 0 ≤ n.toInt := Int.not_lt.1 fun negative => low (Int64.lt_iff_toInt_lt.2 negative)
  have high : n.toInt ≤ 2147483647 := Int.not_lt.1 fun above => high (Int64.lt_iff_toInt_lt.2 above)
  rw [Int64.toInt_toInt32, Int.bmod_eq_of_le (by omega) (by omega)]

end Sum

section Groups

variable {m : Machine} {g : Addr} {c : Int32} {ids : List Word}

/-- What is added to a counter is compared with both bounds before anything is changed. -/
theorem Exec.groupAdd_eq (s : Shows m.heap.words g (.group c ids)) (delta : Int64) :
    Exec.groupAdd g delta m =
      if c.toInt64 + delta < 0 then .error (.fault (.counterUnderflow (c.toInt64 + delta))) m
      else if 2147483647 < c.toInt64 + delta then .error (.fault (.counterCapacity (c.toInt64 + delta))) m
      else (do
        Exec.onHeap (Heap.setGroupCounter g (c.toInt64 + delta).toInt32)
        if c.toInt64 + delta = 0 then
          let ids ← Exec.onHeap (Heap.drainGroupWaiters g)
          ids.forM fun id => Exec.wake id.toInt64.toInt noAddr
        else return () : Exec Unit) m := by
  unfold Exec.groupAdd
  have counter : Exec.onHeap (Heap.groupCounter g) m = .ok c m := onHeap_ok (Heap.groupCounter_shows s)
  refine (bind_of_ok (by rw [Exec.expectTag_shows s]; rfl)).trans ((bind_of_ok counter).trans ?_)
  split
  · rfl
  split
  · rfl
  · rfl

/-- If the counter comes to zero all who wait are woken, provided that they are found. -/
theorem Exec.groupAdd_ok (s : Shows m.heap.words g (.group c ids)) (delta : Int64) (low : ¬ c.toInt64 + delta < 0)
    (high : ¬ 2147483647 < c.toInt64 + delta) (found : c.toInt64 + delta = 0 → ∀ k, ¬ m.Lost k) :
    ∃ m', Exec.groupAdd g delta m = .ok () m' ∧ Shows m'.heap.words g
      (.group (c.toInt64 + delta).toInt32 (if c.toInt64 + delta = 0 then [] else ids)) := by
  rw [Exec.groupAdd_eq s, if_neg low, if_neg high]
  obtain ⟨h₁, set, u⟩ := Heap.setGroupCounter_shows s (c.toInt64 + delta).toInt32
  rw [bind_of_ok (onHeap_ok set)]
  by_cases zero : c.toInt64 + delta = 0
  · obtain ⟨h₂, drained, u₂⟩ := Heap.drainGroupWaiters_shows u.shows
    rw [if_pos zero, if_pos zero]
    rcases Exec.wakeAll_cases ids ⟨h₂, m.control⟩ with ok | ⟨id, mem, -, -, -, -, lost⟩
    · exact ⟨_, (bind_of_ok (onHeap_ok drained)).trans ok, u₂.shows⟩
    · exact absurd ⟨lost, .inr ⟨g, c, ids, id, s, mem, rfl⟩⟩ (found zero _)
  · rw [if_neg zero, if_neg zero]
    exact ⟨_, rfl, u.shows⟩

end Groups

namespace Machine

variable {m : Machine} {i : Instr} {g : Addr} {c : Int32} {ids : List Word} {delta : Int64}

/-- The instruction is the next one, and it adds `delta` to the counter of the wait group at `g`. -/
inductive Adds (m : Machine) (i : Instr) (g : Addr) : Int64 → Prop
  | add {x : Addr} {delta : Int64} : m.Invokes i .wgAdd [g, x] → Shows m.heap.words x (.int delta) → Adds m i g delta
  | done : m.Invokes i .wgDone [g] → Adds m i g (-1)

/-- An instruction ends with a fault of this kind. -/
def FaultsWith (r : EStateM.Result Failure Machine Unit) (k : Kind) : Prop :=
  ∃ e m', r = .error (.fault e) m' ∧ e.kind = k

theorem faultsWith_fault {e : Cause} {k : Kind} : FaultsWith (.error (.fault e) m) k ↔ e.kind = k := by
  refine ⟨?_, fun kind => ⟨e, m, rfl, kind⟩⟩
  rintro ⟨_, _, ⟨⟩, kind⟩
  exact kind

theorem not_faultsWith_ok {k : Kind} : ¬ FaultsWith (.ok () m) k := by
  rintro ⟨_, _, ⟨⟩, _⟩

/-- How an instruction ends that is to give the wait group at `g`, with these entries, the counter `n`. -/
structure Sums (m : Machine) (g : Addr) (ids : List Word) (n : Int) (r : EStateM.Result Failure Machine Unit) : Prop where
  /-- The counter is what it is to be. At zero nobody waits any more. -/
  exact : 0 ≤ n → n ≤ 2147483647 → ∃ m' c', r = .ok () m' ∧ c'.toInt = n ∧
    Shows m'.heap.words g (.group c' (if n = 0 then [] else ids))
  underflow : FaultsWith r .waitGroupUnderflow ↔ n < 0
  capacity : FaultsWith r .nodeCapacity ↔ 2147483647 < n
  /-- A call that is refused changes no node, and nobody's state. -/
  refused : ∀ e m', r = .error e m' → m'.heap = m.heap ∧ m.control.sched.Undisturbed m'.control.sched

/-- Some program gets the machine there without a crash, and ids fit into an entry of a queue all along. -/
def Reached (m : Machine) : Prop :=
  ∃ size code options clock sink order m₀ ts, Machine.create size code options clock sink order = .ok m₀ ∧
    m₀.Along (fun m t => ¬ m.Crashes t ∧ m.control.sched.nextId ≤ UInt32.size) ts ∧
    m.control.sched.nextId ≤ UInt32.size ∧ m₀.play ts = m

theorem Reached.not_lost (reached : m.Reached) (fine : m.control.failed = none) (k : Int) : ¬ m.Lost k := by
  obtain ⟨_, _, _, _, _, _, m₀, ts, made, sound, few, rfl⟩ := reached
  have order : (m₀.play ts).InOrder := (((create_watches made).play sound).2.slumbers fine).toInOrder
  exact order.not_lost few k

/-- What is left of the instruction when its arguments have been read. -/
theorem Adds.instr_eq (adds : m.Adds i g delta) : ∃ args, Exec.instr i m.begun =
    (Exec.groupAdd g delta >>= fun _ => Exec.push Heap.unassigned) (m.invoked args) := by
  cases adds with
  | @add x _ invokes s =>
    have s : Shows (m.invoked [g, x]).heap.words x (.int delta) := s
    refine ⟨[g, x], invokes.instr_eq.trans ?_⟩
    refine (bind_of_ok (Exec.argument_of_getElem? rfl)).trans ?_
    exact (bind_of_ok (Exec.argument_of_getElem? rfl)).trans (bind_of_ok (Exec.intArg_shows s _))
  | done invokes => exact ⟨_, invokes.instr_eq.trans (bind_of_ok (Exec.argument_of_getElem? rfl))⟩

theorem Adds.fine (adds : m.Adds i g delta) : m.control.failed = none := by
  cases adds with
  | add invokes => exact invokes.next.1
  | done invokes => exact invokes.next.1

theorem Sums.of_fault {n : Int} {e : Cause} {m' : Machine} (heap : m'.heap = m.heap)
    (undisturbed : m.control.sched.Undisturbed m'.control.sched) (low : e.kind = .waitGroupUnderflow ↔ n < 0)
    (high : e.kind = .nodeCapacity ↔ 2147483647 < n) (out : n < 0 ∨ 2147483647 < n) :
    m.Sums g ids n (.error (.fault e) m') := by
  refine ⟨fun _ _ => by omega, faultsWith_fault.trans low, faultsWith_fault.trans high, ?_⟩
  rintro _ _ ⟨⟩
  exact ⟨heap, undisturbed⟩

theorem Sums.of_ok {n : Int} {m' : Machine} {c' : Int32} (low : 0 ≤ n) (high : n ≤ 2147483647)
    (value : c'.toInt = n) (s : Shows m'.heap.words g (.group c' (if n = 0 then [] else ids))) :
    m.Sums g ids n (.ok () m') := by
  refine ⟨fun _ _ => ⟨m', c', rfl, value, s⟩, iff_of_false not_faultsWith_ok (by omega),
    iff_of_false not_faultsWith_ok (by omega), ?_⟩
  rintro _ _ ⟨⟩

/-- As long as the sum fits into 64 bits, adding to a counter is exact: the call gives the counter the sum of the
integers, or is refused because that is negative or too large for the counter. -/
theorem sums_exact (adds : m.Adds i g delta) (s : Shows m.heap.words g (.group c ids)) (low : 0 ≤ c)
    (fits : c.toInt + delta.toInt < 2 ^ 63) (reached : c.toInt + delta.toInt = 0 → m.Reached) :
    m.Sums g ids (c.toInt + delta.toInt) (Exec.instr i m.begun) := by
  obtain ⟨args, eq⟩ := adds.instr_eq
  have s : Shows (m.invoked args).heap.words g (.group c ids) := s
  have undisturbed := m.invoked_undisturbed args
  have refuses := Exec.groupAdd_eq s delta
  have accepts := Exec.groupAdd_ok s delta
  rw [← toInt_sum low fits] at reached ⊢
  rw [eq]
  have found : c.toInt64 + delta = 0 → ∀ k, ¬ (m.invoked args).Lost k := by
    intro zero k lost
    refine (reached (by rw [zero]; rfl)).not_lost adds.fine k ?_
    rwa [Lost, undisturbed.isLive] at lost
  generalize c.toInt64 + delta = n at *
  have apart : Kind.waitGroupUnderflow ≠ Kind.nodeCapacity := by decide
  by_cases negative : n < 0
  · have negative' : n.toInt < 0 := Int64.lt_iff_toInt_lt.1 negative
    rw [if_pos negative] at refuses
    rw [bind_of_error refuses]
    exact .of_fault rfl undisturbed (iff_of_true rfl negative') (iff_of_false apart (by omega)) (.inl negative')
  by_cases above : 2147483647 < n
  · have above' : 2147483647 < n.toInt := Int64.lt_iff_toInt_lt.1 above
    rw [if_neg negative, if_pos above] at refuses
    rw [bind_of_error refuses]
    exact .of_fault rfl undisturbed (iff_of_false apart.symm (by omega)) (iff_of_true rfl above') (.inr above')
  · obtain ⟨m', run, s'⟩ := accepts negative above found
    rw [bind_of_ok run]
    have zero : n = 0 ↔ n.toInt = 0 := Int64.toInt_inj.symm
    refine .of_ok ?_ ?_ (toInt_counter negative above) ?_
    · exact Int.not_lt.1 fun low => negative (Int64.lt_iff_toInt_lt.2 low)
    · exact Int.not_lt.1 fun high => above (Int64.lt_iff_toInt_lt.2 high)
    · rwa [if_congr zero rfl rfl] at s'

/-- Adds one to the counter of a new wait group, and then another number. -/
def addProgram (delta : Int64) : Program Datum :=
  { version := 1
    records := [{ opcode := "ENTER_SCOPE", value := .null, slots := 1 },
      { opcode := "MAKE_WAITGROUP", value := .null },
      { opcode := "ASSIGN", value := .null, position := [1, 0], sym := "g" }, { opcode := "POP", value := .null },
      { opcode := "LD", value := .null, position := [0, 7], sym := "wgAdd" },
      { opcode := "LD", value := .null, position := [1, 0], sym := "g" }, { opcode := "LDC", value := .int 1 },
      { opcode := "CALL", value := .null, arity := 2 }, { opcode := "POP", value := .null },
      { opcode := "LD", value := .null, position := [0, 7], sym := "wgAdd" },
      { opcode := "LD", value := .null, position := [1, 0], sym := "g" }, { opcode := "LDC", value := .int delta },
      { opcode := "CALL", value := .null, arity := 2 }, { opcode := "DONE", value := .null }] }

def addInstrs (delta : Int64) : List Instr :=
  [.enterScope 1, .makeWaitGroup, .assign ⟨1, 0⟩ "g", .pop, .load ⟨0, 7⟩ "wgAdd", .load ⟨1, 0⟩ "g",
    .loadConst (.int .int64 1), .call 2, .pop, .load ⟨0, 7⟩ "wgAdd", .load ⟨1, 0⟩ "g", .loadConst (.int .int64 delta),
    .call 2, .done]

/-- The machine is about to add `delta` to the counter of a wait group, which is one. -/
def AboutToAdd (m : Machine) (delta : Int64) : Prop :=
  m.Executes (.call 2) ∧ m.current.operands = [336, 304, 176] ∧ Shows m.heap.words 176 (.builtin .wgAdd 2) ∧
    Shows m.heap.words 304 (.group 1 []) ∧ Shows m.heap.words 336 (.int delta) ∧
    m.control.sched.nextId ≤ UInt32.size

instance (m : Machine) (delta : Int64) : Decidable (m.AboutToAdd delta) :=
  inferInstanceAs (Decidable (_ ∧ _ ∧ _ ∧ _ ∧ _ ∧ _))

theorem AboutToAdd.adds (about : m.AboutToAdd delta) : m.Adds (.call 2) 304 delta := by
  obtain ⟨next, operands, function, -, argument, -⟩ := about
  exact .add ⟨next, .inl rfl, 176, [], operands, function⟩ argument

/-- Taking off what has been added brings the counter back to zero. -/
theorem sums_exact_back : ∃ m : Machine, (addProgram (-1)).instrs = .ok (addInstrs (-1)) ∧ m.Reached ∧
    m.Adds (.call 2) 304 (-1) ∧ Shows m.heap.words 304 (.group 1 []) ∧
    m.Sums 304 [] 0 (Exec.instr (.call 2) m.begun) := by
  have inner : ∀ pos sym, Instr.assign pos sym ∈ addInstrs (-1) → pos.frame ≠ 0 := by
    intro pos sym mem
    obtain ⟨rfl, -⟩ : pos = ⟨1, 0⟩ ∧ sym = "g" := by simpa [addInstrs] using mem
    decide
  have decoded : (addProgram (-1)).instrs = .ok (addInstrs (-1)) := rfl
  obtain ⟨m, made, about⟩ : ∃ m, Machine.create 480 (Code.ofInstrs (addInstrs (-1))) {} = .ok m ∧
      (m.play (List.replicate 12 (.step false))).AboutToAdd (-1) := ⟨_, create_listed rfl, by decide +kernel⟩
  have few := about.2.2.2.2.2
  have sound := (along_append.1 ((create_steady decoded inner made).sound_few few (.step false))).1
  have reached : (m.play (List.replicate 12 (.step false))).Reached :=
    ⟨_, _, _, _, _, _, m, _, made, sound, few, rfl⟩
  exact ⟨_, decoded, reached, about.adds, about.2.2.2.1,
    sums_exact about.adds about.2.2.2.1 (by decide) (by decide) fun _ => reached⟩

/-- The largest number that can be added makes the sum wrap round. The call is refused for taking the counter below
zero, though the sum is far above the largest counter. -/
theorem largest_sum_wraps : ∃ m : Machine,
    (addProgram 9223372036854775807).instrs = .ok (addInstrs 9223372036854775807) ∧
    (∃ m₀, Machine.create 480 (Code.ofInstrs (addInstrs 9223372036854775807)) {} = .ok m₀ ∧
      m₀.play (List.replicate 12 (.step false)) = m) ∧
    m.Adds (.call 2) 304 9223372036854775807 ∧ Shows m.heap.words 304 (.group 1 []) ∧
    (2147483647 : Int) < (1 : Int32).toInt + (9223372036854775807 : Int64).toInt ∧
    FaultsWith (Exec.instr (.call 2) m.begun) .waitGroupUnderflow ∧
    ¬ FaultsWith (Exec.instr (.call 2) m.begun) .nodeCapacity := by
  obtain ⟨m, made, about⟩ : ∃ m,
      Machine.create 480 (Code.ofInstrs (addInstrs 9223372036854775807)) {} = .ok m ∧
      (m.play (List.replicate 12 (.step false))).AboutToAdd 9223372036854775807 :=
    ⟨_, create_listed rfl, by decide +kernel⟩
  obtain ⟨args, eq⟩ := about.adds.instr_eq
  have s : Shows ((m.play (List.replicate 12 (.step false))).invoked args).heap.words 304 (.group 1 []) :=
    about.2.2.2.1
  have refuses := Exec.groupAdd_eq s 9223372036854775807
  rw [if_pos (by decide)] at refuses
  rw [bind_of_error refuses] at eq
  refine ⟨_, rfl, ⟨m, made, rfl⟩, about.adds, about.2.2.2.1, by decide, ?_, ?_⟩ <;> rw [eq, faultsWith_fault]
  · rfl
  · nofun

end Machine

end FiberVm
