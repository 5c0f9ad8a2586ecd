import FiberVm.Proofs.Machine.Invocation
import FiberVm.Proofs.Machine.Overlooks
import FiberVm.Proofs.Machine.WellTyped

/-!
# Code with missing entries

Nothing is assumed of the targets, counts, arities and ends of bodies in a program, and entries of it may be missing.
A step tells the host what is wrong with all that, with one exception. A fiber whose end is not given is looked
for the end of its body, and the entries that are looked through had better be there.

The machine is compared with one that finds an instruction, of no known kind, wherever an entry is missing.
-/

set_option autoImplicit false

namespace FiberVm

namespace Code

/-- No constant is an address. -/
def Scalar (code : Code) : Prop := ∀ a, some (.loadConst (.ref a)) ∉ code.toList

/-- An entry, or an instruction of no known kind. -/
def fill (entry : Option Instr) : Option Instr := some (entry.getD (.foreign .nop ""))

/-- The code with every missing entry filled in. -/
def filled (code : Code) : Code := code.map fill

/-- How many of the entries have this opcode. -/
def tally (op : Opcode) (entries : List (Option Instr)) : Nat := entries.countP fun entry => entry.any (·.opcode = op)

/-- An entry is missing, and up to there no more bodies end than start, `depth` of them before. -/
def Breaks (depth : Nat) (entries : List (Option Instr)) : Prop :=
  ∃ k, entries[k]? = some none ∧
    ∀ j ≤ k, tally .stopFiber (entries.take j) ≤ depth + tally .startFiber (entries.take j)

end Code

def Machine.recode (code : Code) (m : Machine) : Machine := m.modifyControl fun c => { c with code }

/-- The next step starts a fiber, and looks for the end of its body past the end of all that is there. -/
def Machine.AtGap (m : Machine) : Prop :=
  m.Executes (.startFiber 0) ∧ Code.Breaks 0 (m.control.code.toList.drop (m.current.pc + 1).toNat)

/-- A step has been made, or the host has been told why not: for the fault that has ended the machine, or because
the program is over. -/
inductive Machine.Reports : EStateM.Result Machine.Error Machine Unit → Prop
  | made (m : Machine) : Reports (.ok () m)
  | fault {f : Fault} {m : Machine} : m.control.failed = some f → Reports (.error (.fault f) m)
  | ended {m : Machine} : m.control.failed = none → m.halted → Reports (.error .halted m)

section Filling

variable {code : Code} {i : Instr}

theorem Code.toList_filled (code : Code) : code.filled.toList = code.toList.map fill := Array.toList_map

theorem Code.mem_filled (mem : some i ∈ code.filled.toList) : some i ∈ code.toList ∨ i = .foreign .nop "" := by
  rw [toList_filled] at mem
  obtain ⟨entry, inside, same⟩ := List.mem_map.1 mem
  cases entry with
  | none => exact .inr (Option.some.inj same).symm
  | some j => exact .inl (Option.some.inj same ▸ inside)

theorem Code.Scalar.plain (scalar : code.Scalar) : code.filled.Plain := by
  intro entry mem
  obtain ⟨i, rfl⟩ : ∃ i, entry = some i := by
    rw [toList_filled] at mem
    obtain ⟨entry', -, rfl⟩ := List.mem_map.1 mem
    exact ⟨_, rfl⟩
  refine ⟨i, rfl, ?_⟩
  rintro a rfl
  rcases mem_filled mem with mem | same
  · exact scalar a mem
  · cases same

theorem Code.Inner.filled (inner : code.Inner) : code.filled.Inner := by
  intro pos sym mem
  rcases mem_filled mem with mem | same
  · exact inner pos sym mem
  · cases same

end Filling

section Scanning

open Code (Breaks tally)

variable {depth index : Nat} {l : List (Option Instr)} {i : Instr} {r : Option Nat}

theorem Code.tally_cons (op : Opcode) (i : Instr) (l : List (Option Instr)) :
    tally op (some i :: l) = tally op l + if i.opcode = op then 1 else 0 := by
  simp only [tally, List.countP_cons, Option.any_some, decide_eq_true_eq]

theorem Code.breaks_cons : Breaks depth (some i :: l) ↔ ∃ k, l[k]? = some none ∧
    ∀ j ≤ k, tally .stopFiber (l.take j) + (if i.opcode = .stopFiber then 1 else 0)
      ≤ depth + (tally .startFiber (l.take j) + if i.opcode = .startFiber then 1 else 0) := by
  constructor
  · rintro ⟨k, missing, below⟩
    cases k with
    | zero => cases missing
    | succ k =>
      refine ⟨k, missing, fun j le => ?_⟩
      have here := below (j + 1) (Nat.succ_le_succ le)
      rwa [List.take_succ_cons, tally_cons, tally_cons] at here
  · rintro ⟨k, missing, below⟩
    refine ⟨k + 1, missing, fun j le => ?_⟩
    cases j with
    | zero => exact Nat.zero_le _
    | succ j =>
      rw [List.take_succ_cons, tally_cons, tally_cons]
      exact below j (Nat.le_of_succ_le_succ le)

/-- The end of a body is looked for in vain, and without an answer, if an entry is missing before it. -/
theorem Exec.scanStop_error_iff {c : Crash} :
    Exec.scanStop depth index l = .error c ↔ c = .missingInstr ∧ Breaks depth l := by
  induction l generalizing depth index with
  | nil =>
    constructor
    · intro scan
      cases scan
    · rintro ⟨-, k, missing, -⟩
      cases missing
  | cons entry l ih =>
    cases entry with
    | none =>
      have breaks : Breaks depth (none :: l) := by
        refine ⟨0, rfl, fun j le => ?_⟩
        rw [Nat.le_zero.1 le]
        exact Nat.zero_le _
      constructor
      · intro scan
        cases scan
        exact ⟨rfl, breaks⟩
      · rintro ⟨rfl, -⟩
        rfl
    | some i =>
      rw [Exec.scanStop, Code.breaks_cons]
      split
      · next starts =>
        have more : ∀ starts stops : Nat, stops ≤ depth + 1 + starts ↔
            stops + (if Opcode.startFiber = .stopFiber then 1 else 0) ≤ depth + (starts + 1) := fun _ _ => by
          rw [if_neg (by decide)]
          omega
        simp only [ih, Breaks, starts, more]
      · next starts =>
        split
        · next stops =>
          split
          · next outer =>
            -- The body ends here.
            constructor
            · intro scan
              cases scan
            · rintro ⟨-, k, -, below⟩
              have here := below 0 (Nat.zero_le k)
              simp [tally, outer] at here
          · next inner =>
            have less : ∀ stops starts : Nat, stops ≤ depth - 1 + starts ↔ stops + 1 ≤ depth + starts := fun _ _ => by
              omega
            simp only [ih, Breaks, less, Nat.add_zero]
        · next stops =>
          simp only [ih, Breaks, Nat.add_zero]

/-- Nothing that is found is lost when missing entries are filled in. -/
theorem Exec.scanStop_fill (found : Exec.scanStop depth index l = .ok r) :
    Exec.scanStop depth index (l.map Code.fill) = .ok r := by
  induction l generalizing depth index with
  | nil => exact found
  | cons entry l ih =>
    cases entry with
    | none => cases found
    | some i =>
      change Exec.scanStop depth index (some i :: l.map Code.fill) = .ok r
      rw [Exec.scanStop] at found ⊢
      split at found
      · next starts =>
        rw [if_pos starts]
        exact ih found
      · next starts =>
        rw [if_neg starts]
        split at found
        · next stops =>
          rw [if_pos stops]
          split at found
          · next outer =>
            rw [if_pos outer]
            exact found
          · next inner =>
            rw [if_neg inner]
            exact ih found
        · next stops =>
          rw [if_neg stops]
          exact ih found

end Scanning

section Starting

variable {code : Code} {m : Machine} {stop next : Int}

instance (code : Code) : Control.Rooted fun c => { c with code } where
  sched := fun _ => rfl
  sink := fun _ => rfl
  result := fun _ => rfl
  setSched := fun _ _ => rfl
  setSink := fun _ _ => rfl
  setResult := fun _ _ => rfl
  setFailed := fun _ _ => rfl
  roots := fun _ => rfl

/-- What the search for the end of a body comes to. -/
def Exec.foundStop (next : Nat) : Except Crash (Option Nat) → Exec Int
  | .ok (some i) => return i
  | .ok none => fault (.unmatchedStart ((next : Int) - 1))
  | .error c => crash c

theorem Exec.findStop_eq {next : Nat} {r : Except Crash (Option Nat)}
    (scan : Exec.scanStop 0 next (m.control.code.toList.drop next) = r) :
    Exec.findStop next m = Exec.foundStop next r m := by
  unfold Exec.findStop
  refine (bind_of_ok (x := Exec.asks (·.code)) rfl).trans ?_
  rw [scan]
  cases r with
  | error c => rfl
  | ok r => cases r <;> rfl

/-- What follows when it is known where the body ends. -/
def Exec.spawnUntil (pc stop : Int) : Exec Unit := do
  if stop < pc ∨ (← asks (fun c => (c.code.size : Int))) ≤ stop then fault (.stopOutOfRange stop)
  else
    let env ← asksFiber (·.env)
    modifySched fun s => s.spawn pc env
    jump (stop + 1)

theorem Exec.startFiber_eq (stop : Int) (m : Machine) : Exec.startFiber stop m =
    if stop = 0 then (Exec.findStop m.current.pc.toNat >>= Exec.spawnUntil m.current.pc) m
    else Exec.spawnUntil m.current.pc stop m := by
  unfold Exec.startFiber
  refine (bind_of_ok (x := Exec.asksFiber (·.pc)) rfl).trans ?_
  split <;> rfl

theorem Exec.spawnUntil_recode (size : code.size = m.control.code.size) (pc stop : Int) :
    Commutes (Machine.recode code) (Exec.spawnUntil pc stop) m := by
  refine .bind ?_ fun n t _ => ?_
  · exact congrArg (fun n : Nat => EStateM.Result.ok (n : Int) (m.recode code)) size
  · exact Exec.Overlooks.commutes (f := fun c => { c with code }) t

/-- A fiber is started in the same way with other code of the same length, if the end of its body is found there. -/
theorem Exec.startFiber_recode (size : code.size = m.control.code.size)
    (found : stop = 0 → ∃ r, Exec.scanStop 0 m.current.pc.toNat (m.control.code.toList.drop m.current.pc.toNat) = r ∧
      Exec.scanStop 0 m.current.pc.toNat (code.toList.drop m.current.pc.toNat) = r) :
    Commutes (Machine.recode code) (Exec.startFiber stop) m := by
  unfold Commutes
  rw [Exec.startFiber_eq, Exec.startFiber_eq]
  change (if stop = 0 then (Exec.findStop m.current.pc.toNat >>= Exec.spawnUntil m.current.pc) (m.recode code)
    else Exec.spawnUntil m.current.pc stop (m.recode code)) = _
  by_cases scans : stop = 0
  · rw [if_pos scans, if_pos scans]
    obtain ⟨r, here, there⟩ := found scans
    have search := Exec.findStop_eq here
    have search' := Exec.findStop_eq (m := m.recode code) there
    rcases r with c | _ | i
    · rw [bind_of_error search, bind_of_error search']
      rfl
    · rw [bind_of_error search, bind_of_error search']
      rfl
    · rw [bind_of_ok search, bind_of_ok search']
      exact Exec.spawnUntil_recode size _ _
  · rw [if_neg scans, if_neg scans]
    exact Exec.spawnUntil_recode size _ _

end Starting

section Steps

open Code (Breaks)

variable {code : Code} {m : Machine} {canceled : Bool} {i : Instr} {t : Turn}

namespace Machine

/-- A step tells the host what is wrong, unless it crashes. -/
theorem reports_iff : Reports (step canceled m) ↔ ¬ m.Crashes (.step canceled) := by
  constructor
  · intro reports
    rintro ⟨c, m', crash⟩
    rw [show step canceled m = _ from crash] at reports
    cases reports
  · intro sound
    cases m.attempt canceled with
    | failed failed _ step => exact step ▸ .fault failed
    | ended fine halted _ step => exact step ▸ .ended fine halted
    | stuck _ _ _ step => exact step ▸ .fault rfl
    | executes next =>
      change Reports (perform (.step canceled) m)
      cases next.ends canceled with
      | crashes _ step => exact absurd ⟨_, _, step⟩ sound
      | faults _ step => exact step ▸ .fault rfl
      | goes _ _ step => exact step ▸ .made _
      | stalls _ _ _ step => exact step ▸ .fault rfl

/-- A fiber whose end is looked for past a missing entry is not started. -/
theorem AtGap.step_eq (gap : m.AtGap) : step canceled m = .error (.crash .missingInstr) m.begun := by
  obtain ⟨⟨fine, more, next⟩, breaks⟩ := gap
  have scan : Exec.scanStop 0 (m.current.pc + 1).toNat (m.control.code.toList.drop (m.current.pc + 1).toNat) =
      .error .missingInstr := Exec.scanStop_error_iff.2 ⟨rfl, breaks⟩
  have start : Exec.instr (.startFiber 0) m.begun = .error (.crash .missingInstr) m.begun := by
    change Exec.startFiber 0 m.begun = _
    unfold Exec.startFiber
    refine (bind_of_ok (x := Exec.asksFiber (·.pc)) rfl).trans (bind_of_error ?_)
    exact Exec.findStop_eq (m := m.begun) scan
  rw [step_of_instr fine more next, Exec.cycle_eq]
  exact congrArg (conclude _ _ _) (bind_of_error start)

/-- The machine is like one that is paired with itself, but that entries are missing which that one has filled in. -/
def Hollow (code : Code) (m : Machine) : Prop :=
  ∃ full w, Paired ⟨code.filled, False⟩ w full full ∧ m = full.recode code

section Full

variable {full : Machine} {w : World}

theorem size_of_filled (program : full.control.code = code.filled) : code.size = full.control.code.size := by
  rw [program, Code.filled, Array.size_map]

/-- An instruction that is there is there in the filled code. -/
theorem advance_of_recode (program : full.control.code = code.filled)
    (next : (full.recode code).control.advance.2 = .ok i) : full.control.advance.2 = .ok i := by
  have size := size_of_filled program
  rw [advance_snd] at next ⊢
  change (if 0 < full.control.stepLimit ∧ full.control.stepLimit < (full.control.steps + 1 : Nat) then _
    else _) = _ at next
  split at next
  · cases next
  · next within =>
    rw [if_neg within]
    unfold Control.fetch at next ⊢
    dsimp only at next ⊢
    change (if full.control.sched.current.pc < 0 ∨ (code.size : Int) ≤ full.control.sched.current.pc then _
      else _) = _ at next
    rw [← size]
    split at next
    · cases next
    · next inside =>
      rw [if_neg inside, program]
      split at next
      · next j there =>
        have here : code.filled[full.control.sched.current.pc.toNat]? = some (some j) := by
          rw [Code.filled, Array.getElem?_map, show code[full.control.sched.current.pc.toNat]? = _ from there]
          rfl
        rw [here]
        exact next
      · cases next

/-- Such a start apart, nothing is executed in another way for the missing entries. -/
theorem instr_recode (program : full.control.code = code.filled) (executes : (full.recode code).Executes i)
    (whole : ¬ (full.recode code).AtGap) :
    Agrees (recode code) (Exec.instr i full.begun) (Exec.instr i (full.begun.recode code)) := by
  by_cases starts : ∃ stop, i = .startFiber stop
  · obtain ⟨stop, rfl⟩ := starts
    refine (Exec.startFiber_recode (m := full.begun) (size_of_filled program) fun scans => ?_).agrees
    subst scans
    cases scan : Exec.scanStop 0 full.begun.current.pc.toNat (code.toList.drop full.begun.current.pc.toNat) with
    | error c => exact absurd ⟨executes, (Exec.scanStop_error_iff.1 scan).2⟩ whole
    | ok r =>
      refine ⟨.ok r, ?_, rfl⟩
      have fills := Exec.scanStop_fill scan
      rw [List.map_drop, ← Code.toList_filled, ← program] at fills
      exact fills
  · have other : Exec.Overlooks (fun c => { c with code }) (Exec.instr i) :=
      .instr fun stop same => starts ⟨stop, same⟩
    exact other.agrees full.begun

/-- Unless the step looks for an end past a missing entry it is the same as with the code filled in. -/
theorem step_recode (program : full.control.code = code.filled) (executes : (full.recode code).Executes i)
    (whole : ¬ (full.recode code).AtGap) (sound : ¬ full.Crashes (.step canceled)) :
    step canceled (full.recode code) = after (recode code) (step canceled full) := by
  obtain ⟨fine, more, next⟩ := executes
  have run : step canceled full = _ := step_of_instr fine more (advance_of_recode program next)
  have agrees : Agrees (recode code) (Exec.cycle canceled i full.counted)
      (Exec.cycle canceled i (full.recode code).counted) := by
    rw [Exec.cycle_eq, Exec.cycle_eq]
    refine .bind (instr_recode program ⟨fine, more, next⟩ whole) fun _ m _ => ?_
    exact Exec.Overlooks.agrees (f := fun c => { c with code }) m
  rw [step_of_instr fine more next, run]
  refine agrees.conclude fun e m crash => sound ⟨e, m, ?_⟩
  rw [crash] at run
  exact run

end Full

theorem turn_of_recode {full : Machine} (same : perform t (full.recode code) = after (recode code) (perform t full)) :
    (full.recode code).turn t = (full.turn t).recode code := by
  rw [turn_of_run same, turn]
  cases perform t full <;> rfl

theorem collect_recode (code : Code) (m : Machine) :
    perform .collect (m.recode code) = after (recode code) (perform .collect m) := by
  have visits : (m.recode code).control.visit (m.recode code).heap.stats.collections =
      m.control.visit m.heap.stats.collections := rfl
  unfold perform
  dsimp only
  rw [visits, show (m.recode code).heap = m.heap from rfl]
  cases Heap.collect (m.control.visit m.heap.stats.collections) m.heap with
  | ok n h => rfl
  | error e h => cases e <;> rfl

/-- No turn leads out of these machines, and none crashes unless it looks for an end past a missing entry. -/
theorem Hollow.turn (hollow : m.Hollow code) (inner : code.Inner) (t : Turn) :
    (m.turn t).Hollow code ∧ (m.Crashes t → m.AtGap) := by
  obtain ⟨full, w, paired, rfl⟩ := hollow
  have program := paired.alike.control.program
  have safe : ¬ full.StoresCollectable := paired.not_stores inner.filled
  obtain ⟨sound, w', alike, running, -⟩ := paired.alone t (fun _ => safe) fun _ => False.elim
  -- A turn that is the same with the code filled in.
  have agrees : perform t (full.recode code) = after (recode code) (perform t full) →
      ((full.recode code).turn t).Hollow code ∧ ((full.recode code).Crashes t → (full.recode code).AtGap) := by
    intro same
    refine ⟨⟨full.turn t, _, alike.settle running, turn_of_recode same⟩, ?_⟩
    rintro ⟨c, m', crash⟩
    refine absurd ?_ sound
    rw [same] at crash
    cases run : perform t full with
    | ok u m => 
      rw [run] at crash
      cases crash
    | error e m =>
      rw [run] at crash
      cases crash
      exact ⟨c, m, run⟩
  cases t with
  | collect => exact agrees (collect_recode code full)
  | step canceled =>
    cases (full.recode code).attempt canceled with
    | failed failed _ run =>
      refine agrees (Eq.trans run ?_)
      rw [show perform (.step canceled) full = _ from step_of_failed failed]
      rfl
    | ended fine halted _ run =>
      refine agrees (Eq.trans run ?_)
      rw [show perform (.step canceled) full = _ from step_of_halted fine halted]
      rfl
    | stuck _ _ _ run =>
      have run : perform (.step canceled) (full.recode code) = _ := run
      rw [turn_of_run run]
      refine ⟨⟨full.counted.modifyControl _, _, (paired.alike.counted.fail rfl).settle (.of_failed rfl), rfl⟩, ?_⟩
      exact fun crash => absurd crash (not_crashes_of_fail run)
    | executes executes =>
      by_cases gap : (full.recode code).AtGap
      · have run : perform (.step canceled) (full.recode code) = .error (.crash .missingInstr) _ := gap.step_eq
        rw [turn_of_run run]
        refine ⟨⟨full.begun, _, paired.alike.counted.fetched.settle ?_, rfl⟩, fun _ => gap⟩
        exact fun _ _ => paired.running executes.1 executes.2.1
      · exact agrees (step_recode program executes gap sound)

theorem Hollow.play (hollow : m.Hollow code) (inner : code.Inner) (ts : List Turn) : (m.play ts).Hollow code := by
  induction ts generalizing m with
  | nil => exact hollow
  | cons t ts ih => exact ih (hollow.turn inner t).1

theorem create_hollow {size : Int} {options : Options} {clock : Clock} {sink : Sink} {order : Enumeration}
    (scalar : code.Scalar) (made : Machine.create size code options clock sink order = .ok m) : m.Hollow code := by
  obtain ⟨h, heap, rfl⟩ := create_eq made
  obtain ⟨full, filled, same⟩ : ∃ full, Machine.create size code.filled options clock sink order = .ok full ∧
      full.recode code = ⟨h, _⟩ := by
    unfold Machine.create
    rw [heap]
    exact ⟨_, rfl, rfl⟩
  exact ⟨full, _, create_paired scalar.plain filled filled False, same.symm⟩

end Machine

end Steps

namespace Machine

/-- Whatever is wrong with a program, every step of every run tells the host, unless a fiber is to be started whose end
is looked for past a missing entry. That step crashes, and it does not keep later ones from telling. -/
theorem steps_report {size : Int} {code : Code} {options : Options} {clock : Clock} {sink : Sink} {order : Enumeration}
    {m : Machine} (scalar : code.Scalar) (inner : code.Inner)
    (made : Machine.create size code options clock sink order = .ok m) (ts : List Turn) (canceled : Bool) :
    (Reports (step canceled (m.play ts)) ↔ ¬ (m.play ts).AtGap) ∧
      ((m.play ts).AtGap → ∃ m', step canceled (m.play ts) = .error (.crash .missingInstr) m') := by
  have crashes : (m.play ts).AtGap → ∃ m', step canceled (m.play ts) = .error (.crash .missingInstr) m' := fun gap =>
    ⟨_, gap.step_eq⟩
  refine ⟨reports_iff.trans (not_congr ⟨?_, fun gap => ?_⟩), crashes⟩
  · exact (((create_hollow scalar made).play inner ts).turn inner _).2
  · obtain ⟨m', crash⟩ := crashes gap
    exact ⟨_, m', crash⟩

/-- Leaves the program at its first instruction. -/
def strayCode : Code := #[some (.goto (-7)), none]

/-- Starts a fiber whose body does not end. -/
def endlessCode : Code := #[some (.startFiber 0), none]

/-- The step is the one that crashes. -/
theorem atGap_endless {m : Machine} (code : m.control.code = endlessCode) (next : m.Executes (.startFiber 0))
    (first : m.current.pc = 0) : m.AtGap := by
  refine ⟨next, 0, ?_, fun j le => ?_⟩
  · rw [code, first]
    rfl
  · rw [Nat.le_zero.1 le]
    exact Nat.zero_le _

theorem steps_report_stray : ∃ m m' : Machine, strayCode.Scalar ∧ strayCode.Inner ∧ endlessCode.Scalar ∧
    endlessCode.Inner ∧ Machine.create 336 strayCode {} = .ok m ∧ Machine.create 336 endlessCode {} = .ok m' ∧
    Reports (step false (m.play [.step false])) ∧
    ∃ m'', step false (m'.play []) = .error (.crash .missingInstr) m'' := by
  obtain ⟨m, made, stray⟩ : ∃ m, Machine.create 336 strayCode {} = .ok m ∧
      ¬ (m.play [.step false]).Executes (.startFiber 0) := ⟨_, Machine.create_listed rfl, by decide +kernel⟩
  obtain ⟨m', made', starts⟩ : ∃ m', Machine.create 336 endlessCode {} = .ok m' ∧
      m'.control.code = endlessCode ∧ m'.Executes (.startFiber 0) ∧ m'.current.pc = 0 :=
    ⟨_, Machine.create_listed rfl, rfl, by decide +kernel, rfl⟩
  have scalar : strayCode.Scalar := by simp [strayCode, Code.Scalar]
  have inner : strayCode.Inner := by simp [strayCode, Code.Inner]
  have scalar' : endlessCode.Scalar := by simp [endlessCode, Code.Scalar]
  have inner' : endlessCode.Inner := by simp [endlessCode, Code.Inner]
  refine ⟨m, m', scalar, inner, scalar', inner', made, made', ?_, ?_⟩
  · exact (steps_report scalar inner made [.step false] false).1.2 fun gap => stray gap.1
  · exact (steps_report scalar' inner' made' [] false).2 (atGap_endless starts.1 starts.2.1 starts.2.2)

/-- A step that tells nobody: the end of the body is looked for behind the last instruction, where an entry is missing. -/
theorem missing_entry_crashes : ∃ m m' : Machine, endlessCode.Scalar ∧ endlessCode.Inner ∧
    Machine.create 336 endlessCode {} = .ok m ∧ step false m = .error (.crash .missingInstr) m' ∧
    ¬ Reports (step false m) := by
  obtain ⟨m, made, code, starts, first⟩ : ∃ m, Machine.create 336 endlessCode {} = .ok m ∧
      m.control.code = endlessCode ∧ m.Executes (.startFiber 0) ∧ m.current.pc = 0 :=
    ⟨_, Machine.create_listed rfl, rfl, by decide +kernel, rfl⟩
  have crash : step false m = _ := (atGap_endless code starts first).step_eq
  refine ⟨m, _, by simp [endlessCode, Code.Scalar], by simp [endlessCode, Code.Inner], made, crash, ?_⟩
  rw [crash]
  intro reports
  cases reports

end Machine

end FiberVm
