import Mathlib.Order.Bounds.Basic
import FiberVm.Machine.Run
import FiberVm.Proofs.Machine.Gaps

/-!
# Where the body of a fiber ends

A fiber that starts another goes on behind the end of its body. The index of the end may be given. Otherwise it is
looked for, and starts and ends then match like brackets.

So it makes no difference whether an end that matches is given or looked for. The machine with the one program is
compared with the machine with the other, and they do the same in every turn, whatever state they are in.
-/

set_option autoImplicit false

namespace FiberVm

namespace Code

/-- As many bodies start as end, and none ends that has not started. -/
def Balanced (entries : List (Option Instr)) : Prop :=
  tally .startFiber entries = tally .stopFiber entries ∧
    ∀ k, tally .stopFiber (entries.take k) ≤ tally .startFiber (entries.take k)

/-- A body ends at the second index, and between the two the bodies are balanced. -/
def Closes (code : Code) (i j : Nat) : Prop :=
  i < j ∧ (∃ e, code[j]? = some (some e) ∧ e.opcode = .stopFiber) ∧ Balanced ((code.toList.take j).drop (i + 1))

/-- Of the starts whose ends are given, and match, some have their ends looked for instead. -/
def Elides (code code' : Code) : Prop :=
  ∀ i : Nat, code'[i]? = code[i]? ∨ ∃ j : Nat, IsLeast {k | code.Closes i k} j ∧
    code[i]? = some (some (.startFiber j)) ∧ code'[i]? = some (some (.startFiber 0))

/-- The body that `depth` more are in ends at this entry. -/
structure EndsAt (depth : Nat) (l : List (Option Instr)) (k : Nat) : Prop where
  stop : ∃ e, l[k]? = some (some e) ∧ e.opcode = .stopFiber
  level : depth + tally .startFiber (l.take k) = tally .stopFiber (l.take k)
  inside : ∀ j ≤ k, tally .stopFiber (l.take j) ≤ depth + tally .startFiber (l.take j)

section EndsAt

variable {depth k : Nat} {i : Instr} {l : List (Option Instr)}

theorem ends_zero : EndsAt depth (some i :: l) 0 ↔ i.opcode = .stopFiber ∧ depth = 0 := by
  constructor
  · intro ends
    obtain ⟨e, here, stops⟩ := ends.stop
    cases here
    exact ⟨stops, ends.level⟩
  · rintro ⟨stops, rfl⟩
    refine ⟨⟨i, rfl, stops⟩, rfl, ?_⟩
    intro j le
    rw [Nat.le_zero.1 le]
    exact Nat.zero_le _

/-- What ends behind an entry is seen from behind it, with the depth that the entry leads to. -/
theorem ends_succ (depth' : Nat) (shift : depth' + (if i.opcode = .stopFiber then 1 else 0) =
    depth + if i.opcode = .startFiber then 1 else 0) : EndsAt depth (some i :: l) (k + 1) ↔ EndsAt depth' l k := by
  constructor
  · intro ends
    refine ⟨ends.stop, ?_, ?_⟩
    · have level := ends.level
      rw [List.take_succ_cons, tally_cons, tally_cons] at level
      omega
    · intro j le
      have inside := ends.inside (j + 1) (Nat.succ_le_succ le)
      rw [List.take_succ_cons, tally_cons, tally_cons] at inside
      omega
  · intro ends
    refine ⟨ends.stop, ?_, ?_⟩
    · have level := ends.level
      rw [List.take_succ_cons, tally_cons, tally_cons]
      omega
    · intro j le
      cases j with
      | zero => exact Nat.zero_le _
      | succ j =>
        have inside := ends.inside j (Nat.le_of_succ_le_succ le)
        rw [List.take_succ_cons, tally_cons, tally_cons]
        omega

end EndsAt

end Code

section Scanning

open Code (EndsAt tally)

variable {depth index : Nat} {i : Instr} {l l' : List (Option Instr)}

/-- The search goes on behind an entry if nothing ends there. -/
theorem Exec.scanStop_cons (more : ¬ (i.opcode = .stopFiber ∧ depth = 0)) :
    ∃ depth', Exec.scanStop depth index (some i :: l) = Exec.scanStop depth' (index + 1) l ∧
      depth' + (if i.opcode = .stopFiber then 1 else 0) = depth + if i.opcode = .startFiber then 1 else 0 := by
  rw [Exec.scanStop]
  by_cases starts : i.opcode = .startFiber
  · refine ⟨depth + 1, if_pos starts, ?_⟩
    rw [starts]
    rfl
  · rw [if_neg starts]
    by_cases stops : i.opcode = .stopFiber
    · have inner : depth ≠ 0 := fun outer => more ⟨stops, outer⟩
      refine ⟨depth - 1, by rw [if_pos stops, if_neg inner], ?_⟩
      rw [if_pos stops, if_neg starts]
      omega
    · exact ⟨depth, if_neg stops, by rw [if_neg stops, if_neg starts]⟩

theorem Exec.scanStop_ok_iff (whole : none ∉ l) {j : Nat} :
    Exec.scanStop depth index l = .ok (some j) ↔ ∃ k, j = index + k ∧ EndsAt depth l k := by
  induction l generalizing depth index with
  | nil =>
    constructor
    · intro scan
      cases scan
    · rintro ⟨k, -, ends⟩
      obtain ⟨e, here, -⟩ := ends.stop
      cases here
  | cons entry l ih =>
    obtain ⟨i, rfl⟩ := Option.ne_none_iff_exists'.1 fun missing => whole (missing ▸ List.mem_cons_self)
    have whole' : none ∉ l := fun mem => whole (List.mem_cons_of_mem _ mem)
    by_cases here : i.opcode = .stopFiber ∧ depth = 0
    · have scan : Exec.scanStop depth index (some i :: l) = .ok (some index) := by
        rw [Exec.scanStop, if_neg (by rw [here.1]; decide), if_pos here.1, if_pos here.2]
      rw [scan]
      constructor
      · intro same
        cases same
        exact ⟨0, rfl, Code.ends_zero.2 here⟩
      · rintro ⟨k, rfl, ends⟩
        cases k with
        | zero => rfl
        | succ k =>
          -- A later end would have to be the end of another body.
          have inside := ends.inside 1 (Nat.succ_le_succ (Nat.zero_le k))
          simp [tally, here.1, here.2, show Opcode.stopFiber ≠ .startFiber by decide] at inside
    · obtain ⟨depth', scan, shift⟩ := @Exec.scanStop_cons depth index i l here
      rw [scan, ih whole']
      constructor
      · rintro ⟨k, rfl, ends⟩
        exact ⟨k + 1, by omega, (Code.ends_succ depth' shift).2 ends⟩
      · rintro ⟨k, rfl, ends⟩
        cases k with
        | zero => exact absurd (Code.ends_zero.1 ends) here
        | succ k => exact ⟨k, by omega, (Code.ends_succ depth' shift).1 ends⟩

theorem Exec.scanStop_none_iff (whole : none ∉ l) :
    Exec.scanStop depth index l = .ok none ↔ ∀ k, ¬ EndsAt depth l k := by
  constructor
  · intro scan k ends
    have found : Exec.scanStop depth index l = .ok (some (index + k)) := (Exec.scanStop_ok_iff whole).2 ⟨k, rfl, ends⟩
    cases scan.symm.trans found
  · intro endless
    cases scan : Exec.scanStop depth index l with
    | error c =>
      obtain ⟨-, k, missing, -⟩ := Exec.scanStop_error_iff.1 scan
      exact absurd (List.mem_of_getElem? missing) whole
    | ok r =>
      cases r with
      | none => rfl
      | some j =>
        obtain ⟨k, -, ends⟩ := (Exec.scanStop_ok_iff whole).1 scan
        exact absurd ends (endless k)

theorem Exec.scanStop_congr (same : l.map (Option.map Instr.opcode) = l'.map (Option.map Instr.opcode)) :
    Exec.scanStop depth index l = Exec.scanStop depth index l' := by
  induction l generalizing l' depth index with
  | nil =>
    obtain rfl : l' = [] := by simpa using same.symm
    rfl
  | cons entry l ih =>
    cases l' with
    | nil => simp at same
    | cons entry' l' =>
      simp only [List.map_cons, List.cons.injEq] at same
      obtain ⟨here, rest⟩ := same
      cases entry with
      | none =>
        obtain rfl : entry' = none := by simpa using here.symm
        rfl
      | some i =>
        cases entry' with
        | none => simp at here
        | some i' =>
          have op : i.opcode = i'.opcode := by simpa using here
          simp only [Exec.scanStop, op, ih rest]

end Scanning

section Closing

open Code (tally)

variable {code : Code} {i j : Nat}

theorem Code.closes_iff : code.Closes i j ↔ ∃ k, j = i + 1 + k ∧ EndsAt 0 (code.toList.drop (i + 1)) k := by
  have between (k : Nat) : (code.toList.take (i + 1 + k)).drop (i + 1) = (code.toList.drop (i + 1)).take k := by
    rw [List.drop_take, Nat.add_sub_cancel_left]
  have entry (k : Nat) : (code.toList.drop (i + 1))[k]? = code[i + 1 + k]? := by
    rw [List.getElem?_drop, Array.getElem?_toList]
  constructor
  · rintro ⟨lt, stop, level, inside⟩
    obtain ⟨k, rfl⟩ := Nat.exists_eq_add_of_le (Nat.succ_le_of_lt lt)
    rw [between] at level inside
    refine ⟨k, rfl, (entry k).symm ▸ stop, by rw [Nat.zero_add, level], ?_⟩
    intro n le
    have below := inside n
    rwa [List.take_take, Nat.min_eq_left le, ← Nat.zero_add (tally .startFiber _)] at below
  · rintro ⟨k, rfl, ends⟩
    refine ⟨by omega, (entry k) ▸ ends.stop, ?_, ?_⟩
    · rw [between, ← ends.level, Nat.zero_add]
    · intro n
      rw [between, List.take_take, ← Nat.zero_add (tally .startFiber _)]
      exact ends.inside _ (Nat.min_le_right n k)

variable {m : Machine}

theorem Exec.scanStop_closes_iff (whole : none ∉ code.toList) :
    Exec.scanStop 0 (i + 1) (code.toList.drop (i + 1)) = .ok (some j) ↔ code.Closes i j := by
  rw [Exec.scanStop_ok_iff fun mem => whole (List.mem_of_mem_drop mem), Code.closes_iff]

theorem Exec.findStop_of_closes (whole : none ∉ m.control.code.toList) (closes : m.control.code.Closes i j) :
    Exec.findStop (i + 1) m = .ok (j : Int) m :=
  Exec.findStop_eq ((Exec.scanStop_closes_iff whole).2 closes)

theorem Exec.findStop_of_endless (whole : none ∉ m.control.code.toList) (endless : ∀ j, ¬ m.control.code.Closes i j) :
    Exec.findStop (i + 1) m = .error (.fault (.unmatchedStart i)) m := by
  have scan : Exec.scanStop 0 (i + 1) (m.control.code.toList.drop (i + 1)) = .ok none := by
    refine (Exec.scanStop_none_iff fun mem => whole (List.mem_of_mem_drop mem)).2 fun k ends => ?_
    exact endless _ (Code.closes_iff.2 ⟨k, rfl, ends⟩)
  refine (Exec.findStop_eq scan).trans ?_
  rw [Exec.foundStop, show ((i + 1 : Nat) : Int) - 1 = i by omega]
  rfl

theorem Code.Closes.unique {j' : Nat} (whole : none ∉ code.toList) (closes : code.Closes i j) (closes' : code.Closes i j') :
    j = j' := by
  have scan := (Exec.scanStop_closes_iff whole).2 closes
  cases scan.symm.trans ((Exec.scanStop_closes_iff whole).2 closes')
  rfl

theorem Code.Closes.isLeast (whole : none ∉ code.toList) (closes : code.Closes i j) :
    IsLeast {k | code.Closes i k} j :=
  ⟨closes, fun _ closes' => (closes.unique whole closes').le⟩

theorem Exec.findStop_iff (whole : none ∉ m.control.code.toList) (r : Int) :
    Exec.findStop (i + 1) m = .ok r m ↔ ∃ j : Nat, r = j ∧ IsLeast {k | m.control.code.Closes i k} j := by
  constructor
  · intro found
    by_cases closes : ∃ j, m.control.code.Closes i j
    · obtain ⟨j, closes⟩ := closes
      cases (Exec.findStop_of_closes whole closes).symm.trans found
      exact ⟨j, rfl, closes.isLeast whole⟩
    · cases (Exec.findStop_of_endless whole (not_exists.1 closes)).symm.trans found
  · rintro ⟨j, rfl, least⟩
    exact Exec.findStop_of_closes whole least.1

variable {code' : Code}

theorem Code.Elides.ops (elides : code.Elides code') :
    code'.toList.map (Option.map Instr.opcode) = code.toList.map (Option.map Instr.opcode) := by
  apply List.ext_getElem?
  intro i
  rw [List.getElem?_map, List.getElem?_map, Array.getElem?_toList, Array.getElem?_toList]
  rcases elides i with same | ⟨j, -, here, there⟩
  · rw [same]
  · rw [here, there]
    rfl

theorem Code.Elides.size_eq (elides : code.Elides code') : code'.size = code.size := by
  have lengths := congrArg List.length elides.ops
  rwa [List.length_map, List.length_map, Array.length_toList, Array.length_toList] at lengths

end Closing

namespace Machine

section Endless

variable {m : Machine} {canceled : Bool}

theorem Executes.pc_nonneg {i : Instr} (next : m.Executes i) : 0 ≤ m.current.pc := by
  have fetched := fetch_of_advance next.2.2
  unfold Control.fetch at fetched
  dsimp only at fetched
  split at fetched
  · cases fetched
  · next inside => exact not_lt.1 fun neg => inside (.inl neg)

/-- A fiber whose body does not end is not started, and the machine fails. -/
theorem step_of_endless (whole : none ∉ m.control.code.toList) (next : m.Executes (.startFiber 0))
    (endless : ∀ j, ¬ m.control.code.Closes m.current.pc.toNat j) :
    step canceled m = fail m.begun ⟨.unmatchedStart m.current.pc, m.current.id, m.current.pc, some .startFiber⟩ := by
  have pc : m.begun.current.pc.toNat = m.current.pc.toNat + 1 := Int.toNat_add next.pc_nonneg Int.one_nonneg
  have search : Exec.findStop m.begun.current.pc.toNat m.begun = .error (.fault (.unmatchedStart m.current.pc)) m.begun := by
    rw [pc, Exec.findStop_of_endless (m := m.begun) whole endless, Int.toNat_of_nonneg next.pc_nonneg]
  have start : Exec.instr (.startFiber 0) m.begun = .error (.fault (.unmatchedStart m.current.pc)) m.begun := by
    change Exec.startFiber 0 m.begun = _
    rw [Exec.startFiber_eq, if_pos rfl]
    exact bind_of_error search
  rw [step_of_instr next.1 next.2.1 next.2.2, Exec.cycle_eq]
  exact congrArg (conclude _ _ _) (bind_of_error start)

end Endless

section Eliding

variable {code' : Code} {m : Machine} {i : Instr}

theorem instr_elide (elides : m.control.code.Elides code') (i : Instr) :
    Commutes (recode code') (Exec.instr i) m := by
  -- Only a start reads the program, and what it reads are opcodes.
  by_cases starts : ∃ stop, i = .startFiber stop
  · obtain ⟨stop, rfl⟩ := starts
    refine Exec.startFiber_recode elides.size_eq fun _ => ⟨_, rfl, Exec.scanStop_congr ?_⟩
    rw [List.map_drop, List.map_drop, elides.ops]
  · have other : Exec.Overlooks (fun c => { c with code := code' }) (Exec.instr i) :=
      .instr fun stop same => starts ⟨stop, same⟩
    exact other.commutes m

theorem cycle_elide (elides : m.control.code.Elides code') (canceled : Bool) (i : Instr) :
    Commutes (recode code') (Exec.cycle canceled i) m := by
  have commutes : Commutes (recode code') (Exec.instr i >>= fun _ => Exec.finish canceled) m.fetched :=
    .bind (instr_elide (m := m.fetched) elides i) fun _ t _ =>
      Exec.Overlooks.commutes (f := fun c => { c with code := code' }) t
  exact commutes

/-- A fiber is started in the same way whether its end is given or looked for. -/
theorem startFiber_of_closes {stop : Nat} (whole : none ∉ m.control.code.toList) {pc : Nat}
    (here : m.current.pc.toNat = pc + 1) (closes : m.control.code.Closes pc stop) :
    Exec.startFiber 0 m = Exec.startFiber stop m := by
  have given : (stop : Int) ≠ 0 := by
    have := closes.1
    omega
  rw [Exec.startFiber_eq, Exec.startFiber_eq, if_pos rfl, if_neg given, here]
  exact bind_of_ok (Exec.findStop_of_closes whole closes)

/-- The other program has the same instruction next, or the same start of a fiber with its end looked for. -/
theorem fetch_elide (elides : m.control.code.Elides code') :
    (m.recode code').control.fetch = m.control.fetch ∨ ∃ j : Nat, m.control.fetch = .ok (.startFiber j) ∧
      (m.recode code').control.fetch = .ok (.startFiber 0) ∧ m.control.code.Closes m.current.pc.toNat j := by
  have program : (m.recode code').control.code = code' := rfl
  have place : (m.recode code').control.sched = m.control.sched := rfl
  have own : m.control.sched.current = m.current := rfl
  unfold Control.fetch
  dsimp only
  rw [program, place, own, elides.size_eq]
  split
  · exact .inl rfl
  · rcases elides m.current.pc.toNat with same | ⟨j, least, given, looked⟩
    · rw [same]
      exact .inl rfl
    · rw [given, looked]
      exact .inr ⟨j, rfl, rfl, least.1⟩

theorem advance_elide (elides : m.control.code.Elides code') :
    (m.recode code').control.advance.2 = m.control.advance.2 ∨ ∃ j : Nat, m.control.advance.2 = .ok (.startFiber j) ∧
      (m.recode code').control.advance.2 = .ok (.startFiber 0) ∧ m.control.code.Closes m.current.pc.toNat j := by
  have counted : (m.recode code').control.stepLimit = m.control.stepLimit ∧
      (m.recode code').control.steps = m.control.steps := ⟨rfl, rfl⟩
  rw [advance_snd, advance_snd, counted.1, counted.2]
  split
  · exact .inl rfl
  · exact fetch_elide elides

theorem cycle_congr {canceled : Bool} {i i' : Instr} (same : Exec.instr i m.begun = Exec.instr i' m.begun) :
    Exec.cycle canceled i m.counted = Exec.cycle canceled i' m.counted := by
  change Exec.instr i m.counted.fetched = Exec.instr i' m.counted.fetched at same
  rw [Exec.cycle_eq, Exec.cycle_eq]
  cases run : Exec.instr i m.counted.fetched with
  | ok u t => rw [bind_of_ok run, bind_of_ok (same.symm.trans run)]
  | error e t => rw [bind_of_error run, bind_of_error (same.symm.trans run)]

theorem conclude_recode (fiber : Nat) (pc : Int) (op : Opcode) (r : EStateM.Result Failure Machine Unit) :
    conclude fiber pc op (after (recode code') r) = after (recode code') (conclude fiber pc op r) :=
  conclude_after (f := fun c => { c with code := code' }) fiber pc op r

theorem step_elide (whole : none ∉ m.control.code.toList) (elides : m.control.code.Elides code') (canceled : Bool) :
    step canceled (m.recode code') = after (recode code') (step canceled m) := by
  cases m.attempt canceled with
  | failed failed _ run =>
    rw [run, step_of_failed (m := m.recode code') failed]
    rfl
  | ended fine halted _ run =>
    rw [run, step_of_halted (m := m.recode code') fine halted]
    rfl
  | stuck fine more next run =>
    have next' : (m.recode code').control.advance.2 = _ := (advance_elide elides).resolve_right ?_
    · rw [run, step_of_stuck (m := m.recode code') fine more (next'.trans next)]
      rfl
    · rintro ⟨j, given, -⟩
      cases next.symm.trans given
  | @executes i next run =>
    rw [run, ← conclude_recode]
    rcases advance_elide elides with same | ⟨j, given, looked, closes⟩
    · rw [step_of_instr (m := m.recode code') next.1 next.2.1 (same.trans next.2.2)]
      exact congrArg _ (cycle_elide (m := m.counted) elides canceled i)
    · -- One program names the end and the other looks for it: with either program in place that makes no difference.
      cases next.2.2.symm.trans given
      have begins : m.begun.current.pc.toNat = m.current.pc.toNat + 1 := Int.toNat_add next.pc_nonneg Int.one_nonneg
      have starts : Exec.instr (.startFiber 0) m.begun = Exec.instr (.startFiber j) m.begun :=
        startFiber_of_closes (m := m.begun) whole begins closes
      rw [step_of_instr (m := m.recode code') next.1 next.2.1 looked, ← cycle_congr starts]
      exact congrArg _ (cycle_elide (m := m.counted) elides canceled (.startFiber 0))

theorem perform_elide (whole : none ∉ m.control.code.toList) (elides : m.control.code.Elides code') (t : Turn) :
    perform t (m.recode code') = after (recode code') (perform t m) := by
  cases t with
  | step canceled => exact step_elide whole elides canceled
  | collect => exact collect_recode code' m

theorem turn_code (whole : none ∉ m.control.code.toList) (t : Turn) : (m.turn t).control.code = m.control.code := by
  -- Putting the machine's own program in place changes nothing, neither before the turn nor after it.
  have elides : m.control.code.Elides m.control.code := fun _ => .inl rfl
  have same := turn_of_recode (perform_elide whole elides t)
  exact congrArg (·.control.code) same

theorem play_code (whole : none ∉ m.control.code.toList) (ts : List Turn) : (m.play ts).control.code = m.control.code := by
  induction ts generalizing m with
  | nil => rfl
  | cons t ts ih =>
    have program := turn_code whole t
    exact (ih (program ▸ whole)).trans program

theorem play_elide (whole : none ∉ m.control.code.toList) (elides : m.control.code.Elides code') (ts : List Turn) :
    (m.recode code').play ts = (m.play ts).recode code' := by
  induction ts generalizing m with
  | nil => rfl
  | cons t ts ih =>
    have program := turn_code whole t
    change ((m.recode code').turn t).play ts = ((m.turn t).play ts).recode code'
    rw [turn_of_recode (perform_elide whole elides t)]
    exact ih (program ▸ whole) (program ▸ elides)

theorem event?_elide (elides : m.control.code.Elides code') : (m.recode code').event? = m.event? := by
  have live : ((m.recode code').control.failed.isSome || (m.recode code').halted) =
      (m.control.failed.isSome || m.halted) := rfl
  unfold event?
  rw [live]
  rcases advance_elide elides with same | ⟨j, given, looked, -⟩
  · rw [same]
    rfl
  · rw [given, looked]
    rfl

theorem runFor_elide {ω : Type} (observe : ω → Event → ω) (canceled : Bool) (fuel : Nat) (o : ω)
    (whole : none ∉ m.control.code.toList) (elides : m.control.code.Elides code') :
    runFor observe canceled fuel o (m.recode code') =
      (runFor observe canceled fuel o m).map id (Prod.map id (recode code')) := by
  induction fuel generalizing o m with
  | zero => rfl
  | succ fuel ih =>
    unfold runFor
    rw [event?_elide elides, step_elide whole elides]
    change (if m.halted then _ else if canceled && m.control.steps % 1024 == 0 then _ else _) = _
    split
    · rfl
    · split
      · rfl
      · cases run : step canceled m with
        | ok u m' =>
          have left : m.turn (.step canceled) = m' := turn_of_run (t := .step canceled) run
          have program : m'.control.code = m.control.code := left ▸ turn_code whole (.step canceled)
          exact ih _ (program ▸ whole) (program ▸ elides)
        | error e m' => rfl

end Eliding

section Create

variable {size : Int} {code : Code} {options : Options} {clock : Clock} {sink : Sink} {order : Enumeration} {m : Machine}

theorem create_code (made : Machine.create size code options clock sink order = .ok m) : m.control.code = code := by
  obtain ⟨h, heap, rfl⟩ := create_eq made
  rfl

theorem create_recode (made : Machine.create size code options clock sink order = .ok m) (code' : Code) :
    Machine.create size code' options clock sink order = .ok (m.recode code') := by
  obtain ⟨h, heap, rfl⟩ := create_eq made
  unfold Machine.create
  rw [heap]
  rfl

end Create

/-- **Starts and ends match like brackets.** In a program without missing entries the end of a body is found at the
first index behind the start where a body ends and the bodies in between are balanced. If there is none, the step that
looks for it fails, and starts no fiber. Hence it makes no difference to any run if an end that is given, and matches,
is looked for instead. -/
theorem bodies_match {code : Code} (whole : none ∉ code.toList) :
    (∀ (m : Machine) (i : Nat) (r : Int), m.control.code = code →
        (Exec.findStop (i + 1) m = .ok r m ↔ ∃ j : Nat, r = j ∧ IsLeast {k | code.Closes i k} j)) ∧
      (∀ (m : Machine) (canceled : Bool), m.control.code = code → m.Executes (.startFiber 0) →
        (∀ j, ¬ code.Closes m.current.pc.toNat j) → ∃ m',
          step canceled m = fail m' ⟨.unmatchedStart m.current.pc, m.current.id, m.current.pc, some .startFiber⟩ ∧
          (Cause.unmatchedStart m.current.pc).kind = .malformedProgram ∧ m'.heap = m.heap ∧
          m'.control.sched = { m.control.sched with
            clock := m.control.sched.clock.tick
            current := { m.control.sched.current with pc := m.control.sched.current.pc + 1 } }) ∧
      ∀ (code' : Code), code.Elides code' → ∀ (size : Int) (options : Options) (clock : Clock) (sink : Sink)
        (order : Enumeration) (m : Machine), Machine.create size code options clock sink order = .ok m →
        ∃ m', Machine.create size code' options clock sink order = .ok m' ∧
          (∀ ts, m'.play ts = (m.play ts).recode code') ∧
          (∀ ts canceled, step canceled (m'.play ts) = after (recode code') (step canceled (m.play ts))) ∧
          (∀ ts, (m'.play ts).event? = (m.play ts).event?) ∧
          ∀ {ω : Type} (f : ω → Event → ω) (canceled : Bool) (o : ω),
            m'.observe f canceled o = (m.observe f canceled o).map id (Prod.map id (recode code')) := by
  refine ⟨?_, ?_, ?_⟩
  · rintro m i r rfl
    exact Exec.findStop_iff whole r
  · rintro m canceled rfl next endless
    exact ⟨m.begun, step_of_endless whole next endless, rfl, rfl, rfl⟩
  · intro code' elides size options clock sink order m made
    have program := create_code made
    have same := play_elide (program ▸ whole) (program ▸ elides)
    have program' (ts : List Turn) : (m.play ts).control.code = code := (play_code (program ▸ whole) ts).trans program
    refine ⟨m.recode code', create_recode made code', same, ?_, ?_, ?_⟩
    · intro ts canceled
      rw [same]
      exact step_elide (program' ts ▸ whole) (program' ts ▸ elides) canceled
    · intro ts
      rw [same]
      exact event?_elide (program' ts ▸ elides)
    · intro ω f canceled o
      exact runFor_elide f canceled _ o (program ▸ whole) (program ▸ elides)

/-- A body in another's, and a start without an end. The end of the outer body is at `stop`, or looked for. -/
def bodiesCode (stop : Int) : Code :=
  #[some (.startFiber stop), some (.startFiber 0), some .nop, some .stopFiber, some .nop, some .stopFiber,
    some (.startFiber 0), some .done]

theorem bodies_match_nested : ∃ m m' : Machine, none ∉ (bodiesCode 5).toList ∧ (bodiesCode 5).Elides (bodiesCode 0) ∧
    Machine.create 336 (bodiesCode 5) {} = .ok m ∧ Machine.create 336 (bodiesCode 0) {} = .ok m' ∧
    Exec.findStop 1 m = .ok 5 m ∧ IsLeast {k | (bodiesCode 5).Closes 0 k} 5 ∧
    (m.play [.step false]).Executes (.startFiber 0) ∧
    (∃ m'', step false (m.play [.step false]) = fail m'' ⟨.unmatchedStart 6, 0, 6, some .startFiber⟩) ∧
    m'.play [.step false] = (m.play [.step false]).recode (bodiesCode 0) := by
  have whole : none ∉ (bodiesCode 5).toList := by simp [bodiesCode]
  obtain ⟨m, made, next, pc, id⟩ : ∃ m, Machine.create 336 (bodiesCode 5) {} = .ok m ∧
      (m.play [.step false]).Executes (.startFiber 0) ∧ (m.play [.step false]).current.pc = 6 ∧
      (m.play [.step false]).current.id = 0 := ⟨_, Machine.create_listed rfl, by decide +kernel⟩
  obtain ⟨finds, fails, runs⟩ := bodies_match whole
  have program := create_code made
  have closes : (bodiesCode 5).Closes 0 5 := (Exec.scanStop_closes_iff whole).1 (by decide)
  have found : Exec.findStop 1 m = .ok 5 m := (finds m 0 5 program).2 ⟨5, rfl, closes.isLeast whole⟩
  have elides : (bodiesCode 5).Elides (bodiesCode 0) := by
    intro i
    cases i with
    | zero => exact .inr ⟨5, closes.isLeast whole, rfl, rfl⟩
    | succ i => exact .inl rfl
  have endless (j : Nat) : ¬ (bodiesCode 5).Closes 6 j := by
    intro closes
    have scan : Exec.scanStop 0 7 ((bodiesCode 5).toList.drop 7) = .ok none := by decide
    cases scan.symm.trans ((Exec.scanStop_closes_iff whole).2 closes)
  obtain ⟨m', made', plays, -⟩ := runs _ elides _ _ _ _ _ _ made
  obtain ⟨m'', failed, -⟩ := fails _ false ((play_code (program ▸ whole) _).trans program) next (pc ▸ endless)
  rw [pc, id] at failed
  exact ⟨m, m', whole, elides, made, made', found, closes.isLeast whole, next, ⟨m'', failed⟩, plays _⟩

end Machine

end FiberVm
