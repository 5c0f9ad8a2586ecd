import FiberVm.Machine.Calls
import FiberVm.Proofs.Machine.Communication

/-!
# Builtin functions on two machines

A builtin gets as many arguments as its row of the table says. What it prints is the same on both sides
unless it prints a channel or a wait group: these are printed with their address.
-/

set_option autoImplicit false

namespace FiberVm

open Heap (Shows)

/-- Is the value printed with its address? -/
def Node.IsReference (n : Node) : Prop := n.tag = .intChannel ∨ n.tag = .waitGroup

section

variable {q : Terms} {w : World} {m₁ m₂ : Machine} {a x y : Addr} {r : Role} {n : Node}

/-- Sinks that take as many lines go on doing so. -/
theorem Sink.Alike.write {Q : Prop} {s₁ s₂ : Sink} {l₁ l₂ : String} (alike : Sink.Alike Q s₁ s₂)
    (same : Q → l₂ = l₁) :
    (s₁.write l₁ = none ∧ s₂.write l₂ = none) ∨
      ∃ t₁ t₂, s₁.write l₁ = some t₁ ∧ s₂.write l₂ = some t₂ ∧ Sink.Alike Q t₁ t₂ := by
  cases s₁ with
  | discard =>
    cases s₂ with
    | discard => exact .inr ⟨_, _, rfl, rfl, trivial⟩
    | keep text room => exact alike.elim
  | keep text₁ room₁ =>
    cases s₂ with
    | discard => exact alike.elim
    | keep text₂ room₂ =>
      obtain ⟨rfl, text⟩ := alike
      have joined : Q → text₂ ++ l₂ = text₁ ++ l₁ := fun h => by rw [text h, same h]
      match room₂ with
      | none => exact .inr ⟨_, _, rfl, rfl, rfl, joined⟩
      | some 0 => exact .inl ⟨rfl, rfl⟩
      | some (k + 1) => exact .inr ⟨_, _, rfl, rfl, rfl, joined⟩

theorem Exec.Blind.printLine (s : String) : Exec.Blind (Exec.printLine s) := by
  refine (Exec.Blind.asks _).bind fun sink => ?_
  split
  · exact .modifyControl _
  · exact .fault _

theorem Exec.printLine_eq (s : String) (m : Machine) :
    Exec.printLine s m = match m.control.sink.write (s ++ "\n") with
      | some sink => .ok () (m.modifyControl fun c => { c with sink := sink })
      | none => .error (.fault .sinkFull) m := by
  unfold Exec.printLine
  rw [bind_of_ok (show Exec.asks (·.sink) m = .ok m.control.sink m from rfl)]
  cases m.control.sink.write (s ++ "\n") <;> rfl

theorem Sim.printLine {s₁ s₂ : String} {k₁ k₂ : Unit → Exec Unit} (alike : m₁.Alike q w m₂)
    (same : q.quiet → s₂ = s₁) (rest : ∀ n₁ n₂, n₁.Alike q w n₂ → Sim q w (k₁ ()) (k₂ ()) n₁ n₂) :
    Sim q w (Exec.printLine s₁ >>= k₁) (Exec.printLine s₂ >>= k₂) m₁ m₂ := by
  have run₁ := Exec.printLine_eq s₁ m₁
  have run₂ := Exec.printLine_eq s₂ m₂
  have line : q.quiet → s₂ ++ "\n" = s₁ ++ "\n" := fun h => by rw [same h]
  obtain ⟨heap, pins, pinned, plain, program, code, limit, steps, sched, fit, result, value, sink, failed⟩ := alike
  rcases sink.write line with ⟨full₁, full₂⟩ | ⟨t₁, t₂, ok₁, ok₂, sink'⟩
  · rw [full₁] at run₁
    rw [full₂] at run₂
    have alike : m₁.Alike q w m₂ :=
      ⟨heap, pins, pinned, plain, program, code, limit, steps, sched, fit, result, value, sink, failed⟩
    exact .fails alike (.printLine _) (.printLine _) run₁ run₂ rfl
  · rw [ok₁] at run₁
    rw [ok₂] at run₂
    refine .step (.printLine _) (.printLine _) run₁ run₂ rfl (rest _ _ ?_)
    exact ⟨heap, pins, pinned, plain, program, code, limit, steps, sched, fit, result, value, sink', failed⟩

/-- The text of a value is the same wherever it stands, except for channels and wait groups. -/
theorem Heap.format_shows {h₁ h₂ : Heap} {b : Addr} {D : Typing} {ρ : Addr → Addr}
    (s₁ : Shows h₁.words a n) (s₂ : Shows h₂.words b (n.map ρ)) (fits : n.Fits D r)
    (kind : r = .int ∨ r = .value) :
    ∃ t₁ t₂, Heap.format a h₁ = .ok t₁ h₁ ∧ Heap.format b h₂ = .ok t₂ h₂ ∧ (¬ n.IsReference → t₂ = t₁) := by
  unfold Heap.format
  rw [bind_of_ok (Heap.tagOf_shows s₁), bind_of_ok (Heap.tagOf_shows s₂), Node.tag_map]
  cases n with
  | literal t =>
    have literal : t = .nil ∨ t = .unassigned ∨ t = .true ∨ t = .false := s₁.body
    rcases literal with rfl | rfl | rfl | rfl
    all_goals exact ⟨_, _, rfl, rfl, fun _ => rfl⟩
  | int k =>
    exact ⟨_, _, bind_of_ok (Heap.intValue_shows s₁), bind_of_ok (Heap.intValue_shows s₂), fun _ => rfl⟩
  | builtin f k =>
    exact ⟨_, _, bind_of_ok (Heap.builtinAt_shows s₁), bind_of_ok (Heap.builtinAt_shows s₂), fun _ => rfl⟩
  | closure k pc e =>
    exact ⟨_, _, bind_of_ok (Heap.closurePc_shows s₁), bind_of_ok (Heap.closurePc_shows s₂), fun _ => rfl⟩
  | channel cap closed s t items => exact ⟨_, _, rfl, rfl, fun no => absurd (.inl rfl) no⟩
  | group k ids => exact ⟨_, _, rfl, rfl, fun no => absurd (.inr rfl) no⟩
  | frame _ | environment _ | callframe _ _ | blockframe _ | queue _ =>
    rcases kind with rfl | rfl <;> exact fits.elim

theorem Sim.format {k₁ k₂ : String → Exec Unit} (alike : m₁.Alike q w m₂) (value : IsValue w.role a)
    (rest : ∀ t₁ t₂, ((∀ n, Shows m₁.heap.words a n → ¬ n.IsReference) → t₂ = t₁) →
      Sim q w (k₁ t₁) (k₂ t₂) m₁ m₂) :
    Sim q w (Exec.onHeap (Heap.format a) >>= k₁) (Exec.onHeap (Heap.format (w.image a)) >>= k₂) m₁ m₂ := by
  obtain ⟨n, r, role, s₁, admits, s₂⟩ := alike.node value
  have kind : r = .int ∨ r = .value :=
    value.imp (alike.heap.unique a r _ role) (alike.heap.unique a r _ role)
  obtain ⟨t₁, t₂, run₁, run₂, same⟩ := Heap.format_shows s₁ s₂ admits.fits kind
  exact .read (.format a) (.format _) run₁ run₂ (rest t₁ t₂ fun no => same (no n s₁))

theorem Sim.intArg {who : String} {k₁ k₂ : Int64 → Exec Unit} (alike : m₁.Alike q w m₂)
    (value : IsValue w.role a) (rest : ∀ k, Sim q w (k₁ k) (k₂ k) m₁ m₂) :
    Sim q w (Exec.intArg a who >>= k₁) (Exec.intArg (w.image a) who >>= k₂) m₁ m₂ := by
  obtain ⟨n, r, -, s₁, -, s₂⟩ := alike.node value
  simp only [Exec.intArg, bind_assoc]
  refine .tagOf s₁ s₂ ?_
  by_cases int : n.tag = .int
  · rw [if_pos int, if_pos int]
    obtain ⟨k, rfl⟩ := s₁.int_of_tag int
    exact .read (.intValue _) (.intValue _) (Heap.intValue_shows s₁) (Heap.intValue_shows s₂) (rest k)
  · rw [if_neg int, if_neg int]
    exact .fails alike (.fault _) (.fault _) rfl rfl rfl

/-- A result that every heap has from the start. -/
theorem Sim.pushUnassigned {k₁ k₂ : Unit → Exec Unit} (alike : m₁.Alike q w m₂)
    (rest : ∀ n₂, (m₁.withSched (m₁.control.sched.push Heap.unassigned)).Alike q w n₂ → n₂.heap = m₂.heap →
      Sim q w (k₁ ()) (k₂ ()) (m₁.withSched (m₁.control.sched.push Heap.unassigned)) n₂) :
    Sim q w (Exec.push Heap.unassigned >>= k₁) (Exec.push Heap.unassigned >>= k₂) m₁ m₂ := by
  obtain ⟨value, same⟩ := alike.reserved reserved_unassigned
  have sim : Sim q w (Exec.push Heap.unassigned >>= k₁) (Exec.push (w.image Heap.unassigned) >>= k₂) m₁ m₂ :=
    .push alike value rest
  rwa [same] at sim

theorem Sim.takePush {op₁ op₂ : Heap.Roots → HeapM Addr} {K : List Addr}
    {P : Array Word → Addr → Prop} (alike : m₁.Alike q w m₂)
    (alive : m₁.control.sched.current.state ≠ .terminated) (kind : r = .int ∨ r = .value)
    (takes : Takes w K r P (op₁ m₁.rootThunk) (op₂ m₂.rootThunk) m₁.heap m₂.heap)
    (sub : m₁.control.roots ++ m₁.heap.pinned ⊆ K) :
    Sim q w (do Exec.push (← Exec.allocating op₁)) (do Exec.push (← Exec.allocating op₂)) m₁ m₂ := by
  refine .take alike alive takes sub fun a h₁ h₂ w' gives _ _ alike => ?_
  refine .last (.push alike ?_ fun n₂ alike _ => .pure alike)
  rcases kind with rfl | rfl
  · exact .inl gives.role
  · exact .inr gives.role

/-- An allocation that is refused before anything is taken. -/
theorem Sim.reject {op₁ op₂ : Heap.Roots → HeapM Addr} {k₁ k₂ : Addr → Exec Unit} {e₁ e₂ : Cause}
    (alike : m₁.Alike q w m₂) (run₁ : op₁ m₁.rootThunk m₁.heap = .error (.fault e₁) m₁.heap)
    (run₂ : op₂ m₂.rootThunk m₂.heap = .error (.fault e₂) m₂.heap)
    (commutes₁ : ∀ v, Commutes (Heap.pin v) (op₁ m₁.rootThunk) m₁.heap)
    (commutes₂ : ∀ v, Commutes (Heap.pin v) (op₂ m₂.rootThunk) m₂.heap) (kind : e₂.kind = e₁.kind) :
    Sim q w (Exec.allocating op₁ >>= k₁) (Exec.allocating op₂ >>= k₂) m₁ m₂ := by
  have fails₁ := allocating_error run₁
  have fails₂ := allocating_error run₂
  refine .fault (bind_of_error fails₁) (bind_of_error fails₂) kind ⟨alike, rfl, .refl fun v => ?_⟩
  exact ⟨(allocating_commutes (commutes₁ v)).bind_error fails₁, (allocating_commutes (commutes₂ _)).bind_error fails₂⟩

theorem Sim.rejectFault {op₁ op₂ : Heap.Roots → HeapM Addr} {k₁ k₂ : Addr → Exec Unit} {e₁ e₂ : Cause}
    (alike : m₁.Alike q w m₂) (same₁ : op₁ m₁.rootThunk = FiberVm.fault e₁)
    (same₂ : op₂ m₂.rootThunk = FiberVm.fault e₂)
    (kind : e₂.kind = e₁.kind) :
    Sim q w (Exec.allocating op₁ >>= k₁) (Exec.allocating op₂ >>= k₂) m₁ m₂ :=
  .reject alike (by rw [same₁]; rfl) (by rw [same₂]; rfl) (fun _ => by rw [same₁]; rfl)
    (fun _ => by rw [same₂]; rfl) kind

/-- The rows of the table, by the number of arguments. -/
theorem Builtin.row_cases {b : Builtin} {k : Nat} (row : table[b.number.toNat]?.map (·.2) = some k) :
    k = 1 ∧ b ∈ [println, raise, sleep, close, wgDone, wgWait] ∨ k = 2 ∧ b ∈ [make, max, min, wgAdd] := by
  obtain ⟨number⟩ := b
  have lt : number.toNat < 10 := by
    refine Nat.lt_of_not_le fun le => ?_
    rw [List.getElem?_eq_none_iff.2 le] at row
    cases row
  have rows : ∀ i < 10,
      table[i]?.map (·.2) = some 1 ∧ ⟨UInt8.ofNat i⟩ ∈ [println, raise, sleep, close, wgDone, wgWait] ∨
      table[i]?.map (·.2) = some 2 ∧ ⟨UInt8.ofNat i⟩ ∈ [make, max, min, wgAdd] := by decide
  have found := rows number.toNat lt
  rw [row, UInt8.ofNat_toNat] at found
  exact found.imp (.imp_left Option.some.inj) (.imp_left Option.some.inj)

theorem Sim.builtinOne {b : Builtin} (alike : m₁.Alike q w m₂)
    (running : m₁.control.sched.current.state = .running) (value : IsValue w.role x)
    (one : b ∈ [Builtin.println, .raise, .sleep, .close, .wgDone, .wgWait])
    (prints : q.quiet → b = .println → ∀ n, Shows m₁.heap.words x n → ¬ n.IsReference) :
    Sim q w (Exec.builtin b [x]) (Exec.builtin b [w.image x]) m₁ m₂ := by
  simp only [List.mem_cons, List.not_mem_nil, or_false] at one
  rcases one with rfl | rfl | rfl | rfl | rfl | rfl
  · refine .format alike value fun t₁ t₂ same => ?_
    refine .printLine alike (fun h => same (prints h rfl)) fun n₁ n₂ alike => ?_
    exact .last (.pushUnassigned alike fun n₂ alike _ => .pure alike)
  · exact .format alike value fun t₁ t₂ _ => .raise alike rfl
  · refine .intArg alike value fun ms => .pushUnassigned alike fun n₂ alike _ => ?_
    refine .last (.modifySched alike (Scheduler.sleep_rename _ _ ms) ?_ .pure)
    exact alike.control.fit.sleep running ms
  · refine .bind alike (.closeChan alike value) fun _ _ _ _ ends => ?_
    exact .last (.pushUnassigned ends.alike fun n₂ alike _ => .pure alike)
  · refine .bind alike (.groupAdd alike value) fun _ _ _ _ ends => ?_
    exact .last (.pushUnassigned ends.alike fun n₂ alike _ => .pure alike)
  · exact .pushUnassigned alike fun n₂ alike _ => .groupWait alike running value

theorem Sim.builtinTwo {b : Builtin} (alike : m₁.Alike q w m₂)
    (running : m₁.control.sched.current.state = .running) (vx : IsValue w.role x) (vy : IsValue w.role y)
    (two : b ∈ [Builtin.make, .max, .min, .wgAdd]) :
    Sim q w (Exec.builtin b [x, y]) (Exec.builtin b [w.image x, w.image y]) m₁ m₂ := by
  have alive : m₁.control.sched.current.state ≠ .terminated := by rw [running]; decide
  simp only [List.mem_cons, List.not_mem_nil, or_false] at two
  rcases two with rfl | rfl | rfl | rfl
  · refine .intArg alike vy fun capacity => ?_
    by_cases out : capacity.toInt < 0 ∨ (Heap.maxChannelCapacity : Int) < capacity.toInt
    · refine .rejectFault alike (if_pos out) (if_pos out) ?_
      rfl
    · have fits : 0 ≤ capacity.toInt ∧ capacity.toInt ≤ 13 := by
        unfold Heap.maxChannelCapacity at out
        omega
      exact .takePush alike alive (.inr rfl) (alike.shared.newChannel fits) (List.Subset.refl _)
  · refine .intArg alike vx fun i => .intArg alike vy fun j => ?_
    exact .takePush alike alive (.inl rfl) (alike.shared.newInt _) (List.Subset.refl _)
  · refine .intArg alike vx fun i => .intArg alike vy fun j => ?_
    exact .takePush alike alive (.inl rfl) (alike.shared.newInt _) (List.Subset.refl _)
  · refine .intArg alike vy fun delta => .bind alike (.groupAdd alike vx) fun _ _ _ _ ends => ?_
    exact .last (.pushUnassigned ends.alike fun n₂ alike _ => .pure alike)

/-- A builtin with as many arguments as it takes. -/
theorem Sim.builtin {b : Builtin} {args : List Addr} (alike : m₁.Alike q w m₂)
    (running : m₁.control.sched.current.state = .running) (values : ∀ x ∈ args, IsValue w.role x)
    (row : Builtin.table[b.number.toNat]?.map (·.2) = some args.length)
    (prints : q.quiet → b = .println → ∀ x ∈ args, ∀ n, Shows m₁.heap.words x n → ¬ n.IsReference) :
    Sim q w (Exec.builtin b args) (Exec.builtin b (args.map w.image)) m₁ m₂ := by
  rcases Builtin.row_cases row with ⟨length, one⟩ | ⟨length, two⟩
  · obtain ⟨x, rfl⟩ := List.length_eq_one_iff.1 length
    exact .builtinOne alike running (values x List.mem_cons_self) one fun h e => prints h e x List.mem_cons_self
  · obtain ⟨x, y, rfl⟩ := List.length_eq_two.1 length
    exact .builtinTwo alike running (values x List.mem_cons_self)
      (values y (List.mem_cons_of_mem x List.mem_cons_self)) two

end

end FiberVm
