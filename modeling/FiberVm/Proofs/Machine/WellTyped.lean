import FiberVm.Proofs.Machine.Play

/-!
# Every address plays its part

The main statement is about all runs of a decoded program that assigns nothing to the outermost frame:
registers, slots, rings and queues hold nodes of the right tags and none that is free, and therefore
neither a step nor a collection crashes.
-/

set_option autoImplicit false

namespace FiberVm

open Heap (Shows Closure tagAt builtinsFrame)

/-- The tags of a program's values. -/
def Tag.values : List Tag :=
  [.nil, .unassigned, .true, .false, .int, .builtin, .closure, .intChannel, .waitGroup]

/-- There is a value of the program at `a`. -/
def Heap.ShowsValue (words : Array Word) (a : Addr) : Prop := ∃ n, Shows words a n ∧ n.tag ∈ Tag.values

/-- There is an environment at `a` whose frames are frames and whose outermost frame is that of the
builtins. -/
def Heap.ShowsEnvironment (words : Array Word) (a : Addr) : Prop :=
  ∃ rest, Shows words a (.environment (builtinsFrame :: rest)) ∧
    ∀ f ∈ builtinsFrame :: rest, ∃ slots, Shows words f (.frame slots)

/-- There is a call or block frame at `a` that leads to an environment. -/
def Heap.ShowsActivation (words : Array Word) (a : Addr) : Prop :=
  ∃ e, ((∃ pc, Shows words a (.callframe pc e)) ∨ Shows words a (.blockframe e)) ∧
    ∃ frames, Shows words e (.environment frames)

/-- There is a frame at `a`, and its slots hold values. -/
def Heap.ShowsFrame (words : Array Word) (a : Addr) : Prop :=
  ∃ slots, Shows words a (.frame slots) ∧ ∀ x ∈ slots, ShowsValue words x

/-- There is a channel at `a` with its two queues. The ring and the senders hold integers. -/
def Heap.ShowsChannel (words : Array Word) (a : Addr) : Prop :=
  ∃ cap closed s r items senders receivers, Shows words a (.channel cap closed s r items) ∧
    Shows words s (.queue senders) ∧ Shows words r (.queue receivers) ∧
    (∀ x ∈ items, ∃ k, Shows words x (.int k)) ∧ ∀ x ∈ senders, ∃ k, Shows words x.value (.int k)

/-- Every address that the machine can get at leads to a node of the right tag. -/
structure Machine.WellTyped (m : Machine) : Prop where
  env : ∀ f ∈ m.fibers, Heap.ShowsEnvironment m.heap.words f.env
  frames : ∀ f ∈ m.fibers, ∀ a ∈ f.frames, Heap.ShowsActivation m.heap.words a
  operands : ∀ f ∈ m.fibers, ∀ a ∈ f.operands, Heap.ShowsValue m.heap.words a
  slots : ∀ a, Closure m.heap.words m.held a → tagAt m.heap.words a = .frame → Heap.ShowsFrame m.heap.words a
  channels : ∀ a, Closure m.heap.words m.held a → tagAt m.heap.words a = .intChannel →
    Heap.ShowsChannel m.heap.words a
  used : ∀ a, Closure m.heap.words m.held a → Heap.NodeIn m.heap.words a ∧ tagAt m.heap.words a ≠ .free

section

variable {q : Terms} {w : World} {h₁ h₂ : Heap} {m m₁ m₂ : Machine} {a : Addr}

theorem Node.Fits.tag_mem {D : Typing} {n : Node} {r : Role} {words : Array Word} (fits : n.Fits D r)
    (kind : r = .int ∨ r = .value) (s : Shows words a n) : n.tag ∈ Tag.values := by
  cases n with
  | literal t =>
    have literal : t = .nil ∨ t = .unassigned ∨ t = .true ∨ t = .false := s.body
    rcases literal with rfl | rfl | rfl | rfl <;> decide
  | int _ | builtin _ _ | closure _ _ _ | channel _ _ _ _ _ | group _ _ =>
    simp [Node.tag, Tag.values]
  | frame _ | environment _ | callframe _ _ | blockframe _ | queue _ =>
    rcases kind with rfl | rfl <;> exact fits.elim

theorem Mirror.showsValue (m : Mirror w h₁ h₂) (value : IsValue w.role a) : Heap.ShowsValue h₁.words a := by
  rcases value with role | role
  · obtain ⟨n, s, admits, -⟩ := m.nodes a _ role
    exact ⟨n, s, admits.fits.tag_mem (.inl rfl) s⟩
  · obtain ⟨n, s, admits, -⟩ := m.nodes a _ role
    exact ⟨n, s, admits.fits.tag_mem (.inr rfl) s⟩

theorem Mirror.frame (m : Mirror w h₁ h₂) (role : w.role a .frame) :
    ∃ slots, Shows h₁.words a (.frame slots) ∧ w.Admits a .frame (.frame slots) := by
  obtain ⟨n, s, admits, -⟩ := m.nodes a _ role
  have fits := admits.fits
  cases n with
  | frame slots => exact ⟨slots, s, admits⟩
  | _ => exact fits.elim

theorem Mirror.showsEnvironment (m : Mirror w h₁ h₂) (role : w.role a .environment) :
    Heap.ShowsEnvironment h₁.words a := by
  obtain ⟨frames, s, admits, -⟩ := m.environment role
  obtain ⟨rest, rfl, first, all⟩ := admits.fits
  refine ⟨rest, s, List.forall_mem_cons.2 ⟨?_, fun f mem => ?_⟩⟩
  · obtain ⟨slots, shows, -⟩ := m.frame first
    exact ⟨slots, shows⟩
  · obtain ⟨slots, shows, -⟩ := m.frame (all f mem).1
    exact ⟨slots, shows⟩

theorem Mirror.showsActivation (m : Mirror w h₁ h₂) (role : w.role a .activation) :
    Heap.ShowsActivation h₁.words a := by
  obtain ⟨n, s, admits, -⟩ := m.nodes a _ role
  have fits := admits.fits
  cases n with
  | callframe pc e =>
    obtain ⟨frames, shows, -⟩ := m.environment fits
    exact ⟨e, .inl ⟨pc, s⟩, frames, shows⟩
  | blockframe e =>
    obtain ⟨frames, shows, -⟩ := m.environment fits
    exact ⟨e, .inr s, frames, shows⟩
  | _ => exact fits.elim

theorem Mirror.showsInt (m : Mirror w h₁ h₂) (role : w.role a .int) : ∃ k, Shows h₁.words a (.int k) := by
  obtain ⟨n, s, admits, -⟩ := m.nodes a _ role
  have fits := admits.fits
  cases n with
  | int k => exact ⟨k, s⟩
  | _ => exact fits.elim

/-- What is known has the frames and channels that its tag promises. -/
theorem Mirror.showsFrame (m : Mirror w h₁ h₂) (known : w.Knows a) (tag : tagAt h₁.words a = .frame) :
    Heap.ShowsFrame h₁.words a := by
  obtain ⟨r, role⟩ := known
  obtain ⟨n, s, admits, -⟩ := m.nodes a r role
  have fits := admits.fits
  rw [s.tagAt] at tag
  cases n with
  | frame slots =>
    cases r with
    | frame => exact ⟨slots, s, fun x mem => m.showsValue (fits x mem)⟩
    | _ => exact fits.elim
  | literal t =>
    have literal : t = .nil ∨ t = .unassigned ∨ t = .true ∨ t = .false := s.body
    rcases literal with rfl | rfl | rfl | rfl <;> cases tag
  | _ => cases tag

theorem Mirror.showsChannel (m : Mirror w h₁ h₂) (known : w.Knows a) (tag : tagAt h₁.words a = .intChannel) :
    Heap.ShowsChannel h₁.words a := by
  obtain ⟨r, role⟩ := known
  obtain ⟨n, s, admits, -⟩ := m.nodes a r role
  obtain ⟨cap, closed, senders, receivers, items, rfl⟩ := s.channel_of_tag (s.tagAt.symm.trans tag)
  obtain rfl := admits.fits.role_of_channel
  obtain ⟨sends, receives, ints⟩ := admits.fits
  obtain ⟨ws, s₁, admits₁, -⟩ := m.queue sends (.inl rfl)
  obtain ⟨ws', s₂, -, -⟩ := m.queue receives (.inr rfl)
  exact ⟨cap, closed, senders, receivers, items, ws, ws', s, s₁, s₂, fun x mem => m.showsInt (ints x mem),
    fun x mem => m.showsInt (admits₁.fits x mem)⟩

theorem Mirror.knows_closure {K : List Addr} (m : Mirror w h₁ h₂) (known : ∀ x ∈ K, w.Knows x)
    (reach : Closure h₁.words K a) : w.Knows a := by
  induction reach with
  | root mem => exact known _ mem
  | step _ refers ih => exact (m.refers ih refers).1

theorem Machine.Alike.wellTyped (alike : m₁.Alike q w m₂) : m₁.WellTyped := by
  have known : ∀ a, Closure m₁.heap.words m₁.held a → w.Knows a := fun a reach =>
    alike.heap.knows_closure alike.knows_held reach
  refine ⟨fun f live => ?_, fun f live a mem => ?_, fun f live a mem => ?_, fun a reach => ?_,
    fun a reach => ?_, fun a reach => ?_⟩
  · exact alike.heap.showsEnvironment (alike.control.fit.typed.live live).env
  · exact alike.heap.showsActivation ((alike.control.fit.typed.live live).frames a mem)
  · exact alike.heap.showsValue ((alike.control.fit.typed.live live).operands a mem)
  · exact alike.heap.showsFrame (known a reach)
  · exact alike.heap.showsChannel (known a reach)
  · obtain ⟨r, role⟩ := known a reach
    obtain ⟨n, s, -⟩ := alike.heap.nodes a r role
    exact ⟨s.node, s.layout.tagAt_ne⟩

/-- Code without assignments to the outermost frame. -/
def Code.Inner (code : Code) : Prop := ∀ pos sym, some (.assign pos sym) ∈ code.toList → pos.frame ≠ 0

theorem Machine.Paired.not_stores (p : m₁.Paired q w m₂) (inner : q.code.Inner) : ¬ m₁.StoresCollectable := by
  rintro ⟨pos, sym, v, h, next, outer, -⟩
  have mem := next.mem_code
  rw [p.alike.control.program] at mem
  exact inner pos sym mem outer

theorem Machine.Paired.throughout (p : m.Paired q w m) (inner : q.code.Inner) (loud : ¬ q.quiet)
    (ts : List Turn) : m.Throughout (fun m => ¬ m.StoresCollectable) ts := by
  induction ts generalizing w m with
  | nil => trivial
  | cons t ts ih =>
    have safe := p.not_stores inner
    obtain ⟨-, w', alike, running, -⟩ := p.alone t (fun _ => safe) fun _ quiet => absurd quiet loud
    exact ⟨fun _ => safe, ih (alike.settle running)⟩

theorem Code.inner_ofInstrs {is : List Instr} (inner : ∀ pos sym, Instr.assign pos sym ∈ is → pos.frame ≠ 0) :
    (Code.ofInstrs is).Inner := by
  intro pos sym mem
  have inside : Instr.assign pos sym ∈ is := by simpa [Code.ofInstrs] using mem
  exact inner pos sym inside

end

/-- In every state that a decoded program reaches by steps and collections, if it assigns nothing to the
outermost frame, every address leads to a node of the right tag, and no turn crashes. -/
theorem Machine.play_wellTyped {p : Program Datum} {is : List Instr} (decoded : p.instrs = .ok is)
    (inner : ∀ pos sym, Instr.assign pos sym ∈ is → pos.frame ≠ 0) {size : Int} {options : Options}
    {clock : Clock} {sink : Sink} {m : Machine}
    (made : Machine.create size (Code.ofInstrs is) options clock sink = .ok m) (ts : List Turn) :
    (m.play ts).WellTyped ∧ ∀ t, ¬ (m.play ts).Crashes t := by
  have start := Machine.create_paired (Program.plain_of_instrs decoded) made made False
  have safe := start.throughout (Code.inner_ofInstrs inner) id ts
  obtain ⟨w, paired⟩ := start.play ts safe (Machine.throughout_imp False.elim)
  refine ⟨paired.alike.wellTyped, fun t => ?_⟩
  have next := paired.not_stores (Code.inner_ofInstrs inner)
  exact (paired.alone t (fun _ => next) fun _ => False.elim).1

/-- A block whose variable is a channel with room for one integer. -/
def Program.channelBlock : Program Datum :=
  { version := 1
    records :=
      [{ opcode := "ENTER_SCOPE", value := .null, slots := 1 },
       { opcode := "LD", value := .null, position := [0, 3], sym := "make" },
       { opcode := "LDC", value := .null }, { opcode := "LDC", value := .int 1 },
       { opcode := "CALL", value := .null, arity := 2 },
       { opcode := "ASSIGN", value := .null, position := [1, 0], sym := "ch" },
       { opcode := "LDC", value := .int 7 }, { opcode := "SEND", value := .null },
       { opcode := "DONE", value := .null }] }

def Program.channelInstrs : List Instr :=
  [.enterScope 1, .load ⟨0, 3⟩ "make", .loadConst .nil, .loadConst (.int .int64 1), .call 2,
   .assign ⟨1, 0⟩ "ch", .loadConst (.int .int64 7), .send, .done]

theorem Machine.play_wellTyped_channelBlock : ∃ m, Program.channelBlock.instrs = .ok Program.channelInstrs ∧
    Machine.create 512 (Code.ofInstrs Program.channelInstrs) {} = .ok m ∧
    ∀ ts, (m.play ts).WellTyped ∧ ∀ t, ¬ (m.play ts).Crashes t := by
  obtain ⟨m, made⟩ : ∃ m, Machine.create 512 (Code.ofInstrs Program.channelInstrs) {} = .ok m := ⟨_, rfl⟩
  have inner : ∀ pos sym, Instr.assign pos sym ∈ Program.channelInstrs → pos.frame ≠ 0 := by
    intro pos sym mem
    obtain ⟨rfl, -⟩ : pos = ⟨1, 0⟩ ∧ sym = "ch" := by simpa [Program.channelInstrs] using mem
    decide
  exact ⟨m, rfl, made, Machine.play_wellTyped (p := Program.channelBlock) rfl inner made⟩

end FiberVm
