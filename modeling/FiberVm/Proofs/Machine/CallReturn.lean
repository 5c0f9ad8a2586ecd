import FiberVm.Machine.Run
import FiberVm.Proofs.Machine.Travel

/-!
# Calls return and blocks are left

The frame of a call or of a block stays on the runtime stack of its fiber, with what is below it, until the
fiber itself takes it off. What is saved in it stays what it was. So a call returns to the instruction after
it, in the environment and with the stack that it was made in, and a tail call returns for the call that it
replaces.
-/

set_option autoImplicit false

namespace FiberVm

open Heap (Shows Has)

namespace Unwinds

variable {is : Addr → Tag → Prop} {a : Addr} {above rest : List Addr} {left : Option (List Addr)}

/-- An entry stays, unless it is a block and there is a call below it. -/
theorem guarded (unwinds : Unwinds is (above ++ a :: rest) left) :
    (∃ above', left.getD (above ++ a :: rest) = above' ++ a :: rest) ∨
      is a .blockframe ∧ left.getD (above ++ a :: rest) <:+ rest := by
  induction above with
  | nil =>
    cases unwinds with
    | call => exact .inl ⟨[], rfl⟩
    | block block below =>
      cases left with
      | none => exact .inl ⟨[], rfl⟩
      | some left => exact .inr ⟨block, below.suffix⟩
  | cons b above ih =>
    cases unwinds with
    | call => exact .inl ⟨b :: above, rfl⟩
    | block _ below =>
      cases left with
      | none => exact .inl ⟨b :: above, rfl⟩
      | some left => exact ih below

theorem eq_topmost (unwinds : Unwinds is (above ++ a :: rest) left) (blocks : ∀ b ∈ above, ¬ is b .callframe)
    (call : ¬ is a .blockframe) : left = some (a :: rest) := by
  induction above with
  | nil =>
    cases unwinds with
    | call => rfl
    | block block _ => exact absurd block call
  | cons b above ih =>
    cases unwinds with
    | call here => exact absurd here (blocks b List.mem_cons_self)
    | block _ below => exact ih below fun x mem => blocks x (List.mem_cons_of_mem b mem)

end Unwinds

/-- A fiber is where it goes on when `i` has taken off the frame `n` that was above `rest`. -/
structure Departs (i : Instr) (n : Node) (rest : List Addr) (k : Context) : Prop where
  length : k.frames.length ≤ rest.length
  call : ∀ pc env, n = .callframe pc env → k.frames = rest ∧ k.pc = pc ∧ k.env = env
  block : i = .exitScope → ∀ env, n = .blockframe env → k.frames = rest ∧ k.env = env

section

variable {m m' : Machine} {h : Heap} {k : Context} {i : Instr} {a : Addr} {n : Node} {above rest : List Addr}

theorem frames_of_pop {frames : List Addr} {b : Addr} (pop : above ++ a :: rest = b :: frames) :
    (∃ above', frames = above' ++ a :: rest) ∨ b = a ∧ frames = rest := by
  rcases List.append_eq_cons_iff.1 pop with ⟨-, eq⟩ | ⟨above', -, eq⟩
  · cases eq
    exact .inr ⟨rfl, rfl⟩
  · exact .inl ⟨above', eq⟩

/-- An instruction leaves an entry of the runtime stack where it is, or takes it off and goes on where the entry
says. -/
theorem Footing.guarded (footing : Footing m h k i) (s : Shows m.heap.words a n)
    (frames : m.current.frames = above ++ a :: rest) :
    (∃ above', k.frames = above' ++ a :: rest) ∨ Departs i n rest k := by
  have level : k.frames = m.current.frames → (∃ above', k.frames = above' ++ a :: rest) ∨ Departs i n rest k :=
    fun same => .inl ⟨above, same.trans frames⟩
  have pushed : ∀ b, k.frames = b :: m.current.frames →
      (∃ above', k.frames = above' ++ a :: rest) ∨ Departs i n rest k :=
    fun b eq => .inl ⟨b :: above, eq.trans (congrArg (List.cons b) frames)⟩
  have not_call : Has m.heap.words a .blockframe → ∀ pc env, n ≠ .callframe pc env := by
    rintro block pc env rfl
    cases s.tagAt.symm.trans block.2
  cases i with
  | call arity =>
    by_cases calls : m.CallsClosure arity
    · obtain ⟨b, entered, -⟩ := footing.1 calls
      exact pushed b entered
    · exact level (congrArg Context.frames (footing.2 calls))
  | tailCall arity =>
    by_cases calls : m.CallsClosure arity
    · obtain ⟨left, unwinds, eq⟩ := footing.1 calls
      rw [frames] at unwinds eq
      rw [eq]
      rcases unwinds.guarded with stays | ⟨block, below⟩
      · exact .inl stays
      · refine .inr ⟨eq ▸ below.length_le, fun pc env call => absurd call (not_call block pc env), nofun⟩
    · exact level (congrArg Context.frames (footing.2 calls))
  | reset =>
    obtain ⟨b, eq, how⟩ := footing
    rcases frames_of_pop (frames.symm.trans eq) with stays | ⟨rfl, off⟩
    · exact .inl stays
    refine .inr ⟨off ▸ Nat.le_refl _, ?_, nofun⟩
    rintro pc env rfl
    rcases how with ⟨pc', here, s'⟩ | block
    · have saved : pc = pc' ∧ env = k.env := ⟨s.body.1.symm.trans s'.body.1, s.body.2.symm.trans s'.body.2⟩
      exact ⟨off, here.trans (congrArg _ saved.1.symm), saved.2.symm⟩
    · exact absurd rfl (not_call block pc env)
  | enterScope _ =>
    obtain ⟨b, entered, -⟩ := footing
    exact pushed b entered
  | exitScope =>
    obtain ⟨b, eq, s'⟩ := footing
    rcases frames_of_pop (frames.symm.trans eq) with stays | ⟨rfl, off⟩
    · exact .inl stays
    refine .inr ⟨off ▸ Nat.le_refl _, fun pc env call => absurd call (not_call s'.has pc env), ?_⟩
    rintro - env rfl
    have saved : env = k.env := Eq.trans (Eq.symm s.body) s'.body
    exact ⟨off, saved.symm⟩
  | _ => exact level footing

end

namespace Machine

/-- While the fiber lives, the frame `n` is on its runtime stack above `rest`. -/
structure Guards (m : Machine) (id : Nat) (a : Addr) (n : Node) (rest : List Addr) : Prop where
  known : id < m.control.sched.nextId
  under : ∀ k ∈ m.contexts, k.id = id → Shows m.heap.words a n ∧ ∃ above, k.frames = above ++ a :: rest

/-- The turn does not fail. There may be nothing left to do. -/
def Smooth (m : Machine) (t : Turn) : Prop :=
  match perform t m with
  | .ok _ _ => True
  | .error e _ => e = .halted

/-- After these turns, and not before, the runtime stack of a fiber is no higher than `height`. The fiber is
`f` then. -/
def FallsTo (id height : Nat) (f : Fiber) (m : Machine) : List Turn → Prop
  | [] => f ∈ m.fibers ∧ f.id = id ∧ f.frames.length ≤ height
  | t :: ts => (∀ g ∈ m.fibers, g.id = id → height < g.frames.length) ∧ FallsTo id height f (m.turn t) ts

/-- A fiber has this runtime stack. -/
def Stacked (m : Machine) (id : Nat) (frames : List Addr) : Prop :=
  ∃ f ∈ m.fibers, f.id = id ∧ f.frames = frames

section

variable {c : Code} {P : Int → Prop} {m m' : Machine} {t : Turn} {ts : List Turn} {canceled : Bool} {i : Instr}
  {k : Context} {f : Fiber} {id : Nat} {a : Addr} {n : Node} {above rest : List Addr}

theorem Smooth.not_crashes (smooth : m.Smooth t) : ¬ m.Crashes t := by
  rintro ⟨e, m', crash⟩
  rw [Smooth, crash] at smooth
  cases smooth

theorem context_mem (alive : m.current.state ≠ .terminated) : m.current.context ∈ m.contexts :=
  List.mem_map_of_mem (Scheduler.mem_live.2 (.inl ⟨rfl, alive⟩))

theorem Sturdy.eq_of_id (sturdy : m.Sturdy c P) {x : Context} (mem : k ∈ m.contexts) (mem' : x ∈ m.contexts)
    (same : x.id = k.id) : x = k := by
  obtain ⟨f, live, rfl⟩ := List.mem_map.1 mem
  obtain ⟨g, live', rfl⟩ := List.mem_map.1 mem'
  rw [List.inj_on_of_nodup_map sturdy.fit.cons.nodup_live live' live same]

theorem Sturdy.id_lt (sturdy : m.Sturdy c P) (mem : k ∈ m.contexts) : k.id < m.control.sched.nextId := by
  obtain ⟨f, live, rfl⟩ := List.mem_map.1 mem
  rcases Scheduler.mem_live.1 live with ⟨rfl, -⟩ | other
  · exact sturdy.fit.cons.current_lt
  · exact sturdy.fit.cons.others_lt f other

theorem Sturdy.guards (sturdy : m.Sturdy c P) (mem : k ∈ m.contexts) (frames : k.frames = above ++ a :: rest)
    (s : Shows m.heap.words a n) : m.Guards k.id a n rest := by
  refine ⟨sturdy.id_lt mem, fun x mem' same => ?_⟩
  rw [sturdy.eq_of_id mem mem' same]
  exact ⟨s, above, frames⟩

/-- A fiber after an instruction was there before, or it is new, or it has executed it. -/
theorem Advances.origin (advances : m.Advances i m') (mem : k ∈ m'.contexts) :
    k ∈ m.contexts ∨ m.control.sched.nextId ≤ k.id ∨ (k.id = m.current.id ∧ Footing m m'.heap k i) := by
  have kept : k ∈ m.control.sched.others.map Fiber.context → k ∈ m.contexts := by
    intro other
    obtain ⟨f, inside, rfl⟩ := List.mem_map.1 other
    exact List.mem_map_of_mem (Scheduler.mem_live.2 (.inr inside))
  cases advances with
  | ends _ perm => exact .inl (kept (perm.mem_iff.1 mem))
  | goes own new here footing fresh perm =>
    rcases List.mem_cons.1 (perm.mem_iff.1 mem) with rfl | rest
    · exact .inr (.inr ⟨here, footing⟩)
    · rcases List.mem_append.1 rest with started | other
      · exact .inr (.inl (fresh k started))
      · exact .inl (kept other)

theorem Guards.activation (guards : m.Guards id a n rest) (mem : k ∈ m.contexts) (same : k.id = id) :
    a ∈ m.activations := by
  obtain ⟨-, above, frames⟩ := guards.under k mem same
  exact List.mem_flatMap.2 ⟨k, mem, frames ▸ List.mem_append_right _ List.mem_cons_self⟩

/-- What an instruction does to a frame. -/
theorem Guards.passes (guards : m.Guards id a n rest) (activation : n.IsActivation)
    (alive : m.current.state ≠ .terminated) (passes : m.Passes c P i m') :
    m'.Guards id a n rest ∨ ∃ k ∈ m'.contexts, k.id = id ∧ Departs i n rest k := by
  by_cases departs : ∃ k ∈ m'.contexts, k.id = id ∧ Departs i n rest k
  · exact .inr departs
  refine .inl ⟨Nat.lt_of_lt_of_le guards.known passes.nextId, fun x mem same => ?_⟩
  have before : ∃ y ∈ m.contexts, y.id = id ∧ ∃ above, x.frames = above ++ a :: rest := by
    rcases passes.advances.origin mem with old | started | ⟨own, footing⟩
    · exact ⟨x, old, same, (guards.under x old same).2⟩
    · exact absurd guards.known (Nat.not_lt.2 (same ▸ started))
    · have here := context_mem alive
      obtain ⟨s, above, frames⟩ := guards.under _ here (own.symm.trans same)
      refine ⟨_, here, own.symm.trans same, (footing.guarded s frames).resolve_right fun d => ?_⟩
      exact departs ⟨x, mem, same, d⟩
  obtain ⟨y, old, known, above, frames⟩ := before
  refine ⟨passes.keeps a n (guards.under y old known).1 activation (guards.activation old known) ?_, above, frames⟩
  exact List.mem_flatMap.2 ⟨x, mem, frames ▸ List.mem_append_right _ List.mem_cons_self⟩

theorem Guards.begun (guards : m.Guards id a n rest) : m.begun.Guards id a n rest := by
  refine ⟨guards.known, fun x mem same => ?_⟩
  obtain ⟨f, live, rfl⟩ := List.mem_map.1 mem
  rcases Scheduler.mem_live.1 live with ⟨rfl, alive⟩ | other
  · exact guards.under m.current.context (context_mem alive) same
  · exact guards.under _ (List.mem_map_of_mem (Scheduler.mem_live.2 (.inr other))) same

/-- What a turn does to a frame. -/
theorem Guards.course (guards : m.Guards id a n rest) (activation : n.IsActivation) (running : m.Running)
    (smooth : m.Smooth t) (course : m.Course c P t m') :
    m'.Guards id a n rest ∨ ∃ i, m.Executes i ∧ ∃ k ∈ m'.contexts, k.id = id ∧ Departs i n rest k := by
  cases course with
  | rests sturdy control keeps =>
    have same : m'.contexts = m.contexts := by rw [contexts, contexts, fibers, fibers, control]
    refine .inl ⟨control ▸ guards.known, fun x mem own => ?_⟩
    have old : x ∈ m.contexts := same ▸ mem
    have before := guards.activation old own
    have after : a ∈ m'.activations := by rwa [activations, same]
    obtain ⟨s, frames⟩ := guards.under x old own
    exact ⟨keeps a n s activation before after, frames⟩
  | fails _ _ failed =>
    rw [Smooth, failed] at smooth
    cases smooth
  | @goes canceled i m₁ _ next _ passes goes =>
    have alive : m.current.state ≠ .terminated := by
      rw [show m.current.state = .running from running next.1 next.2.1]
      decide
    obtain ⟨-, -, perm, nextId⟩ := goes.sturdy passes.sturdy
    rcases guards.begun.passes activation alive passes with guards | ⟨k, mem, same, departs⟩
    · refine .inl ⟨nextId ▸ guards.known, fun x mem same => ?_⟩
      rw [goes.heap]
      exact guards.under x (perm.mem_iff.1 mem) same
    · exact .inr ⟨i, next, k, perm.mem_iff.2 mem, same, departs⟩

/-- A frame is there until the stack falls below it, and then it has just been taken off. -/
theorem Guards.falls (guards : m.Guards id a n rest) (activation : n.IsActivation) (sturdy : m.Sturdy c P)
    (running : m.Running) (leads : c.Leads P) (smooth : m.Along Smooth ts)
    (falls : m.FallsTo id rest.length f ts) :
    ∃ before t i, ts = before ++ [t] ∧ (m.play before).Executes i ∧ Departs i n rest f.context := by
  induction ts generalizing m with
  | nil =>
    obtain ⟨live, own, low⟩ := falls
    obtain ⟨-, above, frames⟩ := guards.under f.context (List.mem_map_of_mem live) own
    have high : f.frames.length = above.length + (rest.length + 1) := by
      rw [show f.frames = above ++ a :: rest from frames, List.length_append, List.length_cons]
    omega
  | cons t ts ih =>
    obtain ⟨-, falls⟩ := falls
    have course := sturdy.course running leads t smooth.1.not_crashes
    obtain ⟨sturdy', running'⟩ := course.sturdy running
    rcases guards.course activation running smooth.1 course with guards | ⟨i, next, k, mem, own, departs⟩
    · obtain ⟨before, last, i, rfl, next, departs⟩ := ih guards sturdy' running' smooth.2 falls
      exact ⟨t :: before, last, i, rfl, next, departs⟩
    · cases ts with
      | nil =>
        obtain ⟨live, same, -⟩ := falls
        have here : f.context = k := sturdy'.eq_of_id mem (List.mem_map_of_mem live) (same.trans own.symm)
        exact ⟨[], t, i, rfl, next, here ▸ departs⟩
      | cons t' ts =>
        obtain ⟨g, live, rfl⟩ := List.mem_map.1 mem
        exact absurd departs.length (Nat.not_le.2 (falls.1 g live own))

/-- What an instruction does that does not end its fiber, up to the next turn. -/
theorem Sturdy.footing (sturdy : m.Sturdy c P) (running : m.Running) (leads : c.Leads P) (next : m.Executes i)
    (ongoing : i ≠ .stopFiber) (smooth : m.Smooth (.step canceled)) :
    (∃ k ∈ (m.turn (.step canceled)).contexts, k.id = m.current.id ∧
      Footing m.begun (m.turn (.step canceled)).heap k i) ∧ m.begun.Keeps (m.turn (.step canceled)) := by
  have course := sturdy.course running leads (.step canceled) smooth.not_crashes
  generalize m.turn (.step canceled) = m' at course
  cases course with
  | rests _ _ _ none => exact absurd next (none canceled i rfl)
  | fails _ _ failed =>
    rw [Smooth, failed] at smooth
    cases smooth
  | @goes _ j m₁ _ next' _ passes goes =>
    obtain rfl : j = i := Except.ok.inj (next'.2.2.symm.trans next.2.2)
    obtain ⟨-, -, perm, -⟩ := goes.sturdy passes.sturdy
    have stays : ∀ x, x ∈ m'.activations → x ∈ m₁.activations := fun x mem =>
      (perm.flatMap_right Context.frames).mem_iff.1 mem
    rw [goes.heap]
    refine ⟨?_, fun x n s activation before after => ?_⟩
    · cases passes.advances with
      | ends stopped => exact absurd stopped ongoing
      | goes k new own footing _ table =>
        exact ⟨k, perm.mem_iff.2 (table.mem_iff.2 List.mem_cons_self), own, footing⟩
    · rw [goes.heap]
      exact passes.keeps x n s activation before (stays x after)

/-- A turn that does not fail keeps the machine sturdy. -/
theorem Sturdy.turn (sturdy : m.Sturdy c P) (running : m.Running) (leads : c.Leads P) (smooth : m.Smooth t) :
    (m.turn t).Sturdy c P ∧ (m.turn t).Running :=
  (sturdy.course running leads t smooth.not_crashes).sturdy running

theorem stacked_of_mem (mem : k ∈ m.contexts) : m.Stacked k.id k.frames := by
  obtain ⟨f, live, rfl⟩ := List.mem_map.1 mem
  exact ⟨f, live, rfl, rfl⟩

theorem Sturdy.call_returns (sturdy : m.Sturdy c P) (running : m.Running) (leads : c.Leads P)
    (small : c.size < UInt32.size) {arity : Int} (next : m.Executes (.call arity)) (calls : m.CallsClosure arity) (smooth : m.Smooth (.step canceled))
    (after : (m.turn (.step canceled)).Along Smooth ts) :
    (∃ a, (m.turn (.step canceled)).Stacked m.current.id (a :: m.current.frames) ∧
      Has (m.turn (.step canceled)).heap.words a .callframe) ∧
    ((m.turn (.step canceled)).FallsTo m.current.id m.current.frames.length f ts →
      f.frames = m.current.frames ∧ f.env = m.current.env ∧ f.pc = m.current.pc + 1) := by
  obtain ⟨⟨k, mem, own, footing⟩, -⟩ := sturdy.footing running leads next nofun smooth
  obtain ⟨sturdy', running'⟩ := sturdy.turn running leads smooth
  obtain ⟨a, frames, s⟩ := footing.1 calls
  have frames : k.frames = a :: m.current.frames := frames
  refine ⟨⟨a, own ▸ frames ▸ stacked_of_mem mem, s.has⟩, fun falls => ?_⟩
  have guards := sturdy'.guards mem (frames.trans (List.nil_append _).symm) s
  rw [own] at guards
  obtain ⟨-, -, i, -, -, departs⟩ := guards.falls (.inl rfl) sturdy' running' leads after falls
  obtain ⟨stack, pc, env⟩ := departs.call _ _ rfl
  have range := next.range
  rw [sturdy.code] at range
  refine ⟨stack, env, pc.trans ?_⟩
  exact toNat_ofInt_of_lt (k := m.current.pc + 1) (by omega) (by omega)

theorem Sturdy.tailCall_returns (sturdy : m.Sturdy c P) (running : m.Running) (leads : c.Leads P) {arity : Int}
    (next : m.Executes (.tailCall arity)) (calls : m.CallsClosure arity) (smooth : m.Smooth (.step canceled))
    (after : (m.turn (.step canceled)).Along Smooth ts) (frames : m.current.frames = above ++ a :: rest)
    (blocks : ∀ b ∈ above, ¬ Has m.heap.words b .callframe) (call : Has m.heap.words a .callframe) :
    (m.turn (.step canceled)).Stacked m.current.id (a :: rest) ∧
    ((m.turn (.step canceled)).FallsTo m.current.id rest.length f ts →
      f.frames = rest ∧ Heap.callframePc a m.heap = .ok f.pc m.heap ∧
        Heap.callframeEnv a m.heap = .ok f.env m.heap) := by
  obtain ⟨⟨k, mem, own, footing⟩, keeps⟩ := sturdy.footing running leads next nofun smooth
  obtain ⟨sturdy', running'⟩ := sturdy.turn running leads smooth
  obtain ⟨left, unwinds, eq⟩ := footing.1 calls
  have frames' : m.begun.current.frames = above ++ a :: rest := frames
  rw [frames'] at unwinds eq
  rw [unwinds.eq_topmost blocks fun block => by cases call.2.symm.trans block.2] at eq
  have left : k.frames = a :: rest := eq
  refine ⟨own ▸ left ▸ stacked_of_mem mem, fun falls => ?_⟩
  obtain ⟨n, s, -, tag⟩ := sturdy.shaped.has call nofun
  obtain ⟨pc, env, rfl⟩ := s.callframe_of_tag tag
  have before : a ∈ m.begun.activations := by
    refine mem_activations.2 ⟨m.begun.current, Scheduler.mem_live.2 (.inl ⟨rfl, ?_⟩), ?_⟩
    · rw [show m.begun.control.sched.current.state = .running from running next.1 next.2.1]
      decide
    · rw [frames']
      exact List.mem_append_right _ List.mem_cons_self
  have s' := keeps a _ s (.inl rfl) before (List.mem_flatMap.2 ⟨k, mem, left ▸ List.mem_cons_self⟩)
  have guards := sturdy'.guards mem (left.trans (List.nil_append _).symm) s'
  rw [own] at guards
  obtain ⟨-, -, i, -, -, departs⟩ := guards.falls (.inl rfl) sturdy' running' leads after falls
  obtain ⟨stack, counter, rfl⟩ : f.frames = rest ∧ f.pc = pc ∧ f.env = env := departs.call _ _ rfl
  rw [counter]
  exact ⟨stack, Heap.callframePc_shows s, Heap.callframeEnv_shows s⟩

theorem Sturdy.block_left (sturdy : m.Sturdy c P) (running : m.Running) (leads : c.Leads P) {size : Int}
    (next : m.Executes (.enterScope size)) (smooth : m.Smooth (.step canceled))
    (after : (m.turn (.step canceled)).Along Smooth ts) :
    (∃ b, (m.turn (.step canceled)).Stacked m.current.id (b :: m.current.frames) ∧
      Has (m.turn (.step canceled)).heap.words b .blockframe) ∧
    ∀ later t, ts = later ++ [t] → ((m.turn (.step canceled)).play later).Executes .exitScope →
      (m.turn (.step canceled)).FallsTo m.current.id m.current.frames.length f ts →
      f.frames = m.current.frames ∧ f.env = m.current.env := by
  obtain ⟨⟨k, mem, own, footing⟩, -⟩ := sturdy.footing running leads next nofun smooth
  obtain ⟨sturdy', running'⟩ := sturdy.turn running leads smooth
  obtain ⟨b, frames, s⟩ := footing
  have frames : k.frames = b :: m.current.frames := frames
  refine ⟨⟨b, own ▸ frames ▸ stacked_of_mem mem, s.has⟩, ?_⟩
  rintro later t rfl last falls
  have guards := sturdy'.guards mem (frames.trans (List.nil_append _).symm) s
  rw [own] at guards
  obtain ⟨before, u, i, eq, exits, departs⟩ := guards.falls (.inr rfl) sturdy' running' leads after falls
  obtain ⟨rfl, -⟩ := List.append_inj' eq rfl
  exact departs.block (Except.ok.inj (exits.2.2.symm.trans last.2.2)) _ rfl

end

/-- Calls return to where they are made, tail calls for the call that they replace, and a block is left to
where it is entered, whatever the machine does in between. -/
theorem calls_return {size : Int} {code : Code} {options : Options} {clock : Clock} {sink : Sink} {m₀ : Machine}
    (small : code.size < UInt32.size) (made : Machine.create size code options clock sink = .ok m₀)
    {before after : List Turn} {canceled : Bool} (smooth : m₀.Along Smooth (before ++ .step canceled :: after))
    {m m' : Machine} (here : m₀.play before = m) (step : m.turn (.step canceled) = m') (f : Fiber) :
    (∀ arity, m.Executes (.call arity) → m.CallsClosure arity →
      (∃ a, m'.Stacked m.current.id (a :: m.current.frames) ∧ Has m'.heap.words a .callframe) ∧
      (m'.FallsTo m.current.id m.current.frames.length f after →
        f.frames = m.current.frames ∧ f.env = m.current.env ∧ f.pc = m.current.pc + 1)) ∧
    (∀ arity blocks c rest, m.Executes (.tailCall arity) → m.CallsClosure arity →
      m.current.frames = blocks ++ c :: rest → (∀ b ∈ blocks, ¬ Has m.heap.words b .callframe) →
      Has m.heap.words c .callframe →
      m'.Stacked m.current.id (c :: rest) ∧
      (m'.FallsTo m.current.id rest.length f after →
        f.frames = rest ∧ Heap.callframePc c m.heap = .ok f.pc m.heap ∧
          Heap.callframeEnv c m.heap = .ok f.env m.heap)) ∧
    (∀ n, m.Executes (.enterScope n) →
      (∃ b, m'.Stacked m.current.id (b :: m.current.frames) ∧ Has m'.heap.words b .blockframe) ∧
      ∀ later canceled', after = later ++ [.step canceled'] → (m'.play later).Executes .exitScope →
        m'.FallsTo m.current.id m.current.frames.length f after →
          f.frames = m.current.frames ∧ f.env = m.current.env) := by
  have leads := code.leads_anywhere
  obtain ⟨sturdy, running⟩ := Machine.create_sturdy leads made
  obtain ⟨smooth, now, rest⟩ := along_append.1 smooth
  obtain ⟨sturdy, running⟩ := sturdy.play running leads (fun _ _ => Smooth.not_crashes) smooth
  subst here step
  refine ⟨fun arity next calls => ?_, fun arity blocks c below next calls frames above call => ?_, fun n next => ?_⟩
  · exact sturdy.call_returns running leads small next calls now rest
  · exact sturdy.tailCall_returns running leads next calls now rest frames above call
  · obtain ⟨entered, left⟩ := sturdy.block_left running leads next now rest (f := f)
    exact ⟨entered, fun later canceled' => left later (.step canceled')⟩

/-- A function that calls another in its own place. -/
def tailCode : Code :=
  #[some (.loadFunc 0 3), some (.call 0), some .done, some (.loadFunc 0 5), some (.tailCall 0), some .reset]

/-- The fiber when the call has returned. -/
def afterCall : Fiber := { id := 0, state := .running, pc := 2, env := 240, spare := 2, started := true }

/-- Can the machine make `n` steps? -/
def makes (canceled : Bool) (n : Nat) (m : Machine) : Bool :=
  match steps canceled n m with
  | .ok _ _ => true
  | .error _ _ => false

theorem ok_of_makes {canceled : Bool} {n : Nat} {m : Machine} (makes : m.makes canceled (n + 1)) :
    ∃ m', perform (.step canceled) m = .ok () m' ∧ m'.makes canceled n := by
  have run : steps canceled (n + 1) m = (step canceled >>= fun _ => steps canceled n) m := rfl
  rw [Machine.makes, run] at makes
  cases first : step canceled m with
  | error e m' =>
    rw [bind_of_error first] at makes
    cases makes
  | ok u m' =>
    rw [bind_of_ok first] at makes
    exact ⟨m', first, makes⟩

theorem along_smooth_of_makes {canceled : Bool} {n : Nat} {m : Machine} (makes : m.makes canceled n) :
    m.Along Smooth (List.replicate n (.step canceled)) := by
  induction n generalizing m with
  | zero => trivial
  | succ n ih =>
    obtain ⟨m', here, later⟩ := ok_of_makes makes
    refine ⟨by rw [Smooth, here]; trivial, ?_⟩
    rw [turn_of_run here]
    exact ih later

instance decidableFallsTo {id height : Nat} {f : Fiber} : (m : Machine) → (ts : List Turn) →
    Decidable (m.FallsTo id height f ts)
  | m, [] => inferInstanceAs (Decidable (f ∈ m.fibers ∧ f.id = id ∧ f.frames.length ≤ height))
  | m, t :: ts =>
    @instDecidableAnd _ _ (List.decidableBAll (fun g => g.id = id → height < g.frames.length) m.fibers)
      (decidableFallsTo (m.turn t) ts)

/-- The closure at 256 is about to be called. -/
def atCall (m : Machine) : Bool :=
  m.control.failed.isNone && m.control.result.isNone && m.control.advance.2.toOption == some (.call 0) &&
    m.current.operands == [256] && decide (256 + Heap.nodeSize ≤ m.heap.words.size) &&
    Heap.tagAt m.heap.words 256 == .closure

theorem calls_of_atCall {m : Machine} (ready : m.atCall) : m.Executes (.call 0) ∧ m.CallsClosure 0 := by
  simp only [atCall, Bool.and_eq_true, Option.isNone_iff_eq_none, beq_iff_eq, decide_eq_true_eq] at ready
  obtain ⟨⟨⟨⟨⟨fine, more⟩, next⟩, operands⟩, inside⟩, closure⟩ := ready
  refine ⟨⟨fine, more, ?_⟩, 256, ?_, ⟨rfl, inside⟩, closure⟩
  · cases fetched : m.control.advance.2 with
    | error e =>
      rw [fetched] at next
      cases next
    | ok i =>
      rw [fetched] at next
      exact congrArg _ (Option.some.inj next)
  · rw [show m.control.sched.current.operands = [256] from operands]
    rfl

theorem calls_return_tail : ∃ m₀ m, Machine.create 368 tailCode {} = .ok m₀ ∧ m₀.play [.step false] = m ∧
    m₀.Along Smooth (List.replicate 5 (.step false)) ∧ m.Executes (.call 0) ∧ m.CallsClosure 0 ∧
    (m.turn (.step false)).FallsTo m.current.id m.current.frames.length afterCall (List.replicate 3 (.step false)) ∧
    afterCall.frames = m.current.frames ∧ afterCall.env = m.current.env ∧ afterCall.pc = m.current.pc + 1 := by
  obtain ⟨m₀, made, run, ready, falls⟩ : ∃ m₀, Machine.create 368 tailCode {} = .ok m₀ ∧ m₀.makes false 5 ∧
      (m₀.turn (.step false)).atCall ∧ ((m₀.turn (.step false)).turn (.step false)).FallsTo
        (m₀.turn (.step false)).current.id (m₀.turn (.step false)).current.frames.length afterCall
        (List.replicate 3 (.step false)) := ⟨_, Machine.create_listed rfl, by decide +kernel⟩
  have smooth := along_smooth_of_makes run
  obtain ⟨next, calls⟩ := calls_of_atCall ready
  have split : List.replicate 5 (Turn.step false) = [.step false] ++ .step false :: List.replicate 3 (.step false) := rfl
  obtain ⟨returns, -⟩ := calls_return (by decide) made (split ▸ smooth) rfl rfl afterCall
  exact ⟨m₀, _, made, rfl, smooth, next, calls, falls, (returns 0 next calls).2 falls⟩

end Machine

end FiberVm
