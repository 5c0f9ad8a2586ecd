import FiberVm.Proofs.Machine.Entering

/-!
# Every instruction does what its label says

The operations on wait groups, the builtins, the calls and the instructions that start a fiber, one after
the other, and then all instructions together. What is needed is that the machine is alike to itself, that
its current fiber runs and that its channels are in order.
-/

set_option autoImplicit false

namespace FiberVm

open Heap (Shows Drift Updates Wired Plays Effect Spares bottom)

namespace Machine

/-- An instruction with a plain label has been executed. -/
def Plainly (m m' : Machine) : Prop := ∃ l : StepLabel, m.Deed l m' ∧ l.IsPlain

variable {m m' m'' : Machine}

theorem Quiet.plainly (quiet : m.Quiet m') : m.Plainly m' := ⟨.quiet, ⟨quiet.drift, quiet.sched⟩, trivial⟩

theorem Plainly.push (plainly : m.Plainly m') (a : Addr) :
    m.Plainly (m'.withSched (m'.control.sched.push a)) := by
  obtain ⟨l, deed, plain⟩ := plainly
  exact ⟨l, ⟨deed.heap, deed.sched.undisturbed (.push _ a)⟩, plain⟩

/-- It does not matter to the label if registers have been changed before. -/
theorem Plainly.after (plainly : m'.Plainly m'') (heap : m'.heap = m.heap)
    (undisturbed : m.control.sched.Undisturbed m'.control.sched) : m.Plainly m'' := by
  obtain ⟨l, deed, plain⟩ := plainly
  exact ⟨l, ⟨heap ▸ deed.heap, deed.sched.of_undisturbed undisturbed⟩, plain⟩

end Machine

/-- The fibers that are released from a wait group. -/
def StepLabel.releases : StepLabel → List Nat
  | drain _ ids => ids.map Word.fiber
  | _ => []

namespace Heap

/-- The fibers that wait at a wait group, in the order in which they came. -/
def waitingAt (h : Heap) (g : Addr) : List Nat :=
  match groupWaiters g h with
  | .ok ids _ => ids.map Word.fiber
  | .error _ _ => []

/-- Those who have waited at a wait group and do so no more. -/
def leaving (h h' : Heap) (g : Addr) : List Nat := (h.waitingAt g).filter fun id => id ∉ h'.waitingAt g

variable {h h' : Heap} {g : Addr} {n n' : Int32} {ids ids' : List Word}

theorem waitingAt_shows (s : Shows h.words g (.group n ids)) : h.waitingAt g = ids.map Word.fiber := by
  rw [waitingAt, groupWaiters_shows s]

/-- Nobody leaves if all who have waited are still there. -/
theorem leaving_eq_nil (s : Shows h.words g (.group n ids)) (s' : Shows h'.words g (.group n' ids'))
    (stay : ids ⊆ ids') : leaving h h' g = [] := by
  rw [leaving, waitingAt_shows s, waitingAt_shows s']
  refine List.filter_eq_nil_iff.2 fun id mem => ?_
  simpa using List.map_subset Word.fiber stay mem

theorem leaving_eq_all (s : Shows h.words g (.group n ids)) (s' : Shows h'.words g (.group n' [])) :
    leaving h h' g = ids.map Word.fiber := by
  rw [leaving, waitingAt_shows s, waitingAt_shows s']
  exact List.filter_eq_self.2 fun id _ => by simp

end Heap

/-- The label is of something done to the wait group at `g`, if anything. -/
def StepLabel.OnGroup (g : Addr) : StepLabel → Prop
  | quiet => True
  | count a | drain a _ | wait a _ => a = g
  | _ => False

namespace Machine

variable {m m' : Machine} {g ch : Addr}

/-- Something has been done to the wait group at `g`, which is the only node that has been written to. Those who have
left it have been released. -/
def Grouped (g : Addr) (m m' : Machine) : Prop :=
  ∃ l : StepLabel, m.Deed l m' ∧ l.OnGroup g ∧ l.releases = Heap.leaving m.heap m'.heap g ∧
    Spares [g] [] m.heap m'.heap

/-- The channel at `ch` has been closed, which is the only node that has been written to. -/
def Closed (ch : Addr) (m m' : Machine) : Prop := m.Deed (.act ch .close) m' ∧ Spares [ch] [] m.heap m'.heap

theorem Grouped.plainly (grouped : Grouped g m m') : m.Plainly m' := by
  obtain ⟨l, deed, on, -, -⟩ := grouped
  refine ⟨l, deed, ?_⟩
  cases l with
  | quiet | count | drain | wait => exact trivial
  | _ => exact on.elim

theorem Closed.plainly (closed : Closed ch m m') : m.Plainly m' := ⟨_, closed.1, trivial⟩

end Machine

theorem Calm.plainly {m : Machine} {x : Exec Unit} (calm : Calm x m) : Does m.Plainly x m :=
  .of_calm calm fun _ _ quiet => quiet.plainly

section Groups

variable {m : Machine} {g : Addr}

theorem Scheduler.isLive_wake (s : Scheduler) (id k : Nat) : (s.wake id).isLive k = s.isLive k := by
  unfold Scheduler.wake
  rw [Bool.eq_iff_iff, Scheduler.isLive_iff, Scheduler.isLive_iff]
  split
  · split
    · rename_i blocked
      simp [blocked]
    · rfl
  · split
    · refine or_congr_right ⟨?_, ?_⟩
      · rintro ⟨f, mem, eq⟩
        obtain ⟨g, inside, rfl⟩ := List.mem_map.1 mem
        refine ⟨g, inside, ?_⟩
        rw [← eq]
        split <;> rfl
      · rintro ⟨f, mem, eq⟩
        refine ⟨_, List.mem_map_of_mem mem, ?_⟩
        rw [← eq]
        split <;> rfl
    · rfl

theorem Int64.toInt32_pos {n : Int64} (low : ¬ n < 0) (high : ¬ 2147483647 < n) (some : n ≠ 0) : 0 < n.toInt32 := by
  have low : 0 ≤ n.toInt := Int.not_lt.1 fun negative => low (Int64.lt_iff_toInt_lt.2 negative)
  have high : n.toInt ≤ 2147483647 := Int.not_lt.1 fun above => high (Int64.lt_iff_toInt_lt.2 above)
  have some : n.toInt ≠ 0 := fun zero => some (Int64.toInt_inj.1 zero)
  refine Int32.lt_iff_toInt_lt.2 ?_
  rw [Int64.toInt_toInt32, Int.bmod_eq_of_le (by omega) (by omega)]
  exact Int.lt_iff_le_and_ne.2 ⟨low, Ne.symm some⟩

/-- Waking some fibers one after the other, until one is not found. -/
theorem Exec.wakeAll_cases (ids : List Word) (m : Machine) :
    (ids.forM fun id => Exec.wake id.toInt64.toInt noAddr) m =
        .ok () (m.withSched (ids.foldl (fun s id => s.wake id.fiber) m.control.sched)) ∨
      ∃ id ∈ ids, ∃ m', (ids.forM fun id => Exec.wake id.toInt64.toInt noAddr) m =
          .error (.fault (.unknownFiber id.toInt64.toInt)) m' ∧ m'.heap = m.heap ∧
        m'.control.sched.nextId = m.control.sched.nextId ∧
        ¬ (0 ≤ id.toInt64.toInt ∧ m.control.sched.isLive id.fiber) := by
  induction ids generalizing m with
  | nil => exact .inl rfl
  | cons id ids ih =>
    have first := Exec.wake_eq id.toInt64.toInt noAddr m
    by_cases live : 0 ≤ id.toInt64.toInt ∧ m.control.sched.isLive id.toInt64.toInt.toNat = true
    · rw [if_pos live, if_pos rfl] at first
      rcases ih (m.withSched (m.control.sched.wake id.fiber)) with ok | ⟨k, mem, m', run, heap, nextId, lost⟩
      · exact .inl ((bind_of_ok first).trans ok)
      · refine .inr ⟨k, List.mem_cons_of_mem id mem, m', (bind_of_ok first).trans run, heap,
          nextId.trans (m.control.sched.nextId_wake id.fiber), ?_⟩
        rwa [← Scheduler.isLive_wake m.control.sched id.fiber]
    · rw [if_neg live] at first
      exact .inr ⟨id, List.mem_cons_self, m, bind_of_error first, rfl, rfl, live⟩

theorem Does.groupAdd (tells : m.heap.Tells g) (delta : Int64) : Does (m.Grouped g) (Exec.groupAdd g delta) m := by
  unfold Exec.groupAdd
  refine .read (Exec.still_expectTag g _ _) fun _ run => ?_
  obtain ⟨n, s, isGroup⟩ := Exec.shows_of_expectTag tells run nofun
  obtain ⟨counter, ids, rfl⟩ := s.group_of_tag isGroup
  refine .registers (onHeap_ok (Heap.groupCounter_shows s)) rfl (.refl _) ?_
  generalize counter.toInt64 + delta = sum
  dsimp only
  split
  · exact .fault (by simp)
  next low =>
  split
  · exact .fault (by simp)
  next high =>
  obtain ⟨h₁, set, u⟩ := Heap.setGroupCounter_shows s sum.toInt32
  split
  · next zero =>
    subst zero
    obtain ⟨h₂, drained, u₂⟩ := Heap.drainGroupWaiters_shows u.shows
    have updates := u.trans u₂
    have start : ∀ k : List Word → Exec Unit, (Exec.onHeap (Heap.setGroupCounter g (Int64.toInt32 0)) >>= fun _ =>
        Exec.onHeap (Heap.drainGroupWaiters g) >>= k) m = k ids ⟨h₂, m.control⟩ := fun k =>
      (bind_of_ok (onHeap_ok set)).trans (bind_of_ok (onHeap_ok drained))
    rcases Exec.wakeAll_cases ids ⟨h₂, m.control⟩ with ok | ⟨id, mem, m', run, heap, nextId, lost⟩
    · exact .of_ok ((start _).trans ok)
        ⟨.drain g ids, ⟨⟨counter, s, updates⟩, .refl _⟩, rfl, (Heap.leaving_eq_all s updates.shows).symm, updates.spares s⟩
    · rw [Does, (start _).trans run]
      refine .lost (l := .drain g ids) rfl ⟨lost, .inr ⟨g, counter, ids, id, s, mem, rfl⟩⟩ ?_ nextId
      exact ⟨counter, s, heap ▸ updates⟩
  · next some =>
    have positive := Int64.toInt32_pos low high some
    exact .of_ok ((bind_of_ok (onHeap_ok set)).trans rfl)
      ⟨.count g, ⟨⟨counter, _, ids, s, u, positive⟩, .refl _⟩, rfl,
        (Heap.leaving_eq_nil s u.shows (List.Subset.refl _)).symm, u.spares s⟩

theorem Does.groupWait (tells : m.heap.Tells g) : Does (m.Grouped g) (Exec.groupWait g) m := by
  unfold Exec.groupWait
  refine .read (Exec.still_expectTag g _ _) fun _ run => ?_
  obtain ⟨n, s, isGroup⟩ := Exec.shows_of_expectTag tells run nofun
  obtain ⟨counter, ids, rfl⟩ := s.group_of_tag isGroup
  refine .registers (onHeap_ok (Heap.groupCounter_shows s)) rfl (.refl _) ?_
  split
  · exact .of_ok rfl ⟨.quiet, ⟨.refl _, .refl _⟩, trivial, (Heap.leaving_eq_nil s s (List.Subset.refl _)).symm,
      (Spares.refl _).mono (List.nil_subset _)⟩
  next waits =>
  refine .read (Exec.still_asks _) fun id run => ?_
  obtain rfl : m.control.sched.current.id = id := by cases run; rfl
  by_cases full : ids.length = 15
  · exact .of_fault (c := .waitersCapacity) (bind_of_error (onHeap_error (Heap.addGroupWaiter_full s full _)))
      (by simp)
  · obtain ⟨h', run, u⟩ := Heap.addGroupWaiter_shows s full m.control.sched.current.id
    refine .of_ok ((bind_of_ok (onHeap_ok run)).trans rfl) ?_
    exact ⟨.wait g m.control.sched.current.id, ⟨⟨counter, ids, s, u, waits⟩, rfl, .refl _⟩, rfl,
      (Heap.leaving_eq_nil s u.shows (List.subset_append_left _ _)).symm, u.spares s⟩

end Groups

section Builtins

variable {m : Machine} {ch : Addr} {args : List Addr}

theorem Does.closeChan (wired : Wired m.heap.words) (tells : m.heap.Tells ch) :
    Does (m.Closed ch) (Exec.closeChan ch) m := by
  unfold Exec.closeChan
  refine .read (Exec.still_expectTag ch _ _) fun _ run => ?_
  obtain ⟨n, s, isChannel⟩ := Exec.shows_of_expectTag tells run nofun
  obtain ⟨c, p⟩ := wired.channels ch s.node (s.tagAt.trans isChannel)
  refine .read (Exec.still_onHeap ((Heap.still_field ch 5).bind fun _ => .pure _)) fun closed _ => ?_
  cases closed with
  | true => exact .fault (by simp)
  | false =>
    obtain ⟨h', run, u⟩ := Heap.closeChan_shows p.channel
    exact .of_ok (onHeap_ok run) ⟨⟨⟨c, _, p.ring u, .close, fun _ => .inl⟩, .refl _⟩, u.spares p.channel⟩

theorem Exec.getElem?_of_argument {i : Nat} {a : Addr} {m' : Machine} (run : Exec.argument args i m = .ok a m') :
    args[i]? = some a := by
  unfold Exec.argument at run
  cases get : args[i]? with
  | none =>
    rw [get] at run
    cases run
  | some b =>
    rw [get] at run
    cases run
    rfl

theorem Exec.mem_of_argument {i : Nat} {a : Addr} {m' : Machine} (run : Exec.argument args i m = .ok a m') :
    a ∈ args := List.mem_of_getElem? (Exec.getElem?_of_argument run)

theorem Calm.pushInt (holding : m.Holding []) (k : Int64) :
    Calm (do Exec.push (← Exec.allocating fun roots => Heap.newInt roots k)) m :=
  (allocating (Heap.newInt_drifts holding.sound holding.start k)).bind fun a _ _ => .push a

theorem Does.builtin (wired : Wired m.heap.words) (holding : m.Holding [])
    (shows : ∀ a ∈ args, ∃ n, Shows m.heap.words a n) {b : Builtin} {k : Nat}
    (row : Builtin.table[b.number.toNat]?.map (·.2) = some k) (other : b ≠ .make) :
    Does m.Plainly (Exec.builtin b args) m := by
  have argument : ∀ {i : Nat} {k : Addr → Exec Unit},
      (∀ a n, Shows m.heap.words a n → Does m.Plainly (k a) m) → Does m.Plainly (Exec.argument args i >>= k) m := by
    intro i k rest
    refine .read (Exec.still_argument args i) fun a run => ?_
    obtain ⟨n, s⟩ := shows a (Exec.mem_of_argument run)
    exact rest a n s
  have intArg : ∀ {i : Nat} {who : String} {k : Int64 → Exec Unit}, (∀ x, Does m.Plainly (k x) m) →
      Does m.Plainly (Exec.argument args i >>= fun a => Exec.intArg a who >>= k) m := fun rest =>
    argument fun a _ _ => .read (Exec.still_intArg a _) fun x _ => rest x
  have format : ∀ {k : String → Exec Unit}, (∀ text, Does m.Plainly (k text) m) →
      Does m.Plainly (Exec.argument args 0 >>= fun a => Exec.onHeap (Heap.format a) >>= k) m := fun rest =>
    argument fun a _ _ => .read (Exec.still_onHeap (Heap.still_format a)) fun text _ => rest text
  rcases Builtin.row_cases row with ⟨-, one⟩ | ⟨-, two⟩
  · simp only [List.mem_cons, List.not_mem_nil, or_false] at one
    rcases one with rfl | rfl | rfl | rfl | rfl | rfl
    -- `println` and `panic`
    · exact format fun text => ((Calm.printLine text).bind fun _ _ _ => .push _).plainly
    · exact format fun text => .fault (by simp)
    -- `sleep`
    · refine intArg fun ms => .registers (Exec.push_eq m _) rfl (.push _ _) (.of_ok rfl ?_)
      exact ⟨.sleep _, ⟨.refl _, Scheduler.Undisturbed.doze ((Scheduler.Undisturbed.push _ _).trans (.clock _ _)) _⟩, trivial⟩
    -- `close` and `wgDone`
    · exact argument fun a n s => .push ((closeChan wired s.tells).imp fun m' _ closed => closed.plainly.push _)
    · exact argument fun g n s => .push ((groupAdd s.tells (-1)).imp fun m' _ grouped => grouped.plainly.push _)
    -- `wgWait`, which has a register changed before it acts
    · have undisturbed := Scheduler.Undisturbed.push m.control.sched Heap.unassigned
      refine .registers (Exec.push_eq m Heap.unassigned) rfl undisturbed (.read (Exec.still_argument args 0) ?_)
      intro g run
      obtain ⟨n, s⟩ := shows g (Exec.mem_of_argument run)
      exact (groupWait (m := m.withSched (m.control.sched.push Heap.unassigned)) s.tells).imp fun m' _ grouped =>
        grouped.plainly.after rfl undisturbed
  · simp only [List.mem_cons, List.not_mem_nil, or_false] at two
    rcases two with rfl | rfl | rfl | rfl
    -- `make`, `max`, `min` and `wgAdd`
    · exact absurd rfl other
    · exact intArg fun x => intArg fun y => (Calm.pushInt holding _).plainly
    · exact intArg fun x => intArg fun y => (Calm.pushInt holding _).plainly
    · refine argument fun g n s => intArg fun delta => ?_
      exact .push ((groupAdd s.tells delta).imp fun m' _ grouped => grouped.plainly.push _)

theorem Does.make (holding : m.Holding []) :
    Does (fun m' => ∃ capacity ch s r, m.Deed (.make capacity ch s r) m' ∧ m'.control.sched.current.operands.head? =
      some ch) (Exec.builtin .make args) m := by
  refine .read (Exec.still_argument args 1) fun a _ => .read (Exec.still_intArg a _) fun capacity _ => ?_
  have makes : Heap.MakesChannel capacity.toInt.toNat m.heap (Heap.newChannel m.rootThunk capacity.toInt m.heap) :=
    Heap.newChannel_makes holding.sound holding.start capacity.toInt
  cases run : Heap.newChannel m.rootThunk capacity.toInt m.heap with
  | ok ch h' =>
    rw [run] at makes
    obtain ⟨s, r, made⟩ := makes
    refine .of_ok ((bind_of_ok (allocating_ok run)).trans rfl) ⟨_, ch, s, r, ⟨made, ?_⟩, rfl⟩
    exact Scheduler.Undisturbed.push m.control.sched ch
  | error e h' =>
    rw [run] at makes
    rw [Does, bind_of_error (allocating_error run)]
    exact .early makes.1 (.inr makes.2) (.refl _)

end Builtins

section Calls

variable {q : Terms} {w : World} {m m₂ : Machine} {i : Instr} {arity : Int} {tail : Bool}

theorem Machine.Alike.shows (alike : m.Alike q w m₂) (alive : m.control.sched.current.state ≠ .terminated)
    {a : Addr} (mem : a ∈ m.control.sched.current.operands) : ∃ n, Shows m.heap.words a n := by
  obtain ⟨n, -, -, s, -⟩ := alike.node ((alike.typed alive).operands a mem)
  exact ⟨n, s⟩

theorem Machine.Holding.drop (holding : m.Holding []) (alive : m.control.sched.current.state ≠ .terminated)
    (k : Nat) : (m.withFiber (m.control.sched.current.drop k)).Holding [] := by
  refine holding.withFiber fun x mem => .inl (Machine.mem_roots alive ?_)
  simp only [Fiber.roots, Fiber.drop, List.mem_cons, List.mem_append] at mem ⊢
  rcases mem with env | operand | frame
  · exact .inl env
  · exact .inr (.inl (List.mem_of_mem_drop operand))
  · exact .inr (.inr frame)

theorem Does.callee {b : Builtin} {args : List Addr} {n k : Nat} (plain : i.IsPlain) (wired : Wired m.heap.words)
    (callee : m.callee i = some b) (holding : (m.withFiber (m.control.sched.current.drop n)).Holding [])
    (shows : ∀ a ∈ args, ∃ n, Shows m.heap.words a n)
    (row : Builtin.table[b.number.toNat]?.map (·.2) = some k) :
    Does (fun m' => ∃ l : StepLabel, m.Deed l m' ∧ l.Of m i m') (Exec.builtin b args)
      (m.withFiber (m.control.sched.current.drop n)) := by
  have undisturbed := m.undisturbed_withFiber (f := m.control.sched.current.drop n) rfl rfl
  by_cases other : b = .make
  · subst other
    refine (make holding).imp fun m' _ made => ?_
    obtain ⟨capacity, ch, s, r, deed, top⟩ := made
    exact ⟨_, ⟨deed.heap, deed.sched.of_undisturbed undisturbed⟩, callee, top⟩
  · have wired : Wired (m.withFiber (m.control.sched.current.drop n)).heap.words := wired
    refine (Does.builtin wired holding shows row other).imp fun m' _ plainly => ?_
    obtain ⟨l, deed, label⟩ := plainly.after (m := m) rfl undisturbed
    exact ⟨l, deed, label.of plain (by rw [callee]; exact fun eq => other (Option.some.inj eq))⟩

theorem Does.call (is : i = .call arity ∨ i = .tailCall arity) (alike : m.Alike q w m₂)
    (running : m.control.sched.current.state = .running) (wired : Wired m.heap.words) :
    Does (fun m' => ∃ l : StepLabel, m.Deed l m' ∧ l.Of m i m') (Exec.call arity tail) m := by
  have alive : m.control.sched.current.state ≠ .terminated := by rw [running]; decide
  have plain : i.IsPlain := by
    rcases is with rfl | rfl <;> exact ⟨nofun, nofun, nofun, by simp⟩
  unfold Exec.call
  split
  · exact .fault (by simp)
  refine .read (Exec.still_peek _) fun fn get => .read (Exec.still_asks _) fun operands run => ?_
  obtain rfl : m.control.sched.current.operands = operands := by cases run; rfl
  have found := Exec.getElem?_of_peek get
  have mem := List.mem_of_getElem? found
  obtain ⟨n, r, -, s, admits, -⟩ := alike.node ((alike.typed alive).operands fn mem)
  refine .read (Exec.still_tagOf fn) fun tag run => ?_
  obtain rfl : n.tag = tag := by
    have eq := (onHeap_ok (Heap.tagOf_shows s)).symm.trans run
    cases eq
    rfl
  have sub : (m.control.sched.current.operands.take arity.toNat).reverse ⊆ m.control.sched.current.operands :=
    fun x mem => List.mem_of_mem_take (List.mem_reverse.1 mem)
  split
  · rename_i builtin
    obtain ⟨b, want, rfl⟩ := s.builtin_of_tag builtin
    have callee : m.callee i = some b := by
      rcases is with rfl | rfl <;>
        simp only [Machine.callee, Machine.current, found, s.tagAt, builtin, Heap.builtinAt_shows s, if_true]
    refine .registers (onHeap_ok (Heap.builtinAt_shows s)) rfl (.refl _) ?_
    dsimp only
    split
    · exact .fault (by simp)
    have undisturbed := m.undisturbed_withFiber (f := m.control.sched.current.drop (arity.toNat + 1)) rfl rfl
    refine .registers (Exec.drop_ok ?_) rfl undisturbed ?_
    · exact (List.getElem?_eq_some_iff.1 found).1
    exact .callee plain wired callee (alike.holding.drop alive (arity.toNat + 1))
      (fun a inside => alike.shows alive (sub inside)) admits.fits.row
  · rename_i noBuiltin
    have callee : m.callee i = none := by
      rcases is with rfl | rfl <;> simp only [Machine.callee, Machine.current, found, s.tagAt, noBuiltin, if_false]
    split
    · rename_i closure
      refine .read (Exec.still_onHeap ((Heap.still_field fn 3).bind fun _ => .pure _)) fun want _ => ?_
      split
      · exact .fault (by simp)
      obtain ⟨k, pc, e, s', role, -⟩ := alike.closure ((alike.typed alive).operands fn mem) (s.tagAt.trans closure)
      obtain ⟨frames, env, -, -⟩ := alike.heap.environment role
      obtain ⟨_, _, _, rfl⟩ := s.closure_of_tag closure
      have high : bottom ≤ fn := admits.high id
      refine .of_calm (Calmly.enterClosure alike.holding alive mem high s' env sub tail).calm fun m' _ quiet => ?_
      exact ⟨.quiet, ⟨quiet.drift, quiet.sched⟩, plain, by rw [callee]; nofun⟩
    · exact .fault (by simp)

end Calls

section Instructions

variable {q : Terms} {w : World} {m m₂ : Machine} {i : Instr}

theorem Exec.still_findStop (next : Nat) : Still (Exec.findStop next) := by
  refine (Exec.still_asks _).bind fun code => ?_
  split
  · exact .pure _
  · exact .fault (by simp)
  · exact .crash _

theorem Does.startFiber (stop : Int) :
    Does (fun m' => ∃ pc env, m.Deed (.spawn pc env) m' ∧ m'.heap = m.heap) (Exec.startFiber stop) m := by
  unfold Exec.startFiber
  refine .read (Exec.still_asks _) fun pc _ => ?_
  have starts : ∀ last : Int, Does (fun m' => ∃ pc env, m.Deed (.spawn pc env) m' ∧ m'.heap = m.heap)
      (do
        if last < pc ∨ (← Exec.asks fun c => (c.code.size : Int)) ≤ last then FiberVm.fault (.stopOutOfRange last)
        else
          let env ← Exec.asksFiber (·.env)
          Exec.modifySched fun s => s.spawn pc env
          Exec.jump (last + 1)) m := by
    refine fun last => .read (Exec.still_asks _) fun size _ => ?_
    split
    · exact .fault (by simp)
    · refine .read (Exec.still_asks _) fun env _ => .of_ok rfl ?_
      exact ⟨pc, env, ⟨.refl _, ⟨rfl, rfl, rfl, rfl, rfl, rfl⟩⟩, rfl⟩
  dsimp only
  split
  · exact .read (Exec.still_findStop _) fun last _ => starts last
  · exact .read (.pure stop) fun last _ => starts last

theorem Does.makeWaitGroup (holding : m.Holding []) : Does m.Plainly (Exec.instr .makeWaitGroup) m := by
  rcases Heap.newWaitGroup_grants holding.sound holding.start with
    ⟨g, h', run, fresh, drift, s⟩ | ⟨k, h', run, -, drift⟩
  · refine .of_ok ((bind_of_ok (allocating_ok run)).trans rfl) ?_
    exact ⟨.newGroup g, ⟨⟨drift, s, fresh.high⟩, .push _ g⟩, trivial⟩
  · rw [Does, show Exec.instr .makeWaitGroup m = _ from bind_of_error (allocating_error run)]
    exact .early (by simp) (.inl drift) (.refl _)

theorem Calm.load (pos : Pos) (name : String) : Calm (do
    let env ← Exec.asksFiber (·.env)
    let a ← Exec.onHeap (Heap.lookup env pos.frame pos.slot)
    if a = Heap.unassigned then FiberVm.fault (.unassigned name) else Exec.push a) m := by
  refine .read (Exec.still_asks _) fun env _ => .read (Exec.still_onHeap (Heap.still_lookup _ _ _)) fun a _ => ?_
  split
  · exact .fault (by simp)
  · exact .push a

theorem Calm.jumpOnFalse (target : Int) : Calm (Exec.instr (.jumpOnFalse target)) m := by
  refine pop.bind fun a m₁ _ => ?_
  split
  · exact .pure _
  split
  · exact .jump target
  · exact .read (Exec.still_tagOf a) fun tag _ => .fault (by simp)

/-- What is neither a call nor one of the instructions that fibers meet by. -/
theorem Does.plain (alike : m.Alike q w m₂) (alive : m.control.sched.current.state ≠ .terminated)
    (plain : i.IsPlain) (simple : ∀ arity, i ≠ .call arity ∧ i ≠ .tailCall arity) :
    Does m.Plainly (Exec.instr i) m := by
  have holding := alike.holding
  have env : m.Holding [m.control.sched.current.env] :=
    holding.subset (by simpa using .inl (Machine.env_mem_roots alive))
  cases i with
  | send => exact absurd rfl plain.1
  | recv => exact absurd rfl plain.2.1
  | stopFiber => exact absurd rfl plain.2.2.1
  | startFiber stop => exact absurd rfl (plain.2.2.2 stop)
  | call arity => exact absurd rfl (simple arity).1
  | tailCall arity => exact absurd rfl (simple arity).2
  | loadConst v =>
    exact ((Calm.allocating (Heap.box_drifts holding.sound holding.start v)).bind fun a _ _ => .push a).plainly
  | load pos sym => exact (Calm.load pos _).plainly
  | loadFunc arity entry =>
    refine .read (Exec.still_asks _) fun e run => ?_
    obtain rfl : m.control.sched.current.env = e := by cases run; rfl
    refine ((Calm.allocating ?_).bind fun a _ _ => .push a).plainly
    exact Heap.newClosure_drifts env.sound env.traceable arity entry
  | assign pos sym => exact (Calm.assign alike alive pos.frame pos.slot).plainly
  | binary op =>
    refine .read (Exec.still_peek 0) fun y _ => .read (Exec.still_peek 1) fun x _ => ?_
    exact ((Calm.binary holding op).bind fun a _ _ => (Calm.drop 2).bind fun _ _ _ => .push a).plainly
  | unary op =>
    refine .read (Exec.still_peek 0) fun x _ => ?_
    exact ((Calm.unary holding op).bind fun a _ _ => (Calm.drop 1).bind fun _ _ _ => .push a).plainly
  | jumpOnFalse target => exact (Calm.jumpOnFalse target).plainly
  | goto target => exact (Calm.jump target).plainly
  | done => exact .of_ok rfl (Machine.Quiet.plainly ⟨.refl _, .refl _⟩)
  | pop => exact (Calm.pop.bind fun _ _ _ => .pure _).plainly
  | reset => exact Calm.reset.plainly
  | nop => exact (Calm.pure ()).plainly
  | enterScope n =>
    obtain ⟨frames, s, -, -⟩ := alike.heap.environment (alike.typed alive).env
    exact (Calmly.enterScope alike.holding alive s n).calm.plainly
  | exitScope => exact Calm.exitScope.plainly
  | makeWaitGroup => exact .makeWaitGroup holding
  | foreign op typeName => exact .fault (by simp)

theorem Does.instr (alike : m.Alike q w m₂) (running : m.control.sched.current.state = .running)
    (wired : Wired m.heap.words) (i : Instr) :
    Does (fun m' => ∃ l : StepLabel, m.Deed l m' ∧ l.Of m i m') (Exec.instr i) m := by
  have alive : m.control.sched.current.state ≠ .terminated := by rw [running]; decide
  have simple : i.IsPlain → (∀ arity, i ≠ .call arity ∧ i ≠ .tailCall arity) → m.callee i ≠ some .make →
      Does (fun m' => ∃ l : StepLabel, m.Deed l m' ∧ l.Of m i m') (Exec.instr i) m := fun plain calls other =>
    (Does.plain alike alive plain calls).imp fun _ _ ⟨l, deed, label⟩ => ⟨l, deed, label.of plain other⟩
  cases i with
  | send =>
    refine (Does.send wired fun a mem => (alike.shows alive mem).elim fun _ s => s.tells).imp ?_
    exact fun m' _ ⟨ch, a, acted⟩ => ⟨.act ch a, acted.deed, acted.fits⟩
  | recv =>
    refine (Does.recv wired fun a mem => (alike.shows alive mem).elim fun _ s => s.tells).imp ?_
    exact fun m' _ ⟨ch, a, acted⟩ => ⟨.act ch a, acted.deed, acted.fits⟩
  | startFiber stop =>
    exact (Does.startFiber stop).imp fun m' _ ⟨pc, env, deed, _⟩ => ⟨.spawn pc env, deed, stop, rfl⟩
  | stopFiber => exact .of_ok rfl ⟨.stop, ⟨.refl _, .refl _⟩, rfl⟩
  | call arity => exact .call (.inl rfl) alike running wired
  | tailCall arity => exact .call (.inr rfl) alike running wired
  | _ => exact simple ⟨nofun, nofun, nofun, by simp⟩ (fun _ => ⟨nofun, nofun⟩) nofun

end Instructions

end FiberVm
