import Mathlib.Algebra.BigOperators.Finprod
import Mathlib.Data.Set.Card
import FiberVm.Profiler
import FiberVm.Proofs.Machine.Events

/-!
# What a profiler counts

A profiler tells of the events since it was last cleared: how many there were, of which fibers, and at which
instructions of the program. It marks an instruction as hot and reports it at the event that makes its count reach the
threshold, so what is marked, how many are marked and what has been reported always agree with the counts. An event
outside the program counts for its fiber only.
-/

set_option autoImplicit false

namespace FiberVm

open Machine (Event)

namespace Profiler

section Calls

/-- What changes a profiler. -/
inductive Call
  | record (e : Event)
  | reset
deriving DecidableEq

def Call.apply (p : Profiler) : Call → Profiler
  | record e => p.record e
  | reset => p.reset

/-- Adds the event of a call to those before it, unless it is the call that forgets them. -/
def Call.note (es : List Event) : Call → List Event
  | record e => es ++ [e]
  | reset => []

/-- The events since the last reset. -/
def since (calls : List Call) : List Event := calls.foldl Call.note []

end Calls

section Visits

variable {size T : Nat} {es : List Event} {e : Event} {pcs : List Nat}

/-- The number of events at an index. -/
def visits (es : List Event) (pc : Int) : Nat := es.countP fun e => e.pc == pc

theorem visits_append (es : List Event) (e : Event) (pc : Int) :
    visits (es ++ [e]) pc = visits es pc + if e.pc = pc then 1 else 0 := by
  simp only [visits, List.countP_append, List.countP_singleton, beq_iff_eq]

/-- The first of two indices had `T` events at a time when the second had fewer. -/
def Sooner (T : Nat) (es : List Event) (a b : Nat) : Prop := ∃ es', es' <+: es ∧ T ≤ visits es' a ∧ visits es' b < T

theorem Sooner.append {a b : Nat} (sooner : Sooner T es a b) (e : Event) : Sooner T (es ++ [e]) a b := by
  obtain ⟨es', before, reached, short⟩ := sooner
  exact ⟨es', before.trans (List.prefix_append es [e]), reached, short⟩

/-- The indices inside the program with at least `T` events, in the order in which they got there. -/
structure Reaching (size T : Nat) (es : List Event) (pcs : List Nat) : Prop where
  mem : ∀ pc, pc ∈ pcs ↔ pc < size ∧ T ≤ visits es pc
  order : pcs.Pairwise (Sooner T es)

theorem Reaching.nodup (reaching : Reaching size T es pcs) : pcs.Nodup := by
  refine reaching.order.imp_of_mem fun {a b} ha _ sooner same => ?_
  obtain ⟨es', -, reached, short⟩ := sooner
  exact Nat.not_lt.2 reached (same ▸ short)

theorem Reaching.stay (reaching : Reaching size T es pcs)
    (same : ∀ pc < size, T ≤ visits (es ++ [e]) pc ↔ T ≤ visits es pc) : Reaching size T (es ++ [e]) pcs := by
  refine ⟨fun pc => (reaching.mem pc).trans (and_congr_right fun lt => (same pc lt).symm), ?_⟩
  exact reaching.order.imp fun sooner => sooner.append e

theorem Reaching.arrive {pc : Nat} (reaching : Reaching size T es pcs) (here : e.pc = pc) (lt : pc < size)
    (last : visits es pc + 1 = T) : Reaching size T (es ++ [e]) (pcs ++ [pc]) := by
  constructor
  · intro k
    rw [List.mem_append, List.mem_singleton, reaching.mem, visits_append, here]
    by_cases same : pc = k
    · subst same
      rw [if_pos rfl]
      omega
    · have ne : ¬ (pc : Int) = k := by omega
      rw [if_neg ne]
      simp only [Ne.symm same, or_false, Nat.add_zero]
  · refine List.pairwise_append.2 ⟨reaching.order.imp fun sooner => sooner.append e, List.pairwise_singleton _ _, ?_⟩
    intro a mem b at_end
    obtain rfl := List.mem_singleton.1 at_end
    exact ⟨es, List.prefix_append es [e], ((reaching.mem a).1 mem).2, by omega⟩

end Visits

section Heat

/-- The counts, the marks and the reports of a profiler agree with each other and with the events. -/
structure Heat (size T : Nat) (es : List Event) (p : Profiler) : Prop where
  threshold : p.threshold = T
  counts_size : p.counts.size = size
  flags_size : p.hotFlags.size = size
  counts : ∀ pc < size, p.counts[pc]? = some (visits es pc)
  flags : ∀ pc < size, p.hotFlags[pc]? = some (decide (T ≤ visits es pc))
  log : ∃ pcs, p.hotLog.reverse = pcs.map (·, T) ∧ p.hot = pcs.length ∧ Reaching size T es pcs

variable {size T : Nat} {es : List Event} {e : Event} {p : Profiler}

theorem Heat.create (positive : 0 < T) (size : Nat) : Heat size T [] (create size T) := by
  have below : ¬ T ≤ 0 := by omega
  refine ⟨rfl, Array.size_replicate, Array.size_replicate, fun pc lt => ?_, fun pc lt => ?_, [], rfl, rfl, ?_, .nil⟩
  · exact Array.getElem?_replicate.trans (if_pos lt)
  · exact (Array.getElem?_replicate.trans (if_pos lt)).trans (congrArg some (decide_eq_false below).symm)
  · intro pc
    simp only [List.not_mem_nil, visits, List.countP_nil, below, and_false]

/-- An event outside the program changes nothing here. -/
theorem Heat.outside (heat : Heat size T es p) (outside : ∀ pc < size, e.pc ≠ pc) : Heat size T (es ++ [e]) p := by
  have same : ∀ pc < size, visits (es ++ [e]) pc = visits es pc := by
    intro pc lt
    rw [visits_append, if_neg (outside pc lt)]
    rfl
  obtain ⟨pcs, log, hot, reaching⟩ := heat.log
  exact ⟨heat.threshold, heat.counts_size, heat.flags_size, fun pc lt => same pc lt ▸ heat.counts pc lt,
    fun pc lt => same pc lt ▸ heat.flags pc lt, pcs, log, hot, reaching.stay fun pc lt => same pc lt ▸ Iff.rfl⟩

/-- The event that makes the count reach the threshold is the one that marks and reports. -/
theorem Heat.inside (positive : 0 < T) (heat : Heat size T es p) {pc : Nat} (here : e.pc = pc) (lt : pc < size) :
    Heat size T (es ++ [e]) (p.recordPc pc) := by
  have count : p.counts.getD pc 0 = visits es pc := by
    rw [Array.getD_eq_getD_getElem?, heat.counts pc lt, Option.getD_some]
  have flag : p.hotFlags.getD pc false = decide (T ≤ visits es pc) := by
    rw [Array.getD_eq_getD_getElem?, heat.flags pc lt, Option.getD_some]
  have becomes : (!p.hotFlags.getD pc false && decide (0 < p.threshold) &&
      decide (p.threshold ≤ visits es pc + 1)) = decide (visits es pc + 1 = T) := by
    rw [flag, heat.threshold, Bool.eq_iff_iff]
    simp only [Bool.and_eq_true, Bool.not_eq_true', decide_eq_true_eq, decide_eq_false_iff_not]
    omega
  have counts : ∀ k < size, (p.counts.setIfInBounds pc (visits es pc + 1))[k]? = some (visits (es ++ [e]) k) := by
    intro k inside
    rw [Array.getElem?_setIfInBounds, visits_append, here, heat.counts_size, if_pos lt]
    by_cases same : pc = k
    · rw [if_pos same, if_pos (by omega), same]
    · rw [if_neg same, if_neg (by omega), heat.counts k inside, Nat.add_zero]
  obtain ⟨pcs, log, hot, reaching⟩ := heat.log
  unfold recordPc
  simp only [count, becomes, decide_eq_true_eq]
  split
  · next last =>
    refine ⟨heat.threshold, Array.size_setIfInBounds.trans heat.counts_size,
      Array.size_setIfInBounds.trans heat.flags_size, counts, fun k inside => ?_, pcs ++ [pc], ?_, ?_,
      reaching.arrive here lt last⟩
    · rw [Array.getElem?_setIfInBounds, visits_append, here, heat.flags_size, if_pos lt]
      by_cases same : pc = k
      · rw [if_pos same, if_pos (by omega), ← same, last, decide_eq_true (Nat.le_refl T)]
      · rw [if_neg same, if_neg (by omega), heat.flags k inside, Nat.add_zero]
    · rw [List.reverse_cons, log, last, List.map_append, List.map_singleton]
    · rw [hot, List.length_append, List.length_singleton]
  · next other =>
    have same : ∀ k < size, T ≤ visits (es ++ [e]) k ↔ T ≤ visits es k := by
      intro k inside
      rw [visits_append, here]
      by_cases same : pc = k
      · subst same
        rw [if_pos rfl]
        omega
      · rw [if_neg (by omega), Nat.add_zero]
    refine ⟨heat.threshold, Array.size_setIfInBounds.trans heat.counts_size, heat.flags_size, counts,
      fun k inside => ?_, pcs, log, hot, reaching.stay same⟩
    rw [heat.flags k inside]
    exact congrArg some (decide_eq_decide.2 (same k inside).symm)

/-- What is counted by opcode or fiber is not looked at here. -/
theorem Heat.tally (heat : Heat size T es p) (opCounts : Array Nat) (perFiber : List (Int × Nat)) (steps : Nat) :
    Heat size T es { p with opCounts, perFiber, steps } :=
  ⟨heat.threshold, heat.counts_size, heat.flags_size, heat.counts, heat.flags, heat.log⟩

theorem Heat.record (positive : 0 < T) (heat : Heat size T es p) (e : Event) :
    Heat size T (es ++ [e]) (p.record e) := by
  have sizes := heat.counts_size
  unfold Profiler.record
  dsimp only
  split
  · next out => exact (heat.tally _ _ _).outside fun pc lt => by omega
  · next inside =>
    have here : e.pc = e.pc.toNat := by omega
    have lt : e.pc.toNat < size := by omega
    exact (heat.tally _ _ _).inside positive here lt

end Heat

section Fibers

variable {es : List Event} {e : Event} {p : Profiler}

theorem find?_bump (id j : Int) (rows : List (Int × Nat)) :
    (((bump id rows).find? fun row => row.1 == j).map (·.2)).getD 0 =
      ((rows.find? fun row => row.1 == j).map (·.2)).getD 0 + if id = j then 1 else 0 := by
  induction rows with
  | nil =>
    by_cases same : id = j
    · simp [bump, same]
    · simp [bump, same]
  | cons row rows ih =>
    obtain ⟨i, n⟩ := row
    rw [bump]
    by_cases old : i = id
    · subst old
      by_cases same : i = j
      · simp [same]
      · simp [same]
    · rw [if_neg old]
      by_cases same : i = j
      · simp [same, show id ≠ j from fun h => old (same.trans h.symm)]
      · simpa [same] using ih

theorem recordPc_totals (p : Profiler) (pc : Nat) :
    (p.recordPc pc).steps = p.steps ∧ (p.recordPc pc).perFiber = p.perFiber := by
  unfold recordPc
  dsimp only
  split <;> exact ⟨rfl, rfl⟩

theorem record_totals (p : Profiler) (e : Event) :
    (p.record e).steps = p.steps + 1 ∧ (p.record e).perFiber = bump e.fiber p.perFiber := by
  unfold record
  dsimp only
  split
  · exact ⟨rfl, rfl⟩
  · exact recordPc_totals _ _

theorem record_fiberSteps (p : Profiler) (e : Event) (id : Int) :
    (p.record e).fiberSteps id = p.fiberSteps id + if e.fiber = id then 1 else 0 := by
  rw [fiberSteps, (p.record_totals e).2]
  exact find?_bump e.fiber id p.perFiber

theorem finsum_executed (es : List Event) : ∑ᶠ id : Int, es.countP (fun e => e.fiber == id) = es.length := by
  have count : ∀ id, es.countP (fun e => e.fiber == id) = (es.map (·.fiber)).count id := by
    intro id
    rw [List.count_eq_countP, List.countP_map]
    rfl
  have support : (Function.support fun id => (es.map (·.fiber)).count id) ⊆
      ((es.map (·.fiber)).toFinset : Set Int) := by
    intro id some
    exact List.mem_toFinset.2 (List.count_pos_iff.1 (Nat.pos_of_ne_zero some))
  simp only [count]
  rw [finsum_eq_sum_of_support_subset _ support, List.sum_toFinset_count_eq_length, List.length_map]

end Fibers

section Ranking

/-- Of two indices with their counts the first one is the more important. -/
def Outranks (a b : Nat × Nat) : Prop := b.2 < a.2 ∨ a.2 = b.2 ∧ a.1 < b.1

theorem mem_ranked {counts : Array Nat} {pc n : Nat} : (pc, n) ∈ ranked counts ↔ 0 < n ∧ counts[pc]? = some n := by
  unfold ranked
  dsimp only
  rw [List.mem_mergeSort, List.mem_filter, List.mem_map]
  constructor
  · rintro ⟨⟨⟨k, i⟩, mem, same⟩, positive⟩
    cases same
    rw [List.mem_zipIdx_iff_getElem?, Array.getElem?_toList] at mem
    exact ⟨of_decide_eq_true positive, mem⟩
  · rintro ⟨positive, get⟩
    refine ⟨⟨(n, pc), ?_, rfl⟩, decide_eq_true positive⟩
    rw [List.mem_zipIdx_iff_getElem?, Array.getElem?_toList]
    exact get

theorem nodup_ranked (counts : Array Nat) : (ranked counts).Nodup := by
  have rows : (counts.toList.zipIdx.map fun x => (x.2, x.1)).Nodup := by
    refine .of_map Prod.fst ?_
    rw [List.map_map]
    exact List.nodup_zipIdx_map_snd counts.toList
  exact (List.mergeSort_perm _ _).nodup_iff.2 (rows.filter _)

theorem pairwise_ranked (counts : Array Nat) : (ranked counts).Pairwise Outranks := by
  have sorted : (ranked counts).Pairwise fun a b =>
      (decide (b.2 < a.2) || (a.2 == b.2 && decide (a.1 ≤ b.1))) = true := by
    refine List.pairwise_mergeSort (fun a b c => ?_) (fun a b => ?_) _
    · simp only [Bool.or_eq_true, Bool.and_eq_true, decide_eq_true_eq, beq_iff_eq]
      omega
    · simp only [Bool.or_eq_true, Bool.and_eq_true, decide_eq_true_eq, beq_iff_eq]
      omega
  refine (sorted.and (nodup_ranked counts)).imp fun {a b} both => ?_
  obtain ⟨before, ne⟩ := both
  simp only [Bool.or_eq_true, Bool.and_eq_true, decide_eq_true_eq, beq_iff_eq] at before
  refine before.imp_right fun ⟨same, le⟩ => ⟨same, Nat.lt_of_le_of_ne le fun h => ne (Prod.ext h same)⟩

end Ranking

section Accounts

/-- What a profiler tells of a program of `size` instructions is what the events are. -/
structure Describes (size T : Nat) (es : List Event) (p : Profiler) : Prop where
  steps : p.stats.steps = es.length
  executed : ∑ᶠ id : Int, p.fiberSteps id = es.length
  fiberSteps : ∀ id, p.fiberSteps id = es.countP fun e => e.fiber == id
  count : ∀ pc : Int, p.count pc = if 0 ≤ pc ∧ pc < size then visits es pc else 0
  isHot : ∀ pc : Int, p.isHot pc ↔ T ≤ p.count pc
  hot : p.stats.hot = Set.ncard {pc : Int | p.isHot pc}
  log : ∃ pcs : List Nat, p.hotLog.reverse = pcs.map (·, T) ∧ pcs.Nodup ∧ (∀ pc : Nat, pc ∈ pcs ↔ p.isHot pc) ∧
    pcs.Pairwise (Sooner T es)
  top : ∃ rows : List (Nat × Nat), (∀ n : Int, 0 ≤ n → p.top n = .ok (rows.take n.toNat)) ∧ rows.Pairwise Outranks ∧
    ∀ pc n : Nat, (pc, n) ∈ rows ↔ 0 < n ∧ p.count pc = n

variable {size T : Nat} {es : List Event} {p : Profiler}

theorem Heat.count_eq (heat : Heat size T es p) (pc : Int) :
    p.count pc = if 0 ≤ pc ∧ pc < size then visits es pc else 0 := by
  have sizes := heat.counts_size
  unfold Profiler.count
  rw [Array.getD_eq_getD_getElem?]
  by_cases inside : 0 ≤ pc ∧ pc < size
  · have here : (pc.toNat : Int) = pc := by omega
    rw [if_neg (by omega), if_pos inside, heat.counts pc.toNat (by omega), here, Option.getD_some]
  · rw [if_neg inside]
    split
    · rfl
    · rw [Array.getElem?_eq_none (by omega), Option.getD_none]

theorem Heat.isHot_iff (positive : 0 < T) (heat : Heat size T es p) (pc : Int) : p.isHot pc ↔ T ≤ p.count pc := by
  have sizes := heat.flags_size
  unfold Profiler.isHot
  rw [heat.count_eq, Array.getD_eq_getD_getElem?, Bool.and_eq_true, decide_eq_true_eq]
  by_cases inside : 0 ≤ pc ∧ pc < size
  · have here : (pc.toNat : Int) = pc := by omega
    rw [if_pos inside, heat.flags pc.toNat (by omega), here, Option.getD_some, decide_eq_true_eq]
    exact and_iff_right inside.1
  · rw [if_neg inside]
    constructor
    · rintro ⟨low, flag⟩
      rw [Array.getElem?_eq_none (by omega)] at flag
      cases flag
    · omega

/-- All that is counted is counted of these events. -/
structure Tallies (size T : Nat) (es : List Event) (p : Profiler) : Prop extends Heat size T es p where
  steps : p.steps = es.length
  fiberSteps : ∀ id, p.fiberSteps id = es.countP fun e => e.fiber == id

theorem Tallies.create (positive : 0 < T) (size : Nat) : Tallies size T [] (create size T) :=
  ⟨.create positive size, rfl, fun _ => rfl⟩

theorem Tallies.record (positive : 0 < T) (tallies : Tallies size T es p) (e : Event) :
    Tallies size T (es ++ [e]) (p.record e) := by
  refine ⟨tallies.toHeat.record positive e, ?_, fun id => ?_⟩
  · rw [(p.record_totals e).1, tallies.steps, List.length_append, List.length_singleton]
  · rw [record_fiberSteps, tallies.fiberSteps, List.countP_append, List.countP_singleton]
    simp only [beq_iff_eq]

/-- A profiler forgets all but its size and its threshold. -/
theorem Tallies.reset (positive : 0 < T) (tallies : Tallies size T es p) : Tallies size T [] p.reset := by
  rw [Profiler.reset, tallies.counts_size, tallies.threshold]
  exact .create positive size

theorem Tallies.apply (positive : 0 < T) (tallies : Tallies size T es p) (calls : List Call) :
    Tallies size T (calls.foldl Call.note es) (calls.foldl Call.apply p) := by
  induction calls generalizing es p with
  | nil => exact tallies
  | cons c calls ih =>
    cases c with
    | record e => exact ih (tallies.record positive e)
    | reset => exact ih (tallies.reset positive)

theorem Tallies.describes (positive : 0 < T) (tallies : Tallies size T es p) : Describes size T es p := by
  have heat := tallies.toHeat
  obtain ⟨pcs, log, hot, reaching⟩ := heat.log
  have hotAt : ∀ pc : Nat, pc ∈ pcs ↔ p.isHot pc := by
    intro pc
    rw [reaching.mem, heat.isHot_iff positive, heat.count_eq]
    split <;> omega
  have hotSet : {pc : Int | p.isHot pc} = Nat.cast '' (pcs.toFinset : Set Nat) := by
    ext pc
    constructor
    · intro isHot
      have low : 0 ≤ pc := of_decide_eq_true (Bool.and_eq_true_iff.1 isHot).1
      obtain ⟨k, rfl⟩ := Int.eq_ofNat_of_zero_le low
      exact ⟨k, List.mem_toFinset.2 ((hotAt k).2 isHot), rfl⟩
    · rintro ⟨k, mem, rfl⟩
      exact (hotAt k).1 (List.mem_toFinset.1 mem)
  refine ⟨tallies.steps, ?_, tallies.fiberSteps, heat.count_eq, heat.isHot_iff positive, ?_,
    ⟨pcs, log, reaching.nodup, hotAt, reaching.order⟩, ranked p.counts, fun n nonneg => ?_,
    pairwise_ranked p.counts, fun pc n => ?_⟩
  · simp only [tallies.fiberSteps]
    exact finsum_executed es
  · rw [hotSet, Set.ncard_image_of_injective _ Nat.cast_injective, Set.ncard_coe_finset,
      List.toFinset_card_of_nodup reaching.nodup]
    exact hot
  · rw [top, if_neg (Int.not_lt.2 nonneg)]
  · rw [mem_ranked, Profiler.count, if_neg (by omega), Int.toNat_natCast, Array.getD_eq_getD_getElem?]
    cases p.counts[pc]? with
    | none =>
      rw [Option.getD_none]
      exact and_congr_right fun positive => iff_of_false nofun (Nat.ne_of_lt positive)
    | some k => simp only [Option.getD_some, Option.some.injEq]

end Accounts

/-- **A profiler is faithful.** Whatever events have been recorded and however often it has been cleared, a profiler
with a positive threshold describes the events since. While it watches a machine these are the steps that the machine
counts, but for the one without an instruction that may end it. -/
theorem faithful {T : Nat} (positive : 0 < T) (size : Nat) :
    (∀ calls : List Call, Describes size T (since calls) (calls.foldl Call.apply (create size T))) ∧
    ∀ {words : Int} {code : Code} {options : Options} {clock : Clock} {sink : Sink} {order : Enumeration} {m : Machine},
      Machine.create words code options clock sink order = .ok m → ∀ ts, (m.play ts).control.failed = none →
        ∀ (canceled : Bool) (p : Profiler), ∃ es r m',
          (m.play ts).observe (fun es e => es ++ [e]) canceled (m.events ts) = (es, r, m') ∧
          (m.play ts).observe record canceled ((m.events ts).foldl record p) = (es.foldl record p, r, m') ∧
          (Machine.Unread r → es.length + 1 = m'.stats.steps) ∧
          (¬ Machine.Unread r → es.length = m'.stats.steps) := by
  refine ⟨fun calls => ((Tallies.create positive size).apply positive calls).describes positive, ?_⟩
  intro words code options clock sink order m made ts fine canceled p
  have count := (Machine.hasExecuted_zero made).play ts
  obtain ⟨es, r, m', sees, unread, read⟩ := Machine.observe_events count fine canceled
  rw [Nat.zero_add, ← List.length_append] at unread read
  refine ⟨m.events ts ++ es, r, m', ?_, ?_, unread, read⟩
  · rw [sees, Machine.foldl_keep]
  · rw [sees, List.foldl_append]

/-- The second visit to an instruction makes it hot, and the visits before a reset are forgotten. A program without an
end runs out of its last instruction, which is a second step but no second event. -/
theorem faithful_nop :
    Describes 1 2 [⟨0, 0, .nop⟩, ⟨3, 7, .nop⟩, ⟨0, 0, .nop⟩] ([.record ⟨0, 0, .nop⟩, .reset, .record ⟨0, 0, .nop⟩,
      .record ⟨3, 7, .nop⟩, .record ⟨0, 0, .nop⟩].foldl Call.apply (create 1 2)) ∧
    ∃ m r m', Machine.create 272 (Code.ofInstrs [.nop]) {} = .ok m ∧
      m.observe record false (create 1 2) = ((create 1 2).record ⟨0, 0, .nop⟩, r, m') ∧ Machine.Unread r ∧
      m'.stats.steps = 2 := by
  have both := faithful (T := 2) (by decide) 1
  refine ⟨both.1 [.record ⟨0, 0, .nop⟩, .reset, .record ⟨0, 0, .nop⟩, .record ⟨3, 7, .nop⟩, .record ⟨0, 0, .nop⟩], ?_⟩
  obtain ⟨m, made, shown, missing⟩ : ∃ m, Machine.create 272 (Code.ofInstrs [.nop]) {} = .ok m ∧
      (m.observe (fun es e => es ++ [e]) false []).1 = [⟨0, 0, .nop⟩] ∧
      ((Machine.fault? (m.observe (fun es e => es ++ [e]) false []).2.1).any fun f => f.op.isNone) = true :=
    ⟨_, Machine.create_listed rfl, by decide +kernel, by decide +kernel⟩
  have fine : (m.play []).control.failed = none := by
    obtain ⟨h, -, rfl⟩ := Machine.create_eq made
    rfl
  obtain ⟨es, r, m', kept, sees, unread, -⟩ := both.2 made [] fine false (create 1 2)
  replace kept : m.observe (fun es e => es ++ [e]) false [] = (es, r, m') := kept
  rw [kept] at shown missing
  obtain rfl : es = [⟨0, 0, .nop⟩] := shown
  exact ⟨m, r, m', made, sees, Machine.unread_iff.2 missing, (unread (Machine.unread_iff.2 missing)).symm⟩

end Profiler

end FiberVm
