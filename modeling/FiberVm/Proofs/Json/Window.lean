import Mathlib.Data.List.TakeWhile
import Mathlib.Tactic.SplitIfs
import FiberVm.Json.Window

/-!
# What a window shows

A window shows an input without zero bytes if the bytes ahead of its cursor are the beginning of that input,
followed by zeros, and the rest has not been read yet. As long as something is left to read, a refill brings
at least one more byte into view: either the last refill used the whole window, which is then made larger, or
nothing has been read so far.
-/

set_option autoImplicit false

namespace FiberVm.Json.Window

/-- The first bytes of the input `bs` that are in view are `front`, and `gap + 1` places behind them are
empty. -/
structure Views (w : Window) (bs front : List UInt8) (gap : Nat) : Prop where
  ahead : w.ahead = front ++ List.replicate (gap + 1) 0
  fresh : w.fresh = front.length
  input : bs = front ++ w.rest
  more : w.rest ≠ [] → (gap = 0 ∧ w.full = true) ∨ (front = [] ∧ 0 < gap)
  unended : w.ended = true → w.rest = []
  room : w.behind + w.ahead.length ≤ w.size
  nonzero : 0 ∉ bs
  budget : bs.length + 16 ≤ w.budget

/-- The window is on an input. -/
def Shows (bs : List UInt8) (w : Window) : Prop := ∃ front gap, w.Views bs front gap

/-- The window is on an input, and at least its first byte is in view. -/
def Faces (bs : List UInt8) (w : Window) : Prop := ∃ front gap, front ≠ [] ∧ w.Views bs front gap

/-- The window is on an input, and at least `n` bytes of it are in view. -/
def InView (n : Nat) (bs : List UInt8) (w : Window) : Prop := ∃ front gap, n ≤ front.length ∧ w.Views bs front gap

theorem Faces.shows {bs : List UInt8} {w : Window} (faces : Faces bs w) : Shows bs w := by
  obtain ⟨front, gap, -, views⟩ := faces
  exact ⟨front, gap, views⟩

theorem shows_ofBytes {bs : List UInt8} (nonzero : 0 ∉ bs) : Shows bs (ofBytes bs) :=
  ⟨[], 511, {
  ahead := rfl
  fresh := rfl
  input := rfl
  more _ := .inr ⟨rfl, by decide⟩
  unended := nofun
  room := by simp [ofBytes]
  nonzero := nonzero
  budget := by
    simp only [ofBytes, initialSize]
    omega }⟩

namespace Views

variable {w : Window} {bs front : List UInt8} {gap : Nat}

/-- The window after it has been made larger still has the same bytes in view. -/
theorem enlarge (views : w.Views bs front gap) :
    ∃ gap', w.enlarge.ahead = front ++ List.replicate (gap' + 1) 0
      ∧ w.enlarge.behind + w.enlarge.ahead.length ≤ w.enlarge.size ∧ w.enlarge.fresh = w.fresh
      ∧ w.enlarge.rest = w.rest ∧ w.enlarge.budget = w.budget ∧ (w.rest ≠ [] → 0 < gap') := by
  have room := views.room
  rw [views.ahead, List.length_append, List.length_replicate] at room
  unfold Window.enlarge
  split_ifs with full
  · have size : w.ahead.length = front.length + (gap + 1) := by simp [views.ahead]
    have padded : w.ahead.take (2 * w.size - w.behind)
        ++ List.replicate (2 * w.size - w.behind - w.ahead.length) 0
        = front ++ List.replicate (2 * w.size - w.behind - front.length - 1 + 1) 0 := by
      rw [List.take_of_length_le (by omega), size, views.ahead, List.append_assoc, List.replicate_append_replicate]
      congr 2
      omega
    refine ⟨2 * w.size - w.behind - front.length - 1, padded, ?_, rfl, rfl, rfl, by omega⟩
    change w.behind + (w.ahead.take (2 * w.size - w.behind)
      ++ List.replicate (2 * w.size - w.behind - w.ahead.length) 0).length ≤ 2 * w.size
    rw [padded, List.length_append, List.length_replicate]
    omega
  · refine ⟨gap, views.ahead, views.room, rfl, rfl, rfl, ?_⟩
    intro rest
    rcases views.more rest with ⟨-, more⟩ | ⟨-, more⟩
    · exact absurd more full
    · exact more

/-- A refill brings more into view, if something is left. -/
theorem refill (views : w.Views bs front gap) (left : front.length < bs.length) :
    ∃ w' front' gap', w.refill = some w' ∧ w'.Views bs front' gap' ∧ front.length < front'.length
      ∧ w'.budget = w.budget := by
  have rest : w.rest ≠ [] := by
    intro none
    rw [views.input, none] at left
    simp at left
  have unended : ¬ w.ended = true := fun ended => rest (views.unended ended)
  obtain ⟨gap', ahead, room, fresh, same, budget, wide⟩ := views.enlarge
  have kept : (w.enlarge.ahead.take w.enlarge.fresh).takeWhile (· != 0) = front := by
    rw [ahead, fresh, views.fresh, List.take_left]
    apply List.takeWhile_eq_self_iff.2
    intro b mem
    have : b ≠ 0 := by
      rintro rfl
      exact views.nonzero (views.input ▸ List.mem_append_left _ mem)
    simpa using this
  have places : w.enlarge.ahead.length - front.length - 1 = gap' := by
    rw [ahead, List.length_append, List.length_replicate]
    omega
  let new := w.rest.take gap'
  have gained : 0 < new.length := by
    have left := List.length_pos_iff.2 rest
    have wide := wide rest
    rw [List.length_take]
    omega
  have few : new.length ≤ gap' := List.length_take_le _ _
  have tail : (w.enlarge.ahead.dropLast).drop (front.length + new.length)
      = List.replicate (gap' - new.length) 0 := by
    rw [ahead, List.replicate_succ', ← List.append_assoc, List.dropLast_concat, List.drop_append]
    simp
  let w' : Window := { w.enlarge with
    ahead := front ++ new ++ List.replicate (gap' - new.length) 0 ++ [0]
    fresh := front.length + new.length
    full := new.length == gap'
    ended := w.rest.isEmpty
    rest := w.rest.drop gap' }
  have read : w.refill = some w' := by
    simp only [Window.refill, if_neg unended, kept, places, same, tail, new, w']
  refine ⟨w', front ++ new, gap' - new.length, read, ?_, by simpa using gained, budget⟩
  exact {
    ahead := by simp [w', List.replicate_succ']
    fresh := by simp [w']
    input := by rw [views.input, List.append_assoc, List.take_append_drop]
    more := by
      intro left
      -- Something is left only if the window was filled to its end.
      have whole : new.length = gap' := by
        have := List.length_pos_iff.2 left
        simp only [w', List.length_drop] at this
        simp only [new, List.length_take]
        omega
      exact .inl ⟨by omega, by simp [w', whole]⟩
    unended := fun ended => absurd (List.isEmpty_iff.1 ended) rest
    room := by
      rw [ahead, List.length_append, List.length_replicate] at room
      simp only [w', List.length_append, List.length_replicate, List.length_singleton]
      omega
    nonzero := views.nonzero
    budget := budget ▸ views.budget }

/-- Refilling for want of `n` bytes ends with that many in view, if there are that many. -/
theorem refillWhile {lacking : Window → Bool} {m n : Nat} (enough : n ≤ bs.length)
    (test : ∀ w front gap, Views w bs front gap → m ≤ front.length → lacking w = decide (front.length < n))
    {fuel : Nat} (fuelled : n ≤ fuel + front.length) (start : m ≤ front.length) (views : w.Views bs front gap) :
    ∃ front' gap', (w.refillWhile lacking fuel).Views bs front' gap' ∧ n ≤ front'.length
      ∧ front.length ≤ front'.length := by
  induction fuel generalizing w front gap with
  | zero => exact ⟨front, gap, views, by omega, le_refl _⟩
  | succ fuel ih =>
    rw [Window.refillWhile, test w front gap views start]
    by_cases short : front.length < n
    · obtain ⟨w', front', gap', read, views', longer, -⟩ := views.refill (by omega)
      obtain ⟨front'', gap'', views'', reached, longest⟩ := ih (by omega) (by omega) views'
      simp only [short, read, decide_true, if_true]
      exact ⟨front'', gap'', views'', reached, by omega⟩
    · simp only [short, decide_false]
      exact ⟨front, gap, views, by omega, le_refl _⟩

theorem byte (views : w.Views bs front gap) : w.byte = front.headD 0 := by
  rw [Window.byte, views.ahead]
  cases front <;> rfl

theorem headD_ne_zero (views : w.Views bs front gap) (some : front ≠ []) : front.headD 0 ≠ 0 := by
  obtain ⟨b, front, rfl⟩ := List.exists_cons_of_ne_nil some
  rintro rfl
  exact views.nonzero (by simp [views.input])

theorem front_eq {xs : List UInt8} (views : w.Views (xs ++ bs) front gap) (seen : xs.length ≤ front.length) :
    front = xs ++ front.drop xs.length := by
  have taken : front.take xs.length = xs := by
    have := congrArg (List.take xs.length) views.input
    simpa [List.take_append_of_le_length seen] using this.symm
  rw [← taken, List.length_take_of_le seen, List.take_append_drop]

theorem ahead_eq {xs : List UInt8} (views : w.Views (xs ++ bs) front gap) (seen : xs.length ≤ front.length) :
    ∃ rest, w.ahead = xs ++ rest := by
  refine ⟨front.drop xs.length ++ List.replicate (gap + 1) 0, ?_⟩
  rw [views.ahead, ← List.append_assoc, ← views.front_eq seen]

/-- Passing bytes that are in view. They leave no more than their own number of places behind. -/
theorem replace {xs : List UInt8} (views : w.Views (xs ++ bs) front gap) (seen : xs.length ≤ front.length)
    {width : Nat} (narrow : width ≤ xs.length) : Shows bs (w.replace xs.length width) := by
  have split := views.front_eq seen
  refine ⟨front.drop xs.length, gap, ?_⟩
  exact {
    ahead := by simp only [Window.replace, views.ahead, List.drop_append_of_le_length seen]
    fresh := by simp [Window.replace, views.fresh]
    input := by
      have input := views.input
      rw [split, List.append_assoc] at input
      exact List.append_cancel_left input
    more := by
      intro rest
      rcases views.more rest with full | ⟨rfl, wide⟩
      · exact .inl full
      · exact .inr ⟨by simp, wide⟩
    unended := views.unended
    room := by
      have room := views.room
      rw [views.ahead] at room
      simp only [Window.replace, views.ahead, List.length_append, List.length_drop, List.length_replicate] at room ⊢
      omega
    nonzero := fun zero => views.nonzero (List.mem_append_right xs zero)
    budget := by
      have := views.budget
      simp only [List.length_append] at this
      exact le_trans (by omega) this }

end Views

variable {w : Window} {b : UInt8} {bs : List UInt8}

theorem Faces.byte (faces : Faces (b :: bs) w) : w.byte = b := by
  obtain ⟨front, gap, some, views⟩ := faces
  obtain ⟨c, front, rfl⟩ := List.exists_cons_of_ne_nil some
  rw [views.byte, (List.cons.inj views.input).1]
  rfl

theorem Faces.advance (faces : Faces (b :: bs) w) : Shows bs (w.advance 1) := by
  obtain ⟨front, gap, some, views⟩ := faces
  have seen : [b].length ≤ front.length := List.length_pos_iff.2 some
  exact @Views.replace w bs front gap [b] views seen 1 (le_refl 1)

theorem Shows.settle (shows : Shows (b :: bs) w) : Faces (b :: bs) w.settle := by
  obtain ⟨front, gap, views⟩ := shows
  have budget := views.budget
  have test (v : Window) (front : List UInt8) (gap : Nat) (views : v.Views (b :: bs) front gap)
      (_ : 0 ≤ front.length) : (v.byte == 0) = decide (front.length < 1) := by
    rw [views.byte]
    cases front with
    | nil => rfl
    | cons c front => simpa using views.headD_ne_zero (List.cons_ne_nil c front)
  have enough : 1 ≤ w.budget + front.length := by omega
  obtain ⟨front', gap', views', reached, -⟩ := views.refillWhile (by simp) test enough (Nat.zero_le _)
  exact ⟨front', gap', List.length_pos_iff.1 reached, views'⟩

theorem Shows.ne_zero (shows : Shows (b :: bs) w) : b ≠ 0 := by
  obtain ⟨front, gap, views⟩ := shows
  rintro rfl
  exact views.nonzero List.mem_cons_self

/-- Where the window has to be refilled for the next byte, it looks like zero. -/
theorem Shows.byte_cases (shows : Shows (b :: bs) w) :
    Faces (b :: bs) w ∨ (w.byte = 0 ∧ ∃ w', w.refill = some w' ∧ Faces (b :: bs) w') := by
  obtain ⟨front, gap, views⟩ := shows
  cases front with
  | cons c front => exact .inl ⟨_, gap, List.cons_ne_nil c front, views⟩
  | nil =>
    obtain ⟨w', front', gap', read, views', longer, -⟩ := views.refill (by simp)
    exact .inr ⟨views.byte, w', read, front', gap', List.length_pos_iff.1 longer, views'⟩

theorem Shows.release (shows : Shows bs w) : Shows bs w.release := by
  obtain ⟨front, gap, views⟩ := shows
  refine ⟨front, gap, ?_⟩
  have room := views.room
  exact { views with room := by simp only [Window.release]; omega }

theorem Shows.reach (shows : Shows bs w) {n : Nat} (left : n < bs.length) : InView (n + 1) bs (w.reach n) := by
  obtain ⟨front, gap, views⟩ := shows
  have budget := views.budget
  have test (v : Window) (front : List UInt8) (gap : Nat) (views : v.Views bs front gap)
      (_ : 0 ≤ front.length) : decide (v.fresh ≤ n) = decide (front.length < n + 1) := by
    rw [views.fresh]
    exact decide_eq_decide.2 (by omega)
  have enough : n + 1 ≤ w.budget + front.length := by omega
  obtain ⟨front', gap', views', reached, -⟩ := views.refillWhile left test enough (Nat.zero_le _)
  exact ⟨front', gap', reached, views'⟩

end FiberVm.Json.Window
