import FiberVm.Machine.Operators
import FiberVm.Proofs.Machine.Simulation

/-!
# Operators, variables and constants on two machines

An operator looks at the tags, the integers and the two boolean literals, and these are the same on both
sides. What it computes is boxed on both sides, or neither needs a node.
-/

set_option autoImplicit false

namespace FiberVm

open Heap (Shows)

section

variable {q : Terms} {w : World} {m₁ m₂ : Machine} {a b x y : Addr}

/-- A reserved value corresponds to itself and to nothing else. -/
theorem Mirror.image_eq_iff {h₁ h₂ : Heap} (m : Mirror w h₁ h₂) (known : w.Knows a)
    (res : Reserved b .value) : w.image a = b ↔ a = b := by
  have same : w.image b = b := m.low b res.low
  refine ⟨fun e => ?_, fun e => e ▸ same⟩
  obtain ⟨r, role⟩ := known
  exact m.injective a b r .value role (m.reserved b .value res) (e.trans same.symm)

theorem reserved_nil : Reserved Heap.nil .value := ⟨by decide, by decide⟩
theorem reserved_unassigned : Reserved Heap.unassigned .value := ⟨by decide, by decide⟩
theorem reserved_true : Reserved Heap.true .value := ⟨by decide, by decide⟩
theorem reserved_false : Reserved Heap.false .value := ⟨by decide, by decide⟩

theorem reserved_ofBool (b : Bool) : Reserved (Heap.ofBool b) .value := by
  cases b with
  | false => exact reserved_false
  | true => exact reserved_true

theorem Mirror.beq_literal {h₁ h₂ : Heap} (m : Mirror w h₁ h₂) (known : w.Knows a)
    (res : Reserved b .value) : (w.image a == b) = (a == b) := by
  rw [Bool.eq_iff_iff, beq_iff_eq, beq_iff_eq]
  exact m.image_eq_iff known res

theorem Mirror.isBool_image {h₁ h₂ : Heap} (m : Mirror w h₁ h₂) (known : w.Knows a) :
    Heap.isBool (w.image a) = Heap.isBool a := by
  rw [Heap.isBool, Heap.isBool, m.beq_literal known reserved_true, m.beq_literal known reserved_false]

theorem Machine.Alike.node (alike : m₁.Alike q w m₂) (value : IsValue w.role a) :
    ∃ n r, w.role a r ∧ Shows m₁.heap.words a n ∧ w.Admits a r n ∧
      Shows m₂.heap.words (w.image a) (n.map w.image) := by
  rcases value with role | role
  · obtain ⟨n, shows⟩ := alike.heap.nodes a _ role
    exact ⟨n, _, role, shows⟩
  · obtain ⟨n, shows⟩ := alike.heap.nodes a _ role
    exact ⟨n, _, role, shows⟩

theorem Machine.Alike.reserved (alike : m₁.Alike q w m₂) (res : Reserved a .value) :
    IsValue w.role a ∧ w.image a = a :=
  ⟨.inr (alike.heap.reserved a .value res), alike.heap.low a res.low⟩

theorem Sim.boxResult {r : OpResult} {k₁ k₂ : Addr → Exec Unit} (alike : m₁.Alike q w m₂)
    (alive : m₁.control.sched.current.state ≠ .terminated)
    (rest : ∀ a w' h₁ h₂, Machine.Alike q w' { m₁ with heap := h₁ } { m₂ with heap := h₂ } →
      IsValue w'.role a →
      Sim q w' (k₁ a) (k₂ (w'.image a)) { m₁ with heap := h₁ } { m₂ with heap := h₂ }) :
    Sim q w (Exec.boxResult r >>= k₁) (Exec.boxResult r >>= k₂) m₁ m₂ := by
  cases r with
  | int n =>
    simp only [Exec.boxResult]
    refine .take alike alive (alike.shared.newInt n) (List.Subset.refl _) ?_
    exact fun a h₁ h₂ w' gives _ _ alike' => rest a w' h₁ h₂ alike' (.inl gives.role)
  | bool b =>
    obtain ⟨value, same⟩ := alike.reserved (reserved_ofBool b)
    have sim := rest (Heap.ofBool b) w m₁.heap m₂.heap alike value
    rw [same] at sim
    exact .step (.pure _) (.pure _) rfl rfl rfl sim
  | fault c => exact .fails alike (.fault c) (.fault c) rfl rfl rfl

theorem Sim.binary {op : Operator} {k₁ k₂ : Addr → Exec Unit} (alike : m₁.Alike q w m₂)
    (alive : m₁.control.sched.current.state ≠ .terminated) (vx : IsValue w.role x) (vy : IsValue w.role y)
    (rest : ∀ a w' h₁ h₂, Machine.Alike q w' { m₁ with heap := h₁ } { m₂ with heap := h₂ } →
      IsValue w'.role a →
      Sim q w' (k₁ a) (k₂ (w'.image a)) { m₁ with heap := h₁ } { m₂ with heap := h₂ }) :
    Sim q w (Exec.binary op x y >>= k₁) (Exec.binary op (w.image x) (w.image y) >>= k₂) m₁ m₂ := by
  obtain ⟨n, r, -, sx₁, -, sx₂⟩ := alike.node vx
  obtain ⟨n', r', -, sy₁, -, sy₂⟩ := alike.node vy
  unfold Exec.binary
  simp only [bind_assoc]
  refine .tagOf sx₁ sx₂ (.tagOf sy₁ sy₂ ?_)
  rw [alike.heap.isBool_image vx.knows, alike.heap.isBool_image vy.knows,
    alike.heap.beq_literal vx.knows reserved_true, alike.heap.beq_literal vy.knows reserved_true]
  by_cases ints : n.tag = .int ∧ n'.tag = .int
  · rw [if_pos ints, if_pos ints]
    obtain ⟨i, rfl⟩ := sx₁.int_of_tag ints.1
    obtain ⟨j, rfl⟩ := sy₁.int_of_tag ints.2
    simp only [bind_assoc]
    refine .read (.intValue _) (.intValue _) (Heap.intValue_shows sx₁) (Heap.intValue_shows sx₂) ?_
    refine .read (.intValue _) (.intValue _) (Heap.intValue_shows sy₁) (Heap.intValue_shows sy₂) ?_
    exact .boxResult alike alive rest
  · rw [if_neg ints, if_neg ints]
    by_cases bools : Heap.isBool x = Bool.true ∧ Heap.isBool y = Bool.true
    · rw [if_pos bools]
      exact .boxResult alike alive rest
    · rw [if_neg bools]
      exact .fails alike (.fault _) (.fault _) rfl rfl rfl

theorem Sim.unary {op : Operator} {k₁ k₂ : Addr → Exec Unit} (alike : m₁.Alike q w m₂)
    (alive : m₁.control.sched.current.state ≠ .terminated) (vx : IsValue w.role x)
    (rest : ∀ a w' h₁ h₂, Machine.Alike q w' { m₁ with heap := h₁ } { m₂ with heap := h₂ } →
      IsValue w'.role a →
      Sim q w' (k₁ a) (k₂ (w'.image a)) { m₁ with heap := h₁ } { m₂ with heap := h₂ }) :
    Sim q w (Exec.unary op x >>= k₁) (Exec.unary op (w.image x) >>= k₂) m₁ m₂ := by
  obtain ⟨n, r, -, sx₁, -, sx₂⟩ := alike.node vx
  unfold Exec.unary
  rw [alike.heap.isBool_image vx.knows, alike.heap.beq_literal vx.knows reserved_false]
  by_cases neg : op = .neg
  · rw [if_pos neg, if_pos neg]
    simp only [bind_assoc]
    refine .tagOf sx₁ sx₂ ?_
    by_cases int : n.tag = .int
    · rw [if_pos int, if_pos int]
      obtain ⟨i, rfl⟩ := sx₁.int_of_tag int
      simp only [bind_assoc]
      refine .read (.intValue _) (.intValue _) (Heap.intValue_shows sx₁) (Heap.intValue_shows sx₂) ?_
      exact .boxResult alike alive rest
    · rw [if_neg int, if_neg int]
      exact .fails alike (.fault _) (.fault _) rfl rfl rfl
  · rw [if_neg neg, if_neg neg]
    by_cases not : op = .not
    · rw [if_pos not, if_pos not]
      by_cases bool : Heap.isBool x = Bool.true
      · rw [if_pos bool, if_pos bool]
        obtain ⟨value, same⟩ := alike.reserved (reserved_ofBool (x == Heap.false))
        have sim := rest _ w m₁.heap m₂.heap alike value
        rw [same] at sim
        exact .step (.pure _) (.pure _) rfl rfl rfl sim
      · rw [if_neg bool, if_neg bool]
        simp only [bind_assoc]
        refine .tagOf sx₁ sx₂ ?_
        exact .fails alike (.fault _) (.fault _) rfl rfl rfl
    · rw [if_neg not, if_neg not]
      exact .fails alike (.fault _) (.fault _) rfl rfl rfl

end

end FiberVm
