import FiberVm.Proofs.Heap.Pins
import FiberVm.Proofs.Heap.Mirror

/-!
# Taking nodes on both sides

An allocation on two heaps that mirror each other gives a pair of addresses in correspondence, or runs
out of memory on one side, which is then left in good order by itself. What is known afterwards and was
there before would have been safe without being reachable: pinning it makes no difference.
-/

set_option autoImplicit false

namespace FiberVm

namespace World

variable {w w' w'' : World} {h₁ h₂ h₁' h₂' : Heap} {K : List Addr} {P Q : Addr → Prop}

theorem Extends.trans (ext : w.Extends w' K) (ext' : w'.Extends w'' K) : w.Extends w'' K :=
  ⟨fun x r live role => ext'.role x r live (ext.role x r live role),
    fun x live => (ext'.image x live).trans (ext.image x live),
    fun x mem recent => ext.recent x mem (ext'.recent x mem recent)⟩

theorem Extends.subset {K' : List Addr} (ext : w.Extends w' K') (sub : K ⊆ K') : w.Extends w' K :=
  ⟨fun x r live => ext.role x r (live.imp_left (@sub x)), fun x live => ext.image x (live.imp_left (@sub x)),
    fun x mem => ext.recent x (sub mem)⟩

theorem Extends.knows (ext : w.Extends w' K) {x : Addr} (live : x ∈ K ∨ x < Heap.bottom)
    (known : w.Knows x) : w'.Knows x := by
  obtain ⟨r, role⟩ := known
  exact ⟨r, ext.role x r live role⟩

theorem Extends.map_image (ext : w.Extends w' K) : K.map w'.image = K.map w.image :=
  List.map_congr_left fun x mem => ext.image x (.inl mem)

theorem Extends.left (ext : w.Extends w' K) : w.left.Extends w'.left K :=
  ⟨ext.role, fun _ _ => rfl, ext.recent⟩

theorem Extends.right (m : Mirror w h₁ h₂) (m' : Mirror w' h₁' h₂') (known : ∀ x ∈ K, w.Knows x)
    (ext : w.Extends w' K) : w.right.Extends w'.right (K.map w.image) := by
  have origin : ∀ a b r, w.role a r → w.image a = b → b ∈ K.map w.image ∨ b < Heap.bottom →
      a ∈ K ∨ a < Heap.bottom := by
    rintro a b r role rfl live
    rcases live with mem | low
    · obtain ⟨x, inside, e⟩ := List.mem_map.1 mem
      obtain ⟨s, role'⟩ := known x inside
      exact .inl (m.injective x a s r role' role e ▸ inside)
    · exact .inr (UInt32.not_le.1 fun le => UInt32.not_lt.2 ((m.image_high ⟨r, role⟩).2 le) low)
  refine ⟨?_, fun _ _ => rfl, ?_⟩
  · rintro b r live ⟨a, role, e⟩
    have inside := origin a b r role e live
    exact ⟨a, ext.role a r inside role, (ext.image a inside).trans e⟩
  · rintro b mem ⟨a, ⟨r, role⟩, recent, e⟩
    obtain ⟨x, inside, e'⟩ := List.mem_map.1 mem
    obtain ⟨s, role'⟩ := ext.knows (.inl inside) (known x inside)
    rw [← ext.image x (.inl inside), ← e] at e'
    obtain rfl := m'.injective x a s r role' role e'
    exact ⟨x, known x inside, ext.recent x inside recent, (ext.image x (.inl inside)).symm.trans e⟩

theorem Keeps.trans (keeps : w.Keeps w' P) (keeps' : w'.Keeps w'' Q) :
    w.Keeps w'' fun x => P x ∧ Q x := by
  intro x known old
  obtain ⟨known', old', image', q⟩ := keeps' x known old
  obtain ⟨known'', old'', image'', p⟩ := keeps x known' old'
  exact ⟨known'', old'', image'.trans image'', p, q⟩

theorem Keeps.imp (keeps : w.Keeps w' P) (weaker : ∀ x, w'.Knows x → w.Knows x → w'.image x = w.image x → P x → Q x) :
    w.Keeps w' Q := by
  intro x known old
  obtain ⟨known', old', image, p⟩ := keeps x known old
  exact ⟨known', old', image, weaker x known known' image p⟩

theorem Keeps.right (m : Mirror w h₁ h₂) (keeps : w.Keeps w' P)
    (weaker : ∀ x, P x → Q (w.image x)) : w.right.Keeps w'.right Q := by
  rintro b ⟨r, a, role, rfl⟩ old
  have old' : ¬ w'.recent a := fun recent => old ⟨a, ⟨r, role⟩, recent, rfl⟩
  obtain ⟨⟨s, role'⟩, settled, image, p⟩ := keeps a ⟨r, role⟩ old'
  refine ⟨⟨s, a, role', image.symm⟩, ?_, rfl, image ▸ weaker a p⟩
  rintro ⟨x, ⟨t, known⟩, recent, e⟩
  obtain rfl := m.injective x a t s known role' (e.trans image)
  exact settled recent

end World

open Heap

/-- The operation runs out of memory and leaves a heap in good order. -/
structure Exhausts (w : World) (K : List Addr) (op : HeapM Addr) (h : Heap) (n : Nat) (h' : Heap)
    (w' : World) : Prop where
  run : op h = .error (.fault (.outOfMemory n)) h'
  mirror : Mirror w' h' h'
  kept : Kept K h h'
  ext : w.Extends w' K
  keeps : w.Keeps w' fun x => Commutes (pin x) op h

/-- The operations give a pair of addresses in the role `r`. -/
structure Gives (w : World) (K : List Addr) (r : Role) (op₁ op₂ : HeapM Addr) (h₁ h₂ : Heap)
    (a₁ a₂ : Addr) (h₁' h₂' : Heap) (w' : World) : Prop where
  run₁ : op₁ h₁ = .ok a₁ h₁'
  run₂ : op₂ h₂ = .ok a₂ h₂'
  mirror : Mirror w' h₁' h₂'
  kept₁ : Kept K h₁ h₁'
  kept₂ : Kept (K.map w.image) h₂ h₂'
  ext : w.Extends w' K
  role : w'.role a₁ r
  high : bottom ≤ a₁
  image : w'.image a₁ = a₂
  keeps : w.Keeps w' fun x => Commutes (pin x) op₁ h₁ ∧ Commutes (pin (w.image x)) op₂ h₂

/-- The outcome of an allocation on both sides. `P` is what is known of the node. -/
inductive Takes (w : World) (K : List Addr) (r : Role) (P : Array Word → Addr → Prop)
    (op₁ op₂ : HeapM Addr) (h₁ h₂ : Heap) : Prop
  | ok {a₁ a₂ : Addr} {h₁' h₂' : Heap} {w' : World} :
    Gives w K r op₁ op₂ h₁ h₂ a₁ a₂ h₁' h₂' w' → P h₁'.words a₁ → P h₂'.words a₂ → Takes w K r P op₁ op₂ h₁ h₂
  | left {n : Nat} {h₁' : Heap} {w' : World} :
    Exhausts w.left K op₁ h₁ n h₁' w' → Takes w K r P op₁ op₂ h₁ h₂
  | right {n : Nat} {h₂' : Heap} {w' : World} :
    Exhausts w.right (K.map w.image) op₂ h₂ n h₂' w' → Takes w K r P op₁ op₂ h₁ h₂

section

variable {w : World} {h₁ h₂ : Heap} {K : List Addr} {r : Role} {P : Array Word → Addr → Prop}
  {op₁ op₂ : HeapM Addr}

theorem Mirror.exhausts {op : HeapM Addr} {h h' : Heap} {n : Nat} (m : Mirror w h h)
    (same : w.image = id) (known : ∀ x ∈ K, w.Knows x) (run : op h = .error (.fault (.outOfMemory n)) h')
    (kept : Kept K h h')
    (commutes : ∀ x, x < bottom ∨ Reaches h.words K x → Commutes (pin x) op h) :
    Exhausts w K op h n h' (w.keep h.words K) := by
  have kept' : Kept (K.map w.image) h h' := by rwa [same, List.map_id]
  refine ⟨run, m.keep known kept kept', kept, Mirror.extends_keep w h.words K, ?_⟩
  exact (Mirror.keeps_keep w h.words K).imp fun x _ _ _ live => commutes x live

theorem Mirror.takes {n : Node} {K₂ : List Addr} (m : Mirror w h₁ h₂) (known : ∀ x ∈ K, w.Knows x)
    (images : K.map w.image = K₂)
    (al₁ : Traceable h₁.words K → Allocates K h₁ (fun h a => Shows h.words a n) (op₁ h₁))
    (al₂ : Traceable h₂.words K₂ → Allocates K₂ h₂ (fun h a => Shows h.words a (n.map w.image)) (op₂ h₂))
    (fits : n.Fits w.role r)
    (inside : ∀ c ∈ n.references, (c < bottom ∨ Reaches h₁.words K c) ∧ (r = .frame → ¬ w.recent c))
    (pin₁ : Traceable h₁.words K → ∀ x, x < bottom ∨ Reaches h₁.words K x → Commutes (pin x) op₁ h₁)
    (pin₂ : Traceable h₂.words K₂ → ∀ x, x < bottom ∨ Reaches h₂.words K₂ x → Commutes (pin x) op₂ h₂)
    (post₁ : ∀ words a, Shows words a n → P words a)
    (post₂ : ∀ words a, Shows words a (n.map w.image) → P words a) : Takes w K r P op₁ op₂ h₁ h₂ := by
  subst images
  have t₁ := m.traceable₁ known
  have t₂ := m.traceable₂ known
  rcases al₁ t₁ with ⟨a₁, h₁', run₁, f₁, s₁⟩ | ⟨k, h₁', run₁, kept⟩
  · rcases al₂ t₂ with ⟨a₂, h₂', run₂, f₂, s₂⟩ | ⟨k, h₂', run₂, kept⟩
    · obtain ⟨w', m', ext, role, image, keeps⟩ := m.fresh known f₁ f₂ s₁ s₂ fits inside
      refine .ok ⟨run₁, run₂, m', f₁.toKept, f₂.toKept, ext, role, f₁.high, image, ?_⟩ (post₁ _ _ s₁) (post₂ _ _ s₂)
      refine keeps.imp fun x _ known' _ live => ⟨pin₁ t₁ x live, pin₂ t₂ _ ?_⟩
      rcases live with low | reach
      · exact .inl ((m.low x low).symm ▸ low)
      · exact .inr (m.reaches known reach).2
    · refine .right (m.right.exhausts rfl ?_ run₂ kept (pin₂ t₂))
      intro b mem
      obtain ⟨a, inside, rfl⟩ := List.mem_map.1 mem
      obtain ⟨s, role⟩ := known a inside
      exact ⟨s, a, role, rfl⟩
  · exact .left (m.left.exhausts rfl known run₁ kept (pin₁ t₁))

theorem Mirror.with_pins (m : Mirror w h₁ h₂) (p₁ p₂ : List Addr) :
    Mirror w { h₁ with pinned := p₁ } { h₂ with pinned := p₂ } :=
  ⟨⟨m.sound₁.sized, m.sound₁.unmarked, m.sound₁.list⟩, ⟨m.sound₂.sized, m.sound₂.unmarked, m.sound₂.list⟩,
    m.nodes, m.unique, m.injective, m.low, m.high, m.none, m.reserved, m.recent⟩

theorem Takes.subset {K' : List Addr} (t : Takes w K' r P op₁ op₂ h₁ h₂) (sub : K ⊆ K') :
    Takes w K r P op₁ op₂ h₁ h₂ := by
  have images : K.map w.image ⊆ K'.map w.image := List.map_subset w.image sub
  cases t with
  | ok g p₁ p₂ =>
    exact .ok ⟨g.run₁, g.run₂, g.mirror, g.kept₁.subset sub, g.kept₂.subset images, g.ext.subset sub,
      g.role, g.high, g.image, g.keeps⟩ p₁ p₂
  | left ex => exact .left ⟨ex.run, ex.mirror, ex.kept.subset sub, ex.ext.subset sub, ex.keeps⟩
  | right ex => exact .right ⟨ex.run, ex.mirror, ex.kept.subset images, ex.ext.subset images, ex.keeps⟩

theorem Exhausts.withPins {op : HeapM Addr} {h h' : Heap} {n : Nat} {w' : World} {as : List Addr}
    (ex : Exhausts w K op { h with pinned := h.pinned ++ as } n h' w') :
    Exhausts w K (Heap.withPins as op) h n (h'.release h.pinned.length) w' :=
  ⟨by rw [Heap.withPins, ex.run], ex.mirror.with_pins _ _, ex.kept.release, ex.ext,
    ex.keeps.imp fun _ _ _ _ commutes => Commutes.withPins commutes⟩

theorem Takes.withPins {as₁ as₂ : List Addr}
    (t : Takes w K r P op₁ op₂ { h₁ with pinned := h₁.pinned ++ as₁ }
      { h₂ with pinned := h₂.pinned ++ as₂ }) :
    Takes w K r P (Heap.withPins as₁ op₁) (Heap.withPins as₂ op₂) h₁ h₂ := by
  cases t with
  | @ok a₁ a₂ h₁' h₂' w' g p₁ p₂ =>
    have run₁ : Heap.withPins as₁ op₁ h₁ = .ok a₁ (h₁'.release h₁.pinned.length) := by
      rw [Heap.withPins, g.run₁]
    have run₂ : Heap.withPins as₂ op₂ h₂ = .ok a₂ (h₂'.release h₂.pinned.length) := by
      rw [Heap.withPins, g.run₂]
    exact .ok ⟨run₁, run₂, g.mirror.with_pins _ _, g.kept₁.release, g.kept₂.release, g.ext, g.role,
      g.high, g.image,
      g.keeps.imp fun _ _ _ _ commutes =>
        ⟨Commutes.withPins commutes.1, Commutes.withPins commutes.2⟩⟩ p₁ p₂
  | left ex => exact .left ex.withPins
  | right ex => exact .right ex.withPins

theorem Exhausts.after {op : HeapM Addr} {f : Addr → HeapM Addr} {h h' h'' : Heap} {a : Addr} {n : Nat}
    {w' w'' : World} (run : op h = .ok a h') (kept : Kept K h h') (ext : w.Extends w' K)
    (keeps : w.Keeps w' fun x => Commutes (pin x) op h) (small : h.words.size ≤ maxWords)
    (traceable : Traceable h.words K) (ex : Exhausts w' K (f a) h' n h'' w'') :
    Exhausts w K (op >>= f) h n h'' w'' := by
  exact ⟨by rw [bind_of_ok run, ex.run], ex.mirror, kept.trans ex.kept small traceable, ext.trans ex.ext,
    (keeps.trans ex.keeps).imp fun x _ _ _ commutes => commutes.1.bind_ok run commutes.2⟩

theorem Exhausts.bind {op : HeapM Addr} {f : Addr → HeapM Addr} {h h' : Heap} {n : Nat} {w' : World}
    (ex : Exhausts w K op h n h' w') : Exhausts w K (op >>= f) h n h' w' := by
  exact ⟨bind_of_error ex.run, ex.mirror, ex.kept, ex.ext,
    ex.keeps.imp fun x _ _ _ commutes => commutes.bind_error ex.run⟩

theorem Takes.bind {f₁ f₂ : Addr → HeapM Addr} {r' : Role} {P' : Array Word → Addr → Prop}
    (m : Mirror w h₁ h₂) (known : ∀ x ∈ K, w.Knows x) (first : Takes w K r P op₁ op₂ h₁ h₂)
    (rest : ∀ a₁ a₂ h₁' h₂' w', Gives w K r op₁ op₂ h₁ h₂ a₁ a₂ h₁' h₂' w' →
      Takes w' K r' P' (f₁ a₁) (f₂ a₂) h₁' h₂') :
    Takes w K r' P' (op₁ >>= f₁) (op₂ >>= f₂) h₁ h₂ := by
  have t₁ := m.traceable₁ known
  have t₂ := m.traceable₂ known
  cases first with
  | left ex => exact .left ex.bind
  | right ex => exact .right ex.bind
  | @ok a₁ a₂ h₁' h₂' w' g p₁ p₂ =>
    have images := g.ext.map_image
    cases rest a₁ a₂ h₁' h₂' w' g with
    | left ex =>
      refine .left (ex.after g.run₁ g.kept₁ g.ext.left ?_ m.sound₁.sized.small t₁)
      intro x known old
      obtain ⟨known, old, -, commutes, -⟩ := g.keeps x known old
      exact ⟨known, old, rfl, commutes⟩
    | right ex =>
      rw [images] at ex
      refine .right (ex.after g.run₂ g.kept₂ (g.ext.right m g.mirror known) ?_ m.sound₂.sized.small t₂)
      exact g.keeps.right m fun x commutes => commutes.2
    | ok g' p₁ p₂ =>
      have kept₂ := g'.kept₂
      rw [images] at kept₂
      refine .ok ⟨by rw [bind_of_ok g.run₁, g'.run₁], by rw [bind_of_ok g.run₂, g'.run₂], g'.mirror,
        g.kept₁.trans g'.kept₁ m.sound₁.sized.small t₁, g.kept₂.trans kept₂ m.sound₂.sized.small t₂,
        g.ext.trans g'.ext, g'.role, g'.high, g'.image, ?_⟩ p₁ p₂
      intro x known old
      obtain ⟨known, old, image, c₁', c₂'⟩ := g'.keeps x known old
      obtain ⟨known, old, image', c₁, c₂⟩ := g.keeps x known old
      rw [image'] at c₂'
      exact ⟨known, old, image.trans image', c₁.bind_ok g.run₁ c₁', c₂.bind_ok g.run₂ c₂'⟩

end

/-- Two heaps that mirror each other, with roots and pins in correspondence. -/
structure Shared (w : World) (t₁ t₂ : Roots) (h₁ h₂ : Heap) : Prop where
  mirror : Mirror w h₁ h₂
  roots : t₂.get = t₁.get.map w.image
  pins : h₂.pinned = h₁.pinned.map w.image
  known : ∀ x ∈ t₁.get ++ h₁.pinned, w.Knows x

namespace Shared

variable {w : World} {t₁ t₂ : Roots} {h₁ h₂ : Heap} {env frame : Addr} {r : Role}

theorem known_append (s : Shared w t₁ t₂ h₁ h₂) {as : List Addr} (new : ∀ x ∈ as, w.Knows x) :
    ∀ x ∈ t₁.get ++ (h₁.pinned ++ as), w.Knows x := by
  intro x mem
  rw [← List.append_assoc] at mem
  rcases List.mem_append.1 mem with mem | mem
  · exact s.known x mem
  · exact new x mem

theorem map_roots (s : Shared w t₁ t₂ h₁ h₂) (as : List Addr) :
    (t₁.get ++ (h₁.pinned ++ as)).map w.image = t₂.get ++ (h₂.pinned ++ as.map w.image) := by
  rw [List.map_append, List.map_append, s.roots, s.pins]

theorem pin (s : Shared w t₁ t₂ h₁ h₂) {as : List Addr} (new : ∀ x ∈ as, w.Knows x) :
    Shared w t₁ t₂ { h₁ with pinned := h₁.pinned ++ as }
      { h₂ with pinned := h₂.pinned ++ as.map w.image } :=
  ⟨s.mirror.with_pins _ _, s.roots, by simp [s.pins], s.known_append new⟩

theorem next (s : Shared w t₁ t₂ h₁ h₂) {op₁ op₂ : HeapM Addr} {a₁ a₂ : Addr} {h₁' h₂' : Heap} {w' : World}
    {K : List Addr} (sub : t₁.get ++ h₁.pinned ⊆ K)
    (g : Gives w K r op₁ op₂ h₁ h₂ a₁ a₂ h₁' h₂' w') : Shared w' t₁ t₂ h₁' h₂' := by
  have same : ∀ l ⊆ K, l.map w.image = l.map w'.image := fun l sub =>
    List.map_congr_left fun x mem => (g.ext.image x (.inl (sub mem))).symm
  refine ⟨g.mirror, ?_, ?_, fun x mem => ?_⟩
  · rw [s.roots]
    exact same _ fun x mem => sub (List.mem_append_left _ mem)
  · rw [g.kept₂.pinned, g.kept₁.pinned, s.pins]
    exact same _ fun x mem => sub (List.mem_append_right _ mem)
  · rw [g.kept₁.pinned] at mem
    exact g.ext.knows (.inl (sub mem)) (s.known x mem)

theorem map_roots_self (s : Shared w t₁ t₂ h₁ h₂) :
    (t₁.get ++ h₁.pinned).map w.image = t₂.get ++ h₂.pinned := by
  rw [List.map_append, s.roots, s.pins]

section

variable (s : Shared w t₁ t₂ h₁ h₂)
include s

theorem newInt (k : Int64) :
    Takes w (t₁.get ++ h₁.pinned) .int (fun _ _ => True) (Heap.newInt t₁ k) (Heap.newInt t₂ k) h₁ h₂ := by
  have sound₁ := s.mirror.sound₁
  have sound₂ := s.mirror.sound₂
  refine s.mirror.takes s.known s.map_roots_self (n := .int k) (fun t => newInt_allocates sound₁ t k)
    (fun t => newInt_allocates sound₂ t k) trivial (fun c mem => nomatch mem)
    (fun t x held => newInt_pin sound₁ t held k) (fun t x held => newInt_pin sound₂ t held k)
    (fun _ _ _ => trivial) (fun _ _ _ => trivial)

theorem newWaitGroup :
    Takes w (t₁.get ++ h₁.pinned) .value (fun _ _ => True) (Heap.newWaitGroup t₁) (Heap.newWaitGroup t₂)
      h₁ h₂ := by
  have sound₁ := s.mirror.sound₁
  have sound₂ := s.mirror.sound₂
  refine s.mirror.takes s.known s.map_roots_self (n := .group 0 []) (fun t => newWaitGroup_allocates sound₁ t)
    (fun t => newWaitGroup_allocates sound₂ t) trivial (fun c mem => nomatch mem)
    (fun t x held => allocate_pin sound₁ t held _ _) (fun t x held => allocate_pin sound₂ t held _ _)
    (fun _ _ _ => trivial) (fun _ _ _ => trivial)

theorem newWaitQueue (kind : r = .senders ∨ r = .receivers) :
    Takes w (t₁.get ++ h₁.pinned) r (fun _ _ => True) (Heap.newWaitQueue t₁) (Heap.newWaitQueue t₂) h₁ h₂ := by
  have sound₁ := s.mirror.sound₁
  have sound₂ := s.mirror.sound₂
  have fits : Node.Fits w.role r (.queue []) := by
    rcases kind with rfl | rfl <;> exact fun _ mem => nomatch mem
  refine s.mirror.takes s.known s.map_roots_self (n := .queue []) (fun t => newWaitQueue_allocates sound₁ t)
    (fun t => newWaitQueue_allocates sound₂ t) fits (fun c mem => nomatch mem)
    (fun t x held => allocate_pin sound₁ t held _ _) (fun t x held => allocate_pin sound₂ t held _ _)
    (fun _ _ _ => trivial) (fun _ _ _ => trivial)

theorem newFrame {n : Int} (fits : 0 ≤ n ∧ n ≤ 15) :
    Takes w (t₁.get ++ h₁.pinned) .frame
      (fun words a => Shows words a (.frame (List.replicate n.toNat unassigned)))
      (Heap.newFrame t₁ n) (Heap.newFrame t₂ n) h₁ h₂ := by
  have sound₁ := s.mirror.sound₁
  have sound₂ := s.mirror.sound₂
  have same : (Node.frame (List.replicate n.toNat unassigned)).map w.image =
      .frame (List.replicate n.toNat unassigned) := by
    rw [Node.map, List.map_replicate, s.mirror.low unassigned (by decide)]
  have reserved : w.role unassigned .value := s.mirror.reserved _ _ ⟨by decide, by decide⟩
  refine s.mirror.takes s.known s.map_roots_self (n := .frame (List.replicate n.toNat unassigned))
    (fun t => newFrame_allocates sound₁ t fits) (fun t => by rw [same]; exact newFrame_allocates sound₂ t fits)
    ?_ ?_ (fun t x held => newFrame_pin sound₁ t held n) (fun t x held => newFrame_pin sound₂ t held n)
    (fun _ _ shows => shows) (fun _ _ shows => by rwa [same] at shows)
  · intro x mem
    rw [List.eq_of_mem_replicate mem]
    exact .inr reserved
  · intro c mem
    rw [List.eq_of_mem_replicate mem]
    exact ⟨.inl (by decide), fun _ recent => absurd (s.mirror.recent _ recent) (by decide)⟩

theorem knows_env (role : w.role env .environment) :
    ∀ x ∈ t₁.get ++ (h₁.pinned ++ [env]), w.Knows x :=
  s.known_append fun _ mem => ⟨_, List.mem_singleton.1 mem ▸ role⟩

theorem newBlockframe (role : w.role env .environment) :
    Takes w (t₁.get ++ (h₁.pinned ++ [env])) .activation (fun _ _ => True) (Heap.newBlockframe t₁ env)
      (Heap.newBlockframe t₂ (w.image env)) h₁ h₂ := by
  have sound₁ := s.mirror.sound₁
  have sound₂ := s.mirror.sound₂
  refine s.mirror.takes (s.knows_env role) (s.map_roots [env]) (n := .blockframe env)
    (fun t => newBlockframe_allocates sound₁ t) (fun t => newBlockframe_allocates sound₂ t) role ?_
    (fun t x held => newBlockframe_pin sound₁ t held) (fun t x held => newBlockframe_pin sound₂ t held)
    (fun _ _ _ => trivial) (fun _ _ _ => trivial)
  intro c mem
  exact ⟨.inr (.root (by simp [List.mem_singleton.1 mem])), nofun⟩

theorem newCallframe (role : w.role env .environment) (pc : Int) :
    Takes w (t₁.get ++ (h₁.pinned ++ [env])) .activation (fun _ _ => True) (Heap.newCallframe t₁ pc env)
      (Heap.newCallframe t₂ pc (w.image env)) h₁ h₂ := by
  have sound₁ := s.mirror.sound₁
  have sound₂ := s.mirror.sound₂
  refine s.mirror.takes (s.knows_env role) (s.map_roots [env])
    (n := .callframe (UInt32.ofInt pc).toNat env)
    (fun t => newCallframe_allocates sound₁ t pc) (fun t => newCallframe_allocates sound₂ t pc) role ?_
    (fun t x held => newCallframe_pin sound₁ t held pc) (fun t x held => newCallframe_pin sound₂ t held pc)
    (fun _ _ _ => trivial) (fun _ _ _ => trivial)
  intro c mem
  exact ⟨.inr (.root (by simp [List.mem_singleton.1 mem])), nofun⟩

theorem newClosure (role : w.role env .environment) {arity : Int} (fits : 0 ≤ arity ∧ arity ≤ 15) (pc : Int) :
    Takes w (t₁.get ++ (h₁.pinned ++ [env])) .value (fun _ _ => True) (Heap.newClosure t₁ arity pc env)
      (Heap.newClosure t₂ arity pc (w.image env)) h₁ h₂ := by
  have sound₁ := s.mirror.sound₁
  have sound₂ := s.mirror.sound₂
  refine s.mirror.takes (s.knows_env role) (s.map_roots [env])
    (n := .closure arity.toNat (UInt32.ofInt pc).toNat env)
    (fun t => newClosure_allocates sound₁ t fits pc) (fun t => newClosure_allocates sound₂ t fits pc) role ?_
    (fun t x held => newClosure_pin sound₁ t held arity pc)
    (fun t x held => newClosure_pin sound₂ t held arity pc) (fun _ _ _ => trivial) (fun _ _ _ => trivial)
  intro c mem
  exact ⟨.inr (.root (by simp [List.mem_singleton.1 mem])), nofun⟩

/-- The new environment shares the frames of the one extended. -/
theorem extend {frames : List Addr} (role : w.role env .environment) (frameRole : w.role frame .frame)
    (high : bottom ≤ frame) (s₁ : Shows h₁.words env (.environment frames))
    (admits : w.Admits env .environment (.environment frames))
    (s₂ : Shows h₂.words (w.image env) (.environment (frames.map w.image))) (room : frames.length < 15) :
    Takes w (t₁.get ++ (h₁.pinned ++ [env, frame])) .environment (fun _ _ => True)
      (Heap.extend t₁ env frame) (Heap.extend t₂ (w.image env) (w.image frame)) h₁ h₂ := by
  have sound₁ := s.mirror.sound₁
  have sound₂ := s.mirror.sound₂
  have mapped : (Node.environment (frames ++ [frame])).map w.image =
      .environment (frames.map w.image ++ [w.image frame]) := by
    simp [Node.map]
  have known : ∀ x ∈ t₁.get ++ (h₁.pinned ++ [env, frame]), w.Knows x := by
    refine s.known_append (List.forall_mem_cons.2 ⟨⟨_, role⟩, fun x mem => ?_⟩)
    exact ⟨_, List.mem_singleton.1 mem ▸ frameRole⟩
  refine s.mirror.takes known (s.map_roots [env, frame]) (n := .environment (frames ++ [frame]))
    (fun t => extend_allocates sound₁ t (s₁.lists (.inr rfl)) room)
    (fun t => by rw [mapped]; exact extend_allocates sound₂ t (s₂.lists (.inr rfl)) (by simpa using room)) ?_ ?_
    (fun t x held => extend_pin sound₁ s₁.node t held) (fun t x held => extend_pin sound₂ s₂.node t held)
    (fun _ _ _ => trivial) (fun _ _ _ => trivial)
  · obtain ⟨rest, rfl, first, all⟩ := admits.fits
    refine ⟨rest ++ [frame], rfl, first, fun f mem => ?_⟩
    rcases List.mem_append.1 mem with mem | mem
    · exact all f mem
    · rw [List.mem_singleton.1 mem]
      exact ⟨frameRole, high⟩
  · refine fun c mem => ⟨?_, by simp⟩
    rcases List.mem_append.1 mem with mem | mem
    · by_cases low : env < bottom
      · exact .inl ((admits.low low).2 c mem)
      · refine .inr (.step (.root (a := env) (by simp)) (UInt32.not_lt.1 low) ?_)
        rw [refers_iff s₁.node s₁.layout, s₁.refs]
        exact mem
    · rw [List.mem_singleton.1 mem]
      exact .inr (.root (by simp))

theorem channel {senders receivers : Addr} (sends : w.role senders .senders)
    (receives : w.role receivers .receivers) (pinned : senders ∈ h₁.pinned ∧ receivers ∈ h₁.pinned)
    {capacity : Int} (fits : 0 ≤ capacity ∧ capacity ≤ 13) :
    Takes w (t₁.get ++ h₁.pinned) .value (fun _ _ => True)
      (do
        let ch ← allocate t₁ .intChannel (3 + capacity)
        setField ch 7 capacity.toNat.toUInt8
        setChild ch 0 senders
        setChild ch 1 receivers
        return ch)
      (do
        let ch ← allocate t₂ .intChannel (3 + capacity)
        setField ch 7 capacity.toNat.toUInt8
        setChild ch 0 (w.image senders)
        setChild ch 1 (w.image receivers)
        return ch) h₁ h₂ := by
  have sound₁ := s.mirror.sound₁
  have sound₂ := s.mirror.sound₂
  have blind : ∀ x y a : Addr, Blind (do
      setField a 7 capacity.toNat.toUInt8
      setChild a 0 x
      setChild a 1 y
      return a) := fun x y a =>
    (Blind.setField a 7 _).bind fun _ => (Blind.setChild a 0 x).bind fun _ =>
      (Blind.setChild a 1 y).bind fun _ => .pure a
  refine s.mirror.takes s.known s.map_roots_self
    (n := .channel capacity.toNat Bool.false senders receivers [])
    (fun t => channel_allocates sound₁ t fits senders receivers)
    (fun t => channel_allocates sound₂ t fits (w.image senders) (w.image receivers))
    ⟨sends, receives, fun _ mem => nomatch mem⟩ ?_
    (fun t x held => (allocate_pin sound₁ t held _ _).bind fun a h _ => blind _ _ a x h)
    (fun t x held => (allocate_pin sound₂ t held _ _).bind fun a h _ => blind _ _ a x h)
    (fun _ _ _ => trivial) (fun _ _ _ => trivial)
  refine fun c mem => ⟨.inr (.root (List.mem_append_right _ ?_)), nofun⟩
  rcases List.mem_cons.1 mem with rfl | mem
  · exact pinned.1
  · exact List.mem_singleton.1 mem ▸ pinned.2

theorem newChannel {capacity : Int} (fits : 0 ≤ capacity ∧ capacity ≤ 13) :
    Takes w (t₁.get ++ h₁.pinned) .value (fun _ _ => True) (Heap.newChannel t₁ capacity)
      (Heap.newChannel t₂ capacity) h₁ h₂ := by
  have more : ∀ l as : List Addr, t₁.get ++ l ⊆ t₁.get ++ (l ++ as) := by
    intro l as x mem
    rw [← List.append_assoc]
    exact List.mem_append_left _ mem
  have inside : ¬ (capacity < 0 ∨ (maxChannelCapacity : Int) < capacity) := by
    unfold maxChannelCapacity
    omega
  unfold Heap.newChannel
  rw [if_neg inside, if_neg inside]
  refine (s.newWaitQueue (.inl rfl)).bind s.mirror s.known fun q₁ q₂ h₁' h₂' w' g => ?_
  obtain rfl := g.image
  have s' := s.next (List.Subset.refl _) g
  have pins' : ∀ x ∈ [q₁], w'.Knows x := fun x mem => ⟨_, List.mem_singleton.1 mem ▸ g.role⟩
  have p := s'.pin pins'
  have wider : t₁.get ++ h₁.pinned ⊆ t₁.get ++ (h₁'.pinned ++ [q₁]) := by
    rw [g.kept₁.pinned]
    exact more h₁.pinned [q₁]
  refine Takes.withPins (Takes.subset ?_ wider)
  refine (p.newWaitQueue (.inr rfl)).bind p.mirror p.known fun r₁ r₂ h₁'' h₂'' w'' g' => ?_
  obtain rfl := g'.image
  have p' := p.next (List.Subset.refl _) g'
  have pins'' : ∀ x ∈ [r₁], w''.Knows x := fun x mem => ⟨_, List.mem_singleton.1 mem ▸ g'.role⟩
  have pinned : h₁''.pinned = h₁'.pinned ++ [q₁] := g'.kept₁.pinned
  have live : q₁ ∈ t₁.get ++ (h₁'.pinned ++ [q₁]) ∨ q₁ < bottom := .inl (by simp)
  have wider' : t₁.get ++ (h₁'.pinned ++ [q₁]) ⊆ t₁.get ++ (h₁''.pinned ++ [r₁]) := by
    rw [pinned]
    exact more (h₁'.pinned ++ [q₁]) [r₁]
  refine Takes.withPins (Takes.subset ?_ wider')
  rw [← g'.ext.image q₁ live]
  exact (p'.pin pins'').channel (g'.ext.role q₁ _ live g.role) g'.role (by simp [pinned]) fits

end

end Shared

end FiberVm
