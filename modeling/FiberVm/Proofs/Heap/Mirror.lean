import FiberVm.Proofs.Heap.Allocation
import FiberVm.Proofs.Heap.Queue

/-!
# Two heaps that show the same

A typing says which addresses play which role in a running program, and a role says which nodes may
stand there and which roles their references play. Two heaps mirror each other along an injective
renaming of the typed addresses if they show the same nodes up to that renaming. Since a typing is
closed under references, what it types is never free and a collection from typed roots cannot fail.

A collection on either side keeps the mirror over what is still reachable. So does taking a node on both
sides, whatever the two addresses are; they are then put into correspondence.
-/

set_option autoImplicit false

namespace FiberVm

/-- What an address is used for. -/
inductive Role
  | int
  /-- Any value of the program that is not an integer. -/
  | value
  | frame
  | environment
  /-- An entry of a runtime stack. -/
  | activation
  /-- The queue of a channel's parked senders. -/
  | senders
  | receivers
deriving DecidableEq

/-- The roles that addresses play. -/
abbrev Typing := Addr → Role → Prop

/-- A value of the program. -/
def IsValue (D : Typing) (a : Addr) : Prop := D a .int ∨ D a .value

/-- The nodes that may play a role. The outermost frame of an environment is that of the builtins, and
it is the only reserved one. -/
def Node.Fits (D : Typing) : Role → Node → Prop
  | .int, .int _ => True
  | .value, .literal _ => True
  | .value, .builtin b k => Builtin.table[b.number.toNat]?.map (·.2) = some k
  | .value, .closure _ _ e => D e .environment
  | .value, .channel _ _ s r items => D s .senders ∧ D r .receivers ∧ ∀ i ∈ items, D i .int
  | .value, .group _ _ => True
  | .frame, .frame slots => ∀ x ∈ slots, IsValue D x
  | .environment, .environment frames =>
    ∃ rest, frames = Heap.builtinsFrame :: rest ∧ D Heap.builtinsFrame .frame ∧
      ∀ f ∈ rest, D f .frame ∧ Heap.bottom ≤ f
  | .activation, .callframe _ e => D e .environment
  | .activation, .blockframe e => D e .environment
  | .senders, .queue ws => ∀ w ∈ ws, D w.value .int
  | .receivers, .queue ws => ∀ w ∈ ws, w.value = noAddr
  | _, _ => False

/-- The roles of the reserved nodes. -/
def Reserved (a : Addr) : Role → Prop
  | .value => a.toNat % 16 = 0 ∧ a < Heap.builtinsFrame
  | .frame => a = Heap.builtinsFrame
  | .environment => a = Heap.globalEnv
  | _ => False

theorem Reserved.low {a : Addr} {r : Role} (res : Reserved a r) : a < Heap.bottom := by
  cases r with
  | value => exact UInt32.lt_trans res.2 (by decide)
  | frame | environment => exact res ▸ (by decide)
  | _ => exact res.elim

/-- The nodes that a heap is made with: literals, builtins, their frame and the environment around it. -/
def Node.IsReserved : Node → Prop
  | .literal _ | .builtin _ _ | .frame _ | .environment _ => True
  | _ => False

/-- A typing of one heap with a renaming into another. -/
structure World where
  role : Typing
  image : Addr → Addr
  /-- Taken into use so recently that no variable holds it yet. -/
  recent : Addr → Prop

/-- The node may stand at `a` in the role `r`. Reserved nodes refer to reserved ones only. -/
structure World.Admits (w : World) (a : Addr) (r : Role) (n : Node) : Prop where
  fits : n.Fits w.role r
  low : a < Heap.bottom → n.IsReserved ∧ ∀ c ∈ n.references, c < Heap.bottom
  settled : r = .frame → ∀ c ∈ n.references, ¬ w.recent c

/-- The two heaps show the same nodes along the renaming. -/
structure Mirror (w : World) (h₁ h₂ : Heap) : Prop where
  sound₁ : h₁.Sound
  sound₂ : h₂.Sound
  nodes : ∀ a r, w.role a r → ∃ n, Heap.Shows h₁.words a n ∧ w.Admits a r n ∧
    Heap.Shows h₂.words (w.image a) (n.map w.image)
  unique : ∀ a r s, w.role a r → w.role a s → r = s
  injective : ∀ a b r s, w.role a r → w.role b s → w.image a = w.image b → a = b
  low : ∀ a, a < Heap.bottom → w.image a = a
  high : ∀ a r, w.role a r → Heap.bottom ≤ a → Heap.bottom ≤ w.image a
  none : w.image noAddr = noAddr
  reserved : ∀ a r, Reserved a r → w.role a r
  recent : ∀ a, w.recent a → Heap.bottom ≤ a

def World.Knows (w : World) (a : Addr) : Prop := ∃ r, w.role a r

theorem IsValue.knows {w : World} {a : Addr} (h : IsValue w.role a) : w.Knows a := by
  rcases h with h | h
  · exact ⟨_, h⟩
  · exact ⟨_, h⟩

section Fits

variable {D D' : Typing} {r : Role} {n : Node} {ρ ρ' : Addr → Addr} {c : Addr}

theorem Node.Fits.known (fits : n.Fits D r) (mem : c ∈ n.references) : ∃ s, D c s := by
  cases n with
  | literal _ | int _ | builtin _ _ | group _ _ => cases mem
  | frame slots =>
    cases r with
    | frame =>
      rcases fits c mem with h | h
      · exact ⟨_, h⟩
      · exact ⟨_, h⟩
    | _ => exact fits.elim
  | environment frames =>
    cases r with
    | environment =>
      obtain ⟨rest, rfl, first, all⟩ := fits
      rcases List.mem_cons.1 mem with rfl | mem
      · exact ⟨_, first⟩
      · exact ⟨_, (all c mem).1⟩
    | _ => exact fits.elim
  | callframe pc e | blockframe e =>
    cases r with
    | activation =>
      obtain rfl := List.mem_singleton.1 mem
      exact ⟨_, fits⟩
    | _ => exact fits.elim
  | closure k pc e =>
    cases r with
    | value =>
      obtain rfl := List.mem_singleton.1 mem
      exact ⟨_, fits⟩
    | _ => exact fits.elim
  | channel cap closed s t items =>
    cases r with
    | value =>
      obtain ⟨sendq, recvq, ints⟩ := fits
      rcases List.mem_cons.1 mem with rfl | mem
      · exact ⟨_, sendq⟩
      · rcases List.mem_cons.1 mem with rfl | mem
        · exact ⟨_, recvq⟩
        · exact ⟨_, ints c mem⟩
    | _ => exact fits.elim
  | queue ws =>
    obtain ⟨values, present⟩ := List.mem_filter.1 mem
    obtain ⟨w, inside, rfl⟩ := List.mem_map.1 values
    cases r with
    | senders => exact ⟨_, fits w inside⟩
    | receivers =>
      rw [fits w inside] at present
      exact absurd present (by decide)
    | _ => exact fits.elim

theorem Node.Fits.mono (fits : n.Fits D r) (known : ∀ s, ∀ x ∈ n.references, D x s → D' x s)
    (present : ∀ x, D x .int → x ≠ noAddr) : n.Fits D' r := by
  cases n with
  | literal _ | int _ | builtin _ _ | group _ _ => cases r <;> exact fits
  | frame slots =>
    cases r with
    | frame => exact fun x mem => (fits x mem).imp (known _ x mem) (known _ x mem)
    | _ => exact fits.elim
  | environment frames =>
    cases r with
    | environment =>
      obtain ⟨rest, rfl, first, all⟩ := fits
      refine ⟨rest, rfl, known _ _ List.mem_cons_self first, fun f mem => ?_⟩
      exact ⟨known _ f (List.mem_cons_of_mem _ mem) (all f mem).1, (all f mem).2⟩
    | _ => exact fits.elim
  | callframe pc e | blockframe e =>
    cases r with
    | activation => exact known _ e List.mem_cons_self fits
    | _ => exact fits.elim
  | closure k pc e =>
    cases r with
    | value => exact known _ e List.mem_cons_self fits
    | _ => exact fits.elim
  | channel cap closed s t items =>
    cases r with
    | value =>
      obtain ⟨sendq, recvq, ints⟩ := fits
      refine ⟨known _ s List.mem_cons_self sendq, known _ t (by simp [Node.references]) recvq, ?_⟩
      exact fun i mem => known _ i (by simp [Node.references, mem]) (ints i mem)
    | _ => exact fits.elim
  | queue ws =>
    cases r with
    | senders =>
      intro w mem
      refine known _ w.value (List.mem_filter.2 ⟨List.mem_map_of_mem mem, ?_⟩) (fits w mem)
      simpa using present w.value (fits w mem)
    | receivers => exact fits
    | _ => exact fits.elim

theorem Node.Fits.map (fits : n.Fits D r) (low : ρ Heap.builtinsFrame = Heap.builtinsFrame)
    (high : ∀ f, D f .frame → Heap.bottom ≤ f → Heap.bottom ≤ ρ f) (none : ρ noAddr = noAddr) :
    (n.map ρ).Fits (fun b s => ∃ a, D a s ∧ ρ a = b) r := by
  cases n with
  | literal _ | int _ | builtin _ _ | group _ _ => cases r <;> exact fits
  | frame slots =>
    cases r with
    | frame =>
      intro y mem
      obtain ⟨x, inside, rfl⟩ := List.mem_map.1 mem
      exact (fits x inside).imp (fun h => ⟨x, h, rfl⟩) fun h => ⟨x, h, rfl⟩
    | _ => exact fits.elim
  | environment frames =>
    cases r with
    | environment =>
      obtain ⟨rest, rfl, first, all⟩ := fits
      refine ⟨rest.map ρ, by rw [List.map_cons, low], ⟨_, first, low⟩, fun y mem => ?_⟩
      obtain ⟨x, inside, rfl⟩ := List.mem_map.1 mem
      exact ⟨⟨x, (all x inside).1, rfl⟩, high x (all x inside).1 (all x inside).2⟩
    | _ => exact fits.elim
  | callframe pc e | blockframe e =>
    cases r with
    | activation => exact ⟨e, fits, rfl⟩
    | _ => exact fits.elim
  | closure k pc e =>
    cases r with
    | value => exact ⟨e, fits, rfl⟩
    | _ => exact fits.elim
  | channel cap closed s t items =>
    cases r with
    | value =>
      obtain ⟨sendq, recvq, ints⟩ := fits
      refine ⟨⟨s, sendq, rfl⟩, ⟨t, recvq, rfl⟩, fun y mem => ?_⟩
      obtain ⟨x, inside, rfl⟩ := List.mem_map.1 mem
      exact ⟨x, ints x inside, rfl⟩
    | _ => exact fits.elim
  | queue ws =>
    cases r with
    | senders =>
      intro v mem
      obtain ⟨w, inside, rfl⟩ := List.mem_map.1 mem
      exact ⟨w.value, fits w inside, rfl⟩
    | receivers =>
      intro v mem
      obtain ⟨w, inside, rfl⟩ := List.mem_map.1 mem
      exact (congrArg ρ (fits w inside)).trans none
    | _ => exact fits.elim

theorem Node.map_congr (same : ∀ c ∈ n.references, ρ' c = ρ c) (none : ρ' noAddr = ρ noAddr) :
    n.map ρ' = n.map ρ := by
  cases n with
  | literal _ | int _ | builtin _ _ | group _ _ => rfl
  | frame xs => exact congrArg Node.frame (List.map_congr_left same)
  | environment xs => exact congrArg Node.environment (List.map_congr_left same)
  | callframe pc e => exact congrArg (Node.callframe pc) (same e List.mem_cons_self)
  | blockframe e => exact congrArg Node.blockframe (same e List.mem_cons_self)
  | closure k pc e => exact congrArg (Node.closure k pc) (same e List.mem_cons_self)
  | channel cap closed s t items =>
    have items : items.map ρ' = items.map ρ :=
      List.map_congr_left fun x mem => same x (by simp [Node.references, mem])
    rw [Node.map, Node.map, items, same s List.mem_cons_self, same t (by simp [Node.references])]
  | queue ws =>
    refine congrArg Node.queue (List.map_congr_left fun w mem => ?_)
    by_cases absent : w.value = noAddr
    · rw [absent, none]
    · rw [same w.value (List.mem_filter.2 ⟨List.mem_map_of_mem mem, by simpa using absent⟩)]

theorem Node.mem_references_map (none : ρ noAddr = noAddr) {b : Addr}
    (mem : b ∈ (n.map ρ).references) : ∃ a ∈ n.references, ρ a = b := by
  cases n with
  | literal _ | int _ | builtin _ _ | group _ _ => cases mem
  | frame xs | environment xs => exact List.mem_map.1 mem
  | callframe pc e | blockframe e | closure k pc e =>
    exact ⟨e, List.mem_cons_self, (List.mem_singleton.1 mem).symm⟩
  | channel cap closed s t items =>
    have mapped : (Node.map ρ (.channel cap closed s t items)).references =
      (Node.channel cap closed s t items).references.map ρ := rfl
    exact List.mem_map.1 (mapped ▸ mem)
  | queue ws =>
    obtain ⟨values, present⟩ := List.mem_filter.1 mem
    rw [List.map_map] at values
    obtain ⟨w, inside, rfl⟩ := List.mem_map.1 values
    refine ⟨w.value, List.mem_filter.2 ⟨List.mem_map_of_mem inside, ?_⟩, rfl⟩
    refine bne_iff_ne.2 fun absent => bne_iff_ne.1 present ?_
    exact (congrArg ρ absent).trans none

theorem Node.references_map_mem (mem : c ∈ n.references) (present : ρ c ≠ noAddr) :
    ρ c ∈ (n.map ρ).references := by
  cases n with
  | literal _ | int _ | builtin _ _ | group _ _ => cases mem
  | frame xs | environment xs => exact List.mem_map_of_mem mem
  | callframe pc e | blockframe e | closure k pc e =>
    rw [List.mem_singleton.1 mem]
    exact List.mem_cons_self
  | channel cap closed s t items =>
    have mapped : (Node.map ρ (.channel cap closed s t items)).references =
      (Node.channel cap closed s t items).references.map ρ := rfl
    exact mapped ▸ List.mem_map_of_mem mem
  | queue ws =>
    obtain ⟨w, inside, rfl⟩ := List.mem_map.1 (List.mem_filter.1 mem).1
    refine List.mem_filter.2 ⟨?_, bne_iff_ne.2 present⟩
    rw [List.map_map]
    exact List.mem_map.2 ⟨w, inside, rfl⟩

end Fits

namespace Mirror

open Heap

variable {w : World} {h₁ h₂ h₁' h₂' : Heap} {K : List Addr} {a b : Addr} {r : Role}

theorem present (m : Mirror w h₁ h₂) (known : w.Knows a) : w.image a ≠ noAddr := by
  obtain ⟨r, role⟩ := known
  obtain ⟨n, -, -, s⟩ := m.nodes a r role
  intro none
  exact not_nodeIn_noAddr m.sound₂.sized.small (none ▸ s.node)

theorem ne_noAddr (m : Mirror w h₁ h₂) (known : w.Knows a) : a ≠ noAddr := by
  obtain ⟨r, role⟩ := known
  obtain ⟨n, s, -⟩ := m.nodes a r role
  rintro rfl
  exact not_nodeIn_noAddr m.sound₁.sized.small s.node

/-- References of a known address are known, and are there in the other heap too. -/
theorem refers (m : Mirror w h₁ h₂) (known : w.Knows a) (refers : Refers h₁.words a b) :
    w.Knows b ∧ Refers h₂.words (w.image a) (w.image b) := by
  obtain ⟨r, role⟩ := known
  obtain ⟨n, s₁, admits, s₂⟩ := m.nodes a r role
  rw [refers_iff s₁.node s₁.layout, s₁.refs] at refers
  have known := admits.fits.known refers
  refine ⟨known, (refers_iff s₂.node s₂.layout).2 ?_⟩
  rw [s₂.refs]
  exact Node.references_map_mem refers (m.present known)

theorem refers_back (m : Mirror w h₁ h₂) (known : w.Knows a) (refers : Refers h₂.words (w.image a) b) :
    ∃ c, w.image c = b ∧ Refers h₁.words a c := by
  obtain ⟨r, role⟩ := known
  obtain ⟨n, s₁, -, s₂⟩ := m.nodes a r role
  rw [refers_iff s₂.node s₂.layout, s₂.refs] at refers
  obtain ⟨c, mem, rfl⟩ := Node.mem_references_map m.none refers
  refine ⟨c, rfl, (refers_iff s₁.node s₁.layout).2 ?_⟩
  rwa [s₁.refs]

theorem image_high (m : Mirror w h₁ h₂) (known : w.Knows a) : bottom ≤ w.image a ↔ bottom ≤ a := by
  obtain ⟨r, role⟩ := known
  refine ⟨fun le => UInt32.not_lt.1 fun low => ?_, m.high a r role⟩
  rw [m.low a low] at le
  exact UInt32.not_lt.2 le low

theorem reaches (m : Mirror w h₁ h₂) (known : ∀ x ∈ K, w.Knows x)
    (reach : Reaches h₁.words K a) :
    w.Knows a ∧ Reaches h₂.words (K.map w.image) (w.image a) := by
  induction reach with
  | root mem => exact ⟨known _ mem, .root (List.mem_map_of_mem mem)⟩
  | step _ le refers ih =>
    obtain ⟨known, reach⟩ := ih
    obtain ⟨known', refers'⟩ := m.refers known refers
    exact ⟨known', reach.step ((m.image_high known).2 le) refers'⟩

theorem reaches_back (m : Mirror w h₁ h₂) (known : ∀ x ∈ K, w.Knows x)
    (reach : Reaches h₂.words (K.map w.image) b) :
    ∃ a, w.image a = b ∧ Reaches h₁.words K a := by
  induction reach with
  | root mem =>
    obtain ⟨x, inside, rfl⟩ := List.mem_map.1 mem
    exact ⟨x, rfl, .root inside⟩
  | step _ le refers ih =>
    obtain ⟨x, rfl, reach⟩ := ih
    have known := (m.reaches known reach).1
    obtain ⟨c, rfl, refers'⟩ := m.refers_back known refers
    exact ⟨c, rfl, reach.step ((m.image_high known).1 le) refers'⟩

theorem traceable₁ (m : Mirror w h₁ h₂) (known : ∀ x ∈ K, w.Knows x) : Traceable h₁.words K := by
  intro a reach
  obtain ⟨⟨r, role⟩, -⟩ := m.reaches known reach
  obtain ⟨n, s, -⟩ := m.nodes a r role
  exact .inr ⟨s.node, s.layout⟩

theorem traceable₂ (m : Mirror w h₁ h₂) (known : ∀ x ∈ K, w.Knows x) :
    Traceable h₂.words (K.map w.image) := by
  intro b reach
  obtain ⟨a, rfl, reach'⟩ := m.reaches_back known reach
  obtain ⟨⟨r, role⟩, -⟩ := m.reaches known reach'
  obtain ⟨n, -, -, s⟩ := m.nodes a r role
  exact .inr ⟨s.node, s.layout⟩

end Mirror

/-- The part of a world that is reserved or that the addresses `K` reach. -/
def World.keep (w : World) (words : Array Word) (K : List Addr) : World where
  role a r := w.role a r ∧ (a < Heap.bottom ∨ Heap.Reaches words K a)
  image := w.image
  recent := w.recent

def World.left (w : World) : World := { w with image := id }

def World.right (w : World) : World where
  role b r := ∃ a, w.role a r ∧ w.image a = b
  image := id
  recent b := ∃ a, w.Knows a ∧ w.recent a ∧ w.image a = b

/-- The world has changed only beyond the addresses `K` and the reserved ones. -/
structure World.Extends (w w' : World) (K : List Addr) : Prop where
  role : ∀ x r, x ∈ K ∨ x < Heap.bottom → w.role x r → w'.role x r
  image : ∀ x, x ∈ K ∨ x < Heap.bottom → w'.image x = w.image x
  recent : ∀ x ∈ K, w'.recent x → w.recent x

/-- What is known and not recent was so before, and `P` holds of it. -/
def World.Keeps (w w' : World) (P : Addr → Prop) : Prop :=
  ∀ x, w'.Knows x → ¬ w'.recent x → w.Knows x ∧ ¬ w.recent x ∧ w'.image x = w.image x ∧ P x

namespace Mirror

open Heap

variable {w : World} {h₁ h₂ h₁' h₂' : Heap} {K : List Addr} {a b : Addr} {r : Role}

theorem extends_keep (w : World) (words : Array Word) (K : List Addr) :
    w.Extends (w.keep words K) K := by
  refine ⟨fun x r live role => ⟨role, ?_⟩, fun _ _ => rfl, fun _ _ recent => recent⟩
  rcases live with mem | low
  · exact .inr (.root mem)
  · exact .inl low

theorem keeps_keep (w : World) (words : Array Word) (K : List Addr) :
    w.Keeps (w.keep words K) fun x => x < bottom ∨ Reaches words K x := by
  rintro x ⟨r, role, live⟩ old
  exact ⟨⟨r, role⟩, old, rfl, live⟩

theorem keep (m : Mirror w h₁ h₂) (known : ∀ x ∈ K, w.Knows x) (k₁ : Kept K h₁ h₁')
    (k₂ : Kept (K.map w.image) h₂ h₂') : Mirror (w.keep h₁.words K) h₁' h₂' := by
  refine ⟨k₁.sound, k₂.sound, ?_, fun a r s x y => m.unique a r s x.1 y.1,
    fun a b r s x y => m.injective a b r s x.1 y.1, m.low, fun a r x => m.high a r x.1, m.none, ?_,
    m.recent⟩
  · rintro a r ⟨role, live⟩
    obtain ⟨n, s₁, ⟨fits, low, settled⟩, s₂⟩ := m.nodes a r role
    refine ⟨n, s₁.of_same (k₁.same a s₁.node live) k₁.size, ⟨?_, low, settled⟩, ?_⟩
    · refine fits.mono (fun s x mem role' => ⟨role', ?_⟩) fun x role => m.ne_noAddr ⟨_, role⟩
      rcases live with below | reach
      · exact .inl ((low below).2 x mem)
      · by_cases le : bottom ≤ a
        · refine .inr (reach.step le ((refers_iff s₁.node s₁.layout).2 ?_))
          rwa [s₁.refs]
        · exact .inl ((low (UInt32.not_le.1 le)).2 x mem)
    · refine s₂.of_same (k₂.same _ s₂.node ?_) k₂.size
      rcases live with below | reach
      · exact .inl ((m.low a below).symm ▸ below)
      · exact .inr (m.reaches known reach).2
  · exact fun a r res => ⟨m.reserved a r res, .inl res.low⟩

theorem update {n : Node} (m : Mirror w h₁ h₂) (role : w.role a r) (u₁ : Updates h₁ h₁' a n)
    (u₂ : Updates h₂ h₂' (w.image a) (n.map w.image)) (admits : w.Admits a r n) :
    Mirror w h₁' h₂' := by
  obtain ⟨n₀, s₁, -, s₂⟩ := m.nodes a r role
  refine ⟨m.sound₁.updates s₁ u₁, m.sound₂.updates s₂ u₂, ?_, m.unique, m.injective, m.low, m.high,
    m.none, m.reserved, m.recent⟩
  intro b s role'
  by_cases same : b = a
  · subst same
    obtain rfl := m.unique b r s role role'
    exact ⟨n, u₁.shows, admits, u₂.shows⟩
  · obtain ⟨k, t₁, admits', t₂⟩ := m.nodes b s role'
    refine ⟨k, u₁.toOnly.shows same t₁, admits', u₂.toOnly.shows ?_ t₂⟩
    exact fun e => same (m.injective b a s r role' role e)

theorem left (m : Mirror w h₁ h₂) : Mirror w.left h₁ h₁ := by
  refine ⟨m.sound₁, m.sound₁, fun a r role => ?_, m.unique, fun _ _ _ _ _ _ e => e, fun _ _ => rfl,
    fun _ _ _ le => le, rfl, m.reserved, m.recent⟩
  obtain ⟨n, s, ⟨fits, low, settled⟩, -⟩ := m.nodes a r role
  exact ⟨n, s, ⟨fits, low, settled⟩, by rwa [World.left, Node.map_id]⟩

theorem right (m : Mirror w h₁ h₂) : Mirror w.right h₂ h₂ := by
  refine ⟨m.sound₂, m.sound₂, ?_, ?_, fun _ _ _ _ _ _ e => e, fun _ _ => rfl,
    fun _ _ _ le => le, rfl, ?_, ?_⟩
  · rintro b r ⟨a, role, rfl⟩
    obtain ⟨n, s₁, ⟨fits, low, settled⟩, s₂⟩ := m.nodes a r role
    refine ⟨n.map w.image, s₂, ⟨?_, fun below => ?_, fun frame c mem => ?_⟩, by
      rwa [World.right, Node.map_id]⟩
    · exact fits.map (m.low _ (by decide)) (fun f => m.high f .frame) m.none
    · have under : a < bottom := UInt32.not_le.1 fun le => UInt32.not_lt.2 (m.high a r role le) below
      refine ⟨by cases n <;> exact (low under).1, fun c mem => ?_⟩
      obtain ⟨x, inside, rfl⟩ := Node.mem_references_map m.none mem
      have small := (low under).2 x inside
      exact (m.low x small).symm ▸ small
    · obtain ⟨x, inside, rfl⟩ := Node.mem_references_map m.none mem
      rintro ⟨y, ⟨t, known⟩, recent, e⟩
      obtain ⟨s, role'⟩ := fits.known inside
      obtain rfl := m.injective y x t s known role' e
      exact settled frame y inside recent
  · rintro b r s ⟨a, role, rfl⟩ ⟨c, role', e⟩
    obtain rfl := m.injective c a s r role' role e
    exact m.unique c r s role role'
  · exact fun a r res => ⟨a, m.reserved a r res, m.low a res.low⟩
  · rintro b ⟨a, known, recent, rfl⟩
    exact (m.image_high known).2 (m.recent a recent)

theorem settle (m : Mirror w h₁ h₂) : Mirror { w with recent := fun _ => False } h₁ h₂ := by
  refine ⟨m.sound₁, m.sound₂, fun a r role => ?_, m.unique, m.injective, m.low, m.high, m.none,
    m.reserved, fun _ recent => recent.elim⟩
  obtain ⟨n, s₁, admits, s₂⟩ := m.nodes a r role
  exact ⟨n, s₁, ⟨admits.fits, admits.low, fun _ _ _ => id⟩, s₂⟩

end Mirror

/-- One more pair of addresses in correspondence. -/
def World.add (w : World) (a₁ a₂ : Addr) (r : Role) : World where
  role x s := w.role x s ∨ x = a₁ ∧ s = r
  image x := if x = a₁ then a₂ else w.image x
  recent x := w.recent x ∨ x = a₁

namespace Mirror

open Heap

variable {w : World} {h₁ h₂ h₁' h₂' : Heap} {K : List Addr} {a₁ a₂ : Addr} {r : Role} {n : Node}

theorem image_add_self (w : World) (a₁ a₂ : Addr) (r : Role) : (w.add a₁ a₂ r).image a₁ = a₂ :=
  if_pos rfl

theorem image_add_of_ne {x : Addr} (ne : x ≠ a₁) : (w.add a₁ a₂ r).image x = w.image x := if_neg ne

theorem image_add_none (m : Mirror w h₁ h₂) (node : NodeIn h₁.words a₁) :
    (w.add a₁ a₂ r).image noAddr = w.image noAddr := by
  refine image_add_of_ne ?_
  rintro rfl
  exact not_nodeIn_noAddr m.sound₁.sized.small node

theorem image_add (new₁ : ¬ w.Knows a₁) {x : Addr} {s : Role} (role : w.role x s) :
    (w.add a₁ a₂ r).image x = w.image x := by
  refine image_add_of_ne ?_
  rintro rfl
  exact new₁ ⟨s, role⟩

theorem admits_add (m : Mirror w h₁ h₂) (new₁ : ¬ w.Knows a₁) (node : NodeIn h₁.words a₁) {k : Node} {b : Addr}
    {s : Role} (admits : w.Admits b s k) :
    (w.add a₁ a₂ r).Admits b s k ∧ k.map (w.add a₁ a₂ r).image = k.map w.image := by
  obtain ⟨fits, low, settled⟩ := admits
  refine ⟨⟨?_, low, fun frame c mem => ?_⟩, Node.map_congr (fun c mem => ?_) (m.image_add_none node)⟩
  · exact fits.mono (fun _ _ _ => .inl) fun y role => m.ne_noAddr ⟨_, role⟩
  · obtain ⟨t, role⟩ := fits.known mem
    refine not_or.2 ⟨settled frame c mem, ?_⟩
    rintro rfl
    exact new₁ ⟨t, role⟩
  · obtain ⟨t, role⟩ := fits.known mem
    exact image_add new₁ role

theorem add (m : Mirror w h₁ h₂) (new₁ : ¬ w.Knows a₁) (new₂ : ∀ x, w.Knows x → w.image x ≠ a₂)
    (high₁ : bottom ≤ a₁) (high₂ : bottom ≤ a₂) (s₁ : Shows h₁.words a₁ n)
    (s₂ : Shows h₂.words a₂ (n.map w.image)) (admits : w.Admits a₁ r n) :
    Mirror (w.add a₁ a₂ r) h₁ h₂ where
  sound₁ := m.sound₁
  sound₂ := m.sound₂
  nodes := by
    rintro x s (role | ⟨rfl, rfl⟩)
    · obtain ⟨k, t₁, admits', t₂⟩ := m.nodes x s role
      obtain ⟨admits', map⟩ := m.admits_add new₁ s₁.node admits'
      refine ⟨k, t₁, admits', ?_⟩
      rw [map, image_add new₁ role]
      exact t₂
    · obtain ⟨admits', map⟩ := m.admits_add new₁ s₁.node admits
      refine ⟨n, s₁, admits', ?_⟩
      rw [map, image_add_self]
      exact s₂
  unique := by
    rintro x s t (role | ⟨rfl, rfl⟩) (role' | ⟨e, rfl⟩)
    · exact m.unique x s t role role'
    · exact absurd ⟨s, e ▸ role⟩ new₁
    · exact absurd ⟨t, role'⟩ new₁
    · rfl
  injective := by
    -- Two addresses that were known, one that was and the new one, or the new one twice.
    rintro x y s t (role | ⟨rfl, rfl⟩) (role' | ⟨rfl, rfl⟩) e
    · rw [image_add new₁ role, image_add new₁ role'] at e
      exact m.injective x y s t role role' e
    · rw [image_add new₁ role, image_add_self] at e
      exact absurd e (new₂ x ⟨s, role⟩)
    · rw [image_add new₁ role', image_add_self] at e
      exact absurd e.symm (new₂ y ⟨t, role'⟩)
    · rfl
  low x low := by
    refine (image_add_of_ne ?_).trans (m.low x low)
    rintro rfl
    exact UInt32.not_lt.2 high₁ low
  high := by
    rintro x s (role | ⟨rfl, rfl⟩) le
    · rw [image_add new₁ role]
      exact m.high x s role le
    · rw [image_add_self]
      exact high₂
  none := (m.image_add_none s₁.node).trans m.none
  reserved x s reserved := .inl (m.reserved x s reserved)
  recent := by
    rintro x (recent | rfl)
    · exact m.recent x recent
    · exact high₁

/-- Taking a node on both sides. Its references are reserved or within reach of the addresses `K`. -/
theorem fresh (m : Mirror w h₁ h₂) (known : ∀ x ∈ K, w.Knows x) (f₁ : Fresh K h₁ h₁' a₁)
    (f₂ : Fresh (K.map w.image) h₂ h₂' a₂) (s₁ : Shows h₁'.words a₁ n)
    (s₂ : Shows h₂'.words a₂ (n.map w.image)) (fits : n.Fits w.role r)
    (inside : ∀ c ∈ n.references, (c < bottom ∨ Reaches h₁.words K c) ∧ (r = .frame → ¬ w.recent c)) :
    ∃ w', Mirror w' h₁' h₂' ∧ w.Extends w' K ∧ w'.role a₁ r ∧ w'.image a₁ = a₂ ∧
      w.Keeps w' fun x => x < bottom ∨ Reaches h₁.words K x := by
  have kept := extends_keep w h₁.words K
  have m' := m.keep known f₁.toKept f₂.toKept
  have new₁ : ¬ (w.keep h₁.words K).Knows a₁ := by
    rintro ⟨s, -, low | reach⟩
    · exact UInt32.not_lt.2 f₁.high low
    · exact f₁.unreached reach
  have new₂ : ∀ x, (w.keep h₁.words K).Knows x → w.image x ≠ a₂ := by
    rintro x ⟨s, role, low | reach⟩ rfl
    · exact UInt32.not_lt.2 f₂.high ((m.low x low).symm ▸ low)
    · exact f₂.unreached (m.reaches known reach).2
  have fits' : n.Fits (w.keep h₁.words K).role r :=
    fits.mono (fun s x mem role => ⟨role, (inside x mem).1⟩) fun x role => m.ne_noAddr ⟨_, role⟩
  have apart : ∀ x, x ∈ K ∨ x < bottom → x ≠ a₁ := by
    rintro x live rfl
    rcases live with mem | low
    · obtain ⟨s, role⟩ := known x mem
      exact new₁ ⟨s, kept.role x s (.inl mem) role⟩
    · exact UInt32.not_lt.2 f₁.high low
  have admits : (w.keep h₁.words K).Admits a₁ r n :=
    ⟨fits', fun low => absurd low (UInt32.not_lt.2 f₁.high), fun frame c mem => (inside c mem).2 frame⟩
  refine ⟨_, m'.add new₁ new₂ f₁.high f₂.high s₁ s₂ admits, ⟨?_, ?_, ?_⟩, .inr ⟨rfl, rfl⟩,
    image_add_self _ _ _ _, ?_⟩
  · exact fun x s live role => .inl (kept.role x s live role)
  · exact fun x live => image_add_of_ne (w := w.keep h₁.words K) (apart x live)
  · exact fun x mem recent => recent.resolve_right (apart x (.inl mem))
  · rintro x ⟨s, role | ⟨rfl, -⟩⟩ old
    · obtain ⟨old, ne⟩ := not_or.1 old
      exact ⟨⟨s, role.1⟩, old, image_add_of_ne (w := w.keep h₁.words K) ne, role.2⟩
    · exact absurd (.inr rfl) old

end Mirror

end FiberVm
