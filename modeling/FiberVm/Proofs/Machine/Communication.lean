import FiberVm.Machine.Sync
import FiberVm.Proofs.Machine.Operators

/-!
# Channels and wait groups on two machines

Channels, their queues and wait groups hold the same lists on both sides, up to the renaming, so a send
or a receive finds the same partner, the same room and the same values. Ids of fibers are not renamed.
-/

set_option autoImplicit false

namespace FiberVm

open Heap (Shows Updates)

section

variable {q : Terms} {w : World} {m₁ m₂ : Machine} {a ch v : Addr} {r : Role} {n n' : Node}

/-- Only a literal, a builtin, their frame or the environment around it can be reserved. -/
theorem World.Admits.high (admits : w.Admits a r n) (free : ¬ n.IsReserved) : Heap.bottom ≤ a :=
  UInt32.not_lt.1 fun low => free (admits.low low).1

/-- A node that is neither reserved nor a frame may hold whatever fits. -/
theorem World.Admits.replace (admits : w.Admits a r n) (free : ¬ n.IsReserved) (fits : n'.Fits w.role r)
    (kind : r ≠ .frame) : w.Admits a r n' :=
  ⟨fits, fun low => absurd low (UInt32.not_lt.2 (admits.high free)), fun e => absurd e kind⟩

theorem Sim.update {α₁ α₂ : Type} {op₁ : HeapM α₁} {op₂ : HeapM α₂} {k₁ : α₁ → Exec Unit}
    {k₂ : α₂ → Exec Unit} {a₁ : α₁} {a₂ : α₂} (alike : m₁.Alike q w m₂) (role : w.role a r)
    (admits : w.Admits a r n) (blind₁ : Heap.Blind op₁) (blind₂ : Heap.Blind op₂)
    (run₁ : ∃ h₁, op₁ m₁.heap = .ok a₁ h₁ ∧ Updates m₁.heap h₁ a n)
    (run₂ : ∃ h₂, op₂ m₂.heap = .ok a₂ h₂ ∧ Updates m₂.heap h₂ (w.image a) (n.map w.image))
    (rest : ∀ h₁ h₂, Updates m₁.heap h₁ a n → Updates m₂.heap h₂ (w.image a) (n.map w.image) →
      Machine.Alike q w { m₁ with heap := h₁ } { m₂ with heap := h₂ } →
      Sim q w (k₁ a₁) (k₂ a₂) { m₁ with heap := h₁ } { m₂ with heap := h₂ }) :
    Sim q w (Exec.onHeap op₁ >>= k₁) (Exec.onHeap op₂ >>= k₂) m₁ m₂ := by
  obtain ⟨h₁, run₁, u₁⟩ := run₁
  obtain ⟨h₂, run₂, u₂⟩ := run₂
  have mirror := alike.heap.update role u₁ u₂ admits
  exact .write blind₁ blind₂ run₁ run₂ u₁.pinned
    (rest h₁ h₂ u₁ u₂ (alike.withHeap mirror u₁.pinned u₂.pinned))

theorem Sim.expectTag {x₁ x₂ : Addr} {want : Tag} {what : String} {k₁ k₂ : Unit → Exec Unit}
    {ρ : Addr → Addr} (alike : m₁.Alike q w m₂) (s₁ : Shows m₁.heap.words x₁ n)
    (s₂ : Shows m₂.heap.words x₂ (n.map ρ))
    (rest : n.tag = want → Sim q w (k₁ ()) (k₂ ()) m₁ m₂) :
    Sim q w (Exec.expectTag x₁ want what >>= k₁) (Exec.expectTag x₂ want what >>= k₂) m₁ m₂ := by
  simp only [Exec.expectTag, bind_assoc]
  refine .tagOf s₁ s₂ ?_
  by_cases same : n.tag = want
  · rw [if_pos same]
    exact .step (.pure _) (.pure _) rfl rfl rfl (rest same)
  · rw [if_neg same]
    exact .fails alike (.fault _) (.fault _) rfl rfl rfl

theorem Sim.wake {id : Int} (alike : m₁.Alike q w m₂) (value : v = noAddr ∨ IsValue w.role v) :
    Sim q w (Exec.wake id v) (Exec.wake id (w.image v)) m₁ m₂ := by
  have none : w.image v = noAddr ↔ v = noAddr := by
    refine ⟨fun e => ?_, fun e => e ▸ alike.heap.none⟩
    rcases value with none | value
    · exact none
    · exact absurd e (alike.heap.present value.knows)
  unfold Exec.wake
  refine .asks ?_
  rw [alike.control.sched, Scheduler.isLive_rename]
  by_cases live : 0 ≤ id ∧ m₁.control.sched.isLive id.toNat = Bool.true
  · rw [if_pos live, if_pos live]
    refine .last (.modifySched alike ?_ ?_ .pure)
    · by_cases absent : v = noAddr
      · rw [if_pos absent, if_pos (none.2 absent), Scheduler.wake_rename]
      · rw [if_neg absent, if_neg (fun e => absent (none.1 e)), Scheduler.deliver_rename,
          Scheduler.wake_rename]
    · by_cases absent : v = noAddr
      · rw [if_pos absent]
        exact alike.control.fit.wake id.toNat
      · rw [if_neg absent]
        exact (alike.control.fit.deliver (value.resolve_left absent) id.toNat).wake id.toNat
  · rw [if_neg live, if_neg live]
    exact .raise alike rfl

theorem Sim.wakeOnly {id : Int} (alike : m₁.Alike q w m₂) :
    Sim q w (Exec.wake id noAddr) (Exec.wake id noAddr) m₁ m₂ := by
  have sim : Sim q w (Exec.wake id noAddr) (Exec.wake id (w.image noAddr)) m₁ m₂ := .wake alike (.inl rfl)
  rwa [alike.heap.none] at sim

theorem Sim.park (alike : m₁.Alike q w m₂) (running : m₁.control.sched.current.state = .running) :
    Sim q w Exec.park Exec.park m₁ m₂ :=
  .last (.modifySched alike (Scheduler.park_rename _ _)
    (alike.control.fit.stop running m₁.control.sched.timers) .pure)

theorem Node.Fits.role_of_int {D : Typing} {k : Int64} (fits : (Node.int k).Fits D r) : r = .int := by
  cases r with
  | int => rfl
  | _ => exact fits.elim

theorem Node.Fits.role_of_channel {D : Typing} {cap : Nat} {closed : Bool} {s t : Addr} {items : List Addr}
    (fits : (Node.channel cap closed s t items).Fits D r) : r = .value := by
  cases r with
  | value => rfl
  | _ => exact fits.elim

theorem Node.Fits.role_of_group {D : Typing} {k : Int32} {ids : List Word}
    (fits : (Node.group k ids).Fits D r) : r = .value := by
  cases r with
  | value => rfl
  | _ => exact fits.elim

theorem Mirror.queue {h₁ h₂ : Heap} (m : Mirror w h₁ h₂) (role : w.role a r)
    (kind : r = .senders ∨ r = .receivers) :
    ∃ ws, Shows h₁.words a (.queue ws) ∧ w.Admits a r (.queue ws) ∧
      Shows h₂.words (w.image a) ((Node.queue ws).map w.image) := by
  obtain ⟨n, s₁, admits, s₂⟩ := m.nodes a r role
  have fits := admits.fits
  cases n with
  | queue ws => exact ⟨ws, s₁, admits, s₂⟩
  | _ => rcases kind with rfl | rfl <;> exact fits.elim

theorem Sim.dequeue {op₁ op₂ : HeapM Addr} {k₁ k₂ : Option Waiter → Exec Unit} (alike : m₁.Alike q w m₂)
    (role : w.role a r) (kind : r = .senders ∨ r = .receivers) (blind₁ : Heap.Blind op₁)
    (blind₂ : Heap.Blind op₂) (run₁ : op₁ m₁.heap = .ok a m₁.heap)
    (run₂ : op₂ m₂.heap = .ok (w.image a) m₂.heap)
    (empty : Shows m₁.heap.words a (.queue []) → Sim q w (k₁ none) (k₂ none) m₁ m₂)
    (some : ∀ x h₁ h₂, (r = .senders → w.role x.value .int) → (∀ b n, b ≠ a → Shows m₁.heap.words b n →
        Shows h₁.words b n) → (∀ b n, b ≠ w.image a → Shows m₂.heap.words b n → Shows h₂.words b n) →
      Machine.Alike q w { m₁ with heap := h₁ } { m₂ with heap := h₂ } →
      Sim q w (k₁ (some x)) (k₂ (some ⟨x.fiber, w.image x.value⟩)) { m₁ with heap := h₁ }
        { m₂ with heap := h₂ }) :
    Sim q w (Exec.onHeap (do Heap.dequeue (← op₁)) >>= k₁) (Exec.onHeap (do Heap.dequeue (← op₂)) >>= k₂)
      m₁ m₂ := by
  obtain ⟨ws, s₁, admits, s₂⟩ := alike.heap.queue role kind
  have b₁ := blind₁.bind fun a => Heap.Blind.dequeue a
  have b₂ := blind₂.bind fun a => Heap.Blind.dequeue a
  have fits := admits.fits
  cases ws with
  | nil =>
    have r₁ := (bind_of_ok run₁).trans (Heap.dequeue_nil s₁)
    have r₂ := (bind_of_ok run₂).trans (Heap.dequeue_nil s₂)
    exact .read b₁ b₂ r₁ r₂ (empty s₁)
  | cons x ws =>
    obtain ⟨h₁, d₁, u₁⟩ := Heap.dequeue_cons s₁
    obtain ⟨h₂, d₂, u₂⟩ := Heap.dequeue_cons s₂
    have fits' : (Node.queue ws).Fits w.role r := by
      rcases kind with rfl | rfl
      · exact fun y mem => fits y (List.mem_cons_of_mem x mem)
      · exact fun y mem => fits y (List.mem_cons_of_mem x mem)
    have notFrame : r ≠ .frame := by rcases kind with rfl | rfl <;> simp
    refine .update alike role (admits.replace (fun h => h) fits' notFrame) b₁ b₂
      ⟨h₁, (bind_of_ok run₁).trans d₁, u₁⟩ ⟨h₂, (bind_of_ok run₂).trans d₂, u₂⟩ fun h₁ h₂ u₁ u₂ alike => ?_
    refine some x h₁ h₂ ?_ (fun b n ne shows => u₁.toOnly.shows ne shows)
      (fun b n ne shows => u₂.toOnly.shows ne shows) alike
    rintro rfl
    exact fits x List.mem_cons_self

theorem Sim.enqueue {op₁ op₂ : HeapM Addr} (alike : m₁.Alike q w m₂)
    (running : m₁.control.sched.current.state = .running)
    (kind : r = .senders ∧ w.role v .int ∨ r = .receivers ∧ v = noAddr) (role : w.role a r)
    (blind₁ : Heap.Blind op₁) (blind₂ : Heap.Blind op₂) (run₁ : op₁ m₁.heap = .ok a m₁.heap)
    (run₂ : op₂ m₂.heap = .ok (w.image a) m₂.heap) (id : Nat) :
    Sim q w (do Exec.onHeap (do Heap.enqueue (← op₁) ⟨id, v⟩); Exec.park)
      (do Exec.onHeap (do Heap.enqueue (← op₂) ⟨id, w.image v⟩); Exec.park) m₁ m₂ := by
  obtain ⟨ws, s₁, admits, s₂⟩ := alike.heap.queue role (kind.imp And.left And.left)
  have b₁ := blind₁.bind fun a => Heap.Blind.enqueue a ⟨id, v⟩
  have b₂ := blind₂.bind fun a => Heap.Blind.enqueue a ⟨id, w.image v⟩
  have fits := admits.fits
  have first := bind_of_ok (f := fun a => Heap.enqueue a ⟨id, v⟩) run₁
  have second := bind_of_ok (f := fun a => Heap.enqueue a ⟨id, w.image v⟩) run₂
  by_cases full : ws.length = 15
  · have r₁ := first.trans (Heap.enqueue_full s₁ full ⟨id, v⟩)
    have r₂ := second.trans (Heap.enqueue_full s₂ (by simpa using full) ⟨id, w.image v⟩)
    exact .refuse alike b₁ b₂ r₁ r₂ rfl
  · obtain ⟨h₁, e₁, u₁⟩ := Heap.enqueue_shows s₁ full ⟨id, v⟩
    obtain ⟨h₂, e₂, u₂⟩ := Heap.enqueue_shows s₂ (by simpa using full) ⟨id, w.image v⟩
    have mapped : (Node.queue (ws ++ [⟨id.toUInt32.toNat, v⟩])).map w.image =
        .queue (ws.map (fun x => { x with value := w.image x.value }) ++
          [⟨id.toUInt32.toNat, w.image v⟩]) := by
      simp [Node.map]
    have fits' : (Node.queue (ws ++ [⟨id.toUInt32.toNat, v⟩])).Fits w.role r := by
      rcases kind with ⟨rfl, int⟩ | ⟨rfl, none⟩
      · intro y mem
        rcases List.mem_append.1 mem with mem | mem
        · exact fits y mem
        · exact List.mem_singleton.1 mem ▸ int
      · intro y mem
        rcases List.mem_append.1 mem with mem | mem
        · exact fits y mem
        · exact List.mem_singleton.1 mem ▸ none
    have notFrame : r ≠ .frame := by rcases kind with ⟨rfl, -⟩ | ⟨rfl, -⟩ <;> simp
    refine .update alike role (admits.replace (fun h => h) fits' notFrame) b₁ b₂
      ⟨h₁, first.trans e₁, u₁⟩ ⟨h₂, second.trans e₂, mapped ▸ u₂⟩
      fun h₁ h₂ u₁ u₂ alike => ?_
    exact .park alike running

theorem Sim.chanPush {cap : Nat} {closed : Bool} {s t : Addr} {items : List Addr} {k₁ k₂ : Unit → Exec Unit}
    (alike : m₁.Alike q w m₂) (role : w.role ch .value)
    (admits : w.Admits ch .value (.channel cap closed s t items)) (int : w.role v .int)
    (s₁ : Shows m₁.heap.words ch (.channel cap closed s t items))
    (s₂ : Shows m₂.heap.words (w.image ch) ((Node.channel cap closed s t items).map w.image))
    (space : items.length < cap)
    (rest : ∀ h₁ h₂, Machine.Alike q w { m₁ with heap := h₁ } { m₂ with heap := h₂ } →
      Sim q w (k₁ ()) (k₂ ()) { m₁ with heap := h₁ } { m₂ with heap := h₂ }) :
    Sim q w (Exec.onHeap (Heap.chanPush ch v) >>= k₁)
      (Exec.onHeap (Heap.chanPush (w.image ch) (w.image v)) >>= k₂) m₁ m₂ := by
  obtain ⟨sends, receives, ints⟩ := admits.fits
  have fits : (Node.channel cap closed s t (items ++ [v])).Fits w.role .value := by
    refine ⟨sends, receives, fun i mem => ?_⟩
    rcases List.mem_append.1 mem with mem | mem
    · exact ints i mem
    · exact List.mem_singleton.1 mem ▸ int
  have mapped : (Node.channel cap closed s t (items ++ [v])).map w.image =
      .channel cap closed (w.image s) (w.image t) (items.map w.image ++ [w.image v]) := by
    simp [Node.map]
  have run₂ := Heap.chanPush_shows s₂ (by simpa using space) (w.image v)
  rw [← mapped] at run₂
  exact .update alike role (admits.replace (fun h => h) fits (by simp)) (.chanPush _ _) (.chanPush _ _)
    (Heap.chanPush_shows s₁ space v) run₂ fun h₁ h₂ _ _ alike => rest h₁ h₂ alike

theorem Sim.send (alike : m₁.Alike q w m₂) (running : m₁.control.sched.current.state = .running) :
    Sim q w Exec.send Exec.send m₁ m₂ := by
  have alive : m₁.control.sched.current.state ≠ .terminated := by rw [running]; decide
  unfold Exec.send
  refine .peek alike alive fun v _ value => .peek alike alive fun ch _ channel => ?_
  obtain ⟨n, r, role, s₁, admits, s₂⟩ := alike.node channel
  obtain ⟨n', r', role', v₁, admits', v₂⟩ := alike.node value
  refine .expectTag alike s₁ s₂ fun tag => .tagOf v₁ v₂ ?_
  obtain ⟨cap, closed, senders, receivers, items, rfl⟩ := s₁.channel_of_tag tag
  obtain rfl := admits.fits.role_of_channel
  obtain ⟨sends, receives, ints⟩ := admits.fits
  by_cases int : n'.tag ≠ .int
  · rw [if_pos int, if_pos int]
    exact .raise alike rfl
  · rw [if_neg int, if_neg int]
    obtain ⟨k, rfl⟩ := v₁.int_of_tag (Classical.not_not.1 int)
    obtain rfl := admits'.fits.role_of_int
    refine .read (.chanClosed _) (.chanClosed _) (Heap.chanClosed_shows s₁) (Heap.chanClosed_shows s₂) ?_
    cases closed with
    | true => exact .raise alike rfl
    | false =>
      refine .drop alike fun n₂ alike heap => ?_
      rw [← heap] at s₂
      refine .dequeue alike receives (.inr rfl) (Heap.Blind.child _ _) (Heap.Blind.child _ _)
        (Heap.recvQueue_shows s₁) (Heap.recvQueue_shows s₂) (fun _ => ?_) fun x h₁ h₂ _ _ _ alike =>
          .wake alike (.inr (.inl role'))
      refine .read (.chanLen _) (.chanLen _) (Heap.chanLen_shows s₁) (Heap.chanLen_shows s₂) ?_
      refine .read (.chanCap _) (.chanCap _) (Heap.chanCap_shows s₁) (Heap.chanCap_shows s₂) ?_
      rw [List.length_map]
      by_cases space : items.length < cap
      · rw [if_pos space, if_pos space]
        exact .last (.chanPush alike role admits role' s₁ s₂ space fun h₁ h₂ alike => .pure alike)
      · rw [if_neg space, if_neg space]
        refine .asksFiber alike ?_
        exact .enqueue alike running (.inl ⟨rfl, role'⟩) sends (Heap.Blind.child _ _) (Heap.Blind.child _ _)
          (Heap.sendQueue_shows s₁) (Heap.sendQueue_shows s₂) m₁.control.sched.current.id

theorem Sim.recv (alike : m₁.Alike q w m₂) (running : m₁.control.sched.current.state = .running) :
    Sim q w Exec.recv Exec.recv m₁ m₂ := by
  have alive : m₁.control.sched.current.state ≠ .terminated := by rw [running]; decide
  unfold Exec.recv
  refine .peek alike alive fun ch _ channel => ?_
  obtain ⟨n, r, role, s₁, admits, s₂⟩ := alike.node channel
  refine .expectTag alike s₁ s₂ fun tag => ?_
  obtain ⟨cap, closed, senders, receivers, items, rfl⟩ := s₁.channel_of_tag tag
  obtain rfl := admits.fits.role_of_channel
  obtain ⟨sends, receives, ints⟩ := admits.fits
  -- A channel is not its own queue.
  have apart : ch ≠ senders := by
    rintro rfl
    cases alike.heap.unique ch _ _ role sends
  have apart₂ : w.image ch ≠ w.image senders := fun e =>
    apart (alike.heap.injective _ _ _ _ role sends e)
  refine .read (.chanClosed _) (.chanClosed _) (Heap.chanClosed_shows s₁) (Heap.chanClosed_shows s₂) ?_
  cases closed with
  | true => exact .raise alike rfl
  | false =>
    refine .drop alike fun n₂ alike heap => ?_
    rw [← heap] at s₂
    refine .read (.chanLen _) (.chanLen _) (Heap.chanLen_shows s₁) (Heap.chanLen_shows s₂) ?_
    rw [List.length_map]
    cases items with
    | nil =>
      -- The ring is empty: a sender hands over its value directly, or the fiber is parked.
      rw [List.length_nil, if_neg (Nat.lt_irrefl 0), if_neg (Nat.lt_irrefl 0)]
      refine .dequeue alike sends (.inl rfl) (Heap.Blind.child _ _) (Heap.Blind.child _ _)
        (Heap.sendQueue_shows s₁) (Heap.sendQueue_shows s₂) (fun _ => ?_) fun x h₁ h₂ int _ _ alike => ?_
      · refine .asksFiber alike ?_
        have sim := Sim.enqueue (v := noAddr) alike running (.inr ⟨rfl, rfl⟩) receives (Heap.Blind.child _ _)
          (Heap.Blind.child _ _) (Heap.recvQueue_shows s₁) (Heap.recvQueue_shows s₂)
          m₁.control.sched.current.id
        rw [alike.heap.none] at sim
        exact sim
      · exact .push alike (.inl (int rfl)) fun n₂ alike _ => .wakeOnly alike
    | cons x items =>
      rw [List.length_cons, if_pos (Nat.succ_pos _), if_pos (Nat.succ_pos _)]
      have room : items.length + 1 ≤ cap := s₁.body.2.2.2.2.2.room
      have fits : (Node.channel cap Bool.false senders receivers items).Fits w.role .value :=
        ⟨sends, receives, fun i mem => ints i (List.mem_cons_of_mem x mem)⟩
      have admits' := admits.replace (fun h => h) fits nofun
      refine .update alike role admits' (.chanPop _) (.chanPop _) (Heap.chanPop_shows s₁)
        (Heap.chanPop_shows s₂) fun h₁ h₂ u₁ u₂ alike => ?_
      refine .push alike (.inl (ints x List.mem_cons_self)) fun n₂ alike heap => ?_
      -- There is room now for the value of a sender, if one waits.
      have t₁ := u₁.shows
      have t₂ := u₂.shows
      rw [show h₂ = n₂.heap from heap.symm] at t₂
      refine .dequeue alike sends (.inl rfl) (Heap.Blind.child _ _) (Heap.Blind.child _ _)
        (Heap.sendQueue_shows t₁) (Heap.sendQueue_shows t₂) (fun _ => .pure alike)
        fun y h₁ h₂ int same₁ same₂ alike => ?_
      have c₁ := same₁ ch _ apart t₁
      have c₂ := same₂ _ _ apart₂ t₂
      refine .chanPush alike role admits' (int rfl) c₁ c₂ room fun h₁ h₂ alike => ?_
      exact .wakeOnly alike

theorem Sim.closeChan (alike : m₁.Alike q w m₂) (value : IsValue w.role ch) :
    Sim q w (Exec.closeChan ch) (Exec.closeChan (w.image ch)) m₁ m₂ := by
  unfold Exec.closeChan
  obtain ⟨n, r, role, s₁, admits, s₂⟩ := alike.node value
  refine .expectTag alike s₁ s₂ fun tag => ?_
  obtain ⟨cap, closed, senders, receivers, items, rfl⟩ := s₁.channel_of_tag tag
  obtain rfl := admits.fits.role_of_channel
  refine .read (.chanClosed _) (.chanClosed _) (Heap.chanClosed_shows s₁) (Heap.chanClosed_shows s₂) ?_
  cases closed with
  | true => exact .raise alike rfl
  | false =>
    have fits : (Node.channel cap Bool.true senders receivers items).Fits w.role .value := admits.fits
    exact .last (.update alike role (admits.replace (fun h => h) fits (by simp)) (.setField _ _ _) (.setField _ _ _)
      (Heap.closeChan_shows s₁) (Heap.closeChan_shows s₂) fun _ _ _ _ alike => .pure alike)

theorem Sim.wakeAll (ids : List Int) (alike : m₁.Alike q w m₂) :
    Sim q w (ids.forM fun id => Exec.wake id noAddr) (ids.forM fun id => Exec.wake id noAddr) m₁ m₂ := by
  induction ids generalizing w m₁ m₂ with
  | nil => exact .pure alike
  | cons id ids ih =>
    exact .bind alike (.wakeOnly alike) fun _ _ _ _ ends => ih ends.alike

theorem Sim.groupAdd {g : Addr} {delta : Int64} (alike : m₁.Alike q w m₂) (value : IsValue w.role g) :
    Sim q w (Exec.groupAdd g delta) (Exec.groupAdd (w.image g) delta) m₁ m₂ := by
  unfold Exec.groupAdd
  obtain ⟨n, r, role, s₁, admits, s₂⟩ := alike.node value
  refine .expectTag alike s₁ s₂ fun tag => ?_
  obtain ⟨counter, ids, rfl⟩ := s₁.group_of_tag tag
  obtain rfl := admits.fits.role_of_group
  refine .read (.groupCounter _) (.groupCounter _) (Heap.groupCounter_shows s₁) (Heap.groupCounter_shows s₂) ?_
  dsimp only
  generalize counter.toInt64 + delta = n
  by_cases negative : n < 0
  · rw [if_pos negative, if_pos negative]
    exact .raise alike rfl
  · rw [if_neg negative, if_neg negative]
    by_cases large : 2147483647 < n
    · rw [if_pos large, if_pos large]
      exact .raise alike rfl
    · rw [if_neg large, if_neg large]
      refine .update alike role (n := .group n.toInt32 ids) (admits.replace (fun h => h) trivial (by simp))
        (.setWideField _ _) (.setWideField _ _) (Heap.setGroupCounter_shows s₁ _)
        (Heap.setGroupCounter_shows s₂ _) fun h₁ h₂ u₁ u₂ alike => ?_
      by_cases zero : n = 0
      · rw [if_pos zero, if_pos zero]
        refine .update alike role (n := .group n.toInt32 []) (admits.replace (fun h => h) trivial (by simp))
          (.drainGroupWaiters _) (.drainGroupWaiters _) (Heap.drainGroupWaiters_shows u₁.shows)
          (Heap.drainGroupWaiters_shows u₂.shows) fun h₁ h₂ _ _ alike => ?_
        have sim := Sim.wakeAll (ids.map fun id => id.toInt64.toInt) alike
        rw [List.forM_eq_forM, List.forM_map] at sim
        exact sim
      · rw [if_neg zero, if_neg zero]
        exact .pure alike

theorem Sim.groupWait {g : Addr} (alike : m₁.Alike q w m₂)
    (running : m₁.control.sched.current.state = .running) (value : IsValue w.role g) :
    Sim q w (Exec.groupWait g) (Exec.groupWait (w.image g)) m₁ m₂ := by
  unfold Exec.groupWait
  obtain ⟨n, r, role, s₁, admits, s₂⟩ := alike.node value
  refine .expectTag alike s₁ s₂ fun tag => ?_
  obtain ⟨counter, ids, rfl⟩ := s₁.group_of_tag tag
  obtain rfl := admits.fits.role_of_group
  refine .read (.groupCounter _) (.groupCounter _) (Heap.groupCounter_shows s₁) (Heap.groupCounter_shows s₂) ?_
  by_cases zero : counter = 0
  · rw [if_pos zero, if_pos zero]
    exact .pure alike
  · rw [if_neg zero, if_neg zero]
    refine .asksFiber alike ?_
    rw [Fiber.rename_id]
    by_cases full : ids.length = 15
    · exact .refuse alike (.addGroupWaiter _ _) (.addGroupWaiter _ _) (Heap.addGroupWaiter_full s₁ full _)
        (Heap.addGroupWaiter_full s₂ full _) rfl
    · exact .update alike role (n := .group counter (ids ++ [_])) (admits.replace (fun h => h) trivial (by simp))
        (.addGroupWaiter _ _) (.addGroupWaiter _ _) (Heap.addGroupWaiter_shows s₁ full _)
        (Heap.addGroupWaiter_shows s₂ full _) fun _ _ _ _ alike => .park alike running

end

end FiberVm
