import ChargingPile.Lib.Table
import ChargingPile.Serializer.Graph
import Mathlib.Data.List.Nodup
import Mathlib.Data.List.Perm.Subperm

/-!
# Serializing an object graph terminates

A `Graph` is a value with the objects that it reaches through pointers. What `build` writes for a
value is a list of items, bytes and pointers (`buildWith_eq`), and over such lists each pointer to
an object that was not met takes one unit of fuel (`total`), so that fuel for each object is
enough. Meanwhile a body may be on its way: its object is open, it is in the tables, and not all
that it points to is.
-/

namespace ChargingPile

namespace Graph

variable {N : Type}

/-- What `build` writes: bytes, or a pointer to an object of type `n`. -/
inductive Item (N : Type)
  | bytes (l : List UInt8)
  | ptr (n : N) (a : Addr)

namespace PTy

/-- What `build` writes for a value, in order. -/
def items {k : Kind} {α : Type} : PTy N k α → α → List (Item N)
  | .plain t, a => [.bytes (ChargingPile.Serializer.build t a)]
  | .shared n, a => [.ptr n a]
  | .weak n, a => [.ptr n a]
  | .nil, _ => []
  | .field t ts, (a, b) => items t a ++ items ts b
  | .aggregate tie _ ts, a => items ts (tie a)
  | .cont t, l => .bytes (ChargingPile.Serializer.buildSize l.length) :: l.flatMap (items t)
  | .optional _, none => [.bytes (Scalar.bool.write false)]
  | .optional t, some a => .bytes (Scalar.bool.write true) :: items t a
  | .map _ key mapped, m => .bytes (ChargingPile.Serializer.buildSize m.entries.length) ::
      m.entries.flatMap fun e => .bytes (ChargingPile.Serializer.build key e.1) :: items mapped e.2

/-- All containers have at most 65535 elements. -/
def Fits {k : Kind} {α : Type} : PTy N k α → α → Prop
  | .plain t, a => t.Fits a
  | .shared _, _ => True
  | .weak _, _ => True
  | .nil, _ => True
  | .field t ts, (a, b) => Fits t a ∧ Fits ts b
  | .aggregate tie _ ts, a => Fits ts (tie a)
  | .cont t, l => l.length ≤ 65535 ∧ ∀ a ∈ l, Fits t a
  | .optional t, o => ∀ a ∈ o, Fits t a
  | .map _ key mapped, m =>
    m.entries.length ≤ 65535 ∧ ∀ e ∈ m.entries, key.Fits e.1 ∧ Fits mapped e.2

end PTy

variable {S : Schema N}

/-- The objects that are reached from a value: those it points to, and those that their
bodies point to. -/
inductive Reach (H : Heap S) {α : Type} (t : PTy N .value α) (root : α) : N → Addr → Prop
  | root {n : N} {a : Addr} (hitem : .ptr n a ∈ t.items root) (ha : a ≠ 0) : Reach H t root n a
  | body {n m : N} {a b : Addr} {v : S.Body n} (ha : Reach H t root n a) (hv : H n a = some v)
      (hitem : .ptr m b ∈ (S.ty n).items v) (hb : b ≠ 0) : Reach H t root m b

end Graph

open ChargingPile.Graph

/-- A value with the graph of objects that it reaches. The objects are alive, no two of them have
the same address, and there are finitely many. -/
structure Graph {N : Type} (S : Schema N) (α : Type) where
  ty : PTy N .value α
  root : α
  heap : Heap S
  nodes : List Addr
  alive : ∀ n a, Reach heap ty root n a → (heap n a).isSome
  distinct : ∀ n m a, Reach heap ty root n a → Reach heap ty root m a → n = m
  finite : ∀ n a, Reach heap ty root n a → a ∈ nodes

namespace Graph

variable {N : Type} {S : Schema N} {α : Type}

/-- An object of the graph. -/
def Reachable (G : Graph S α) (n : N) (a : Addr) : Prop := Reach G.heap G.ty G.root n a

/-- No container in the graph has more than 65535 elements. -/
def Fits (G : Graph S α) : Prop :=
  G.ty.Fits G.root ∧ ∀ n a v, G.Reachable n a → G.heap n a = some v → (S.ty n).Fits v

/-- A new serializer builds the value. -/
def serialize (G : Graph S α) (fuel : Nat) : Option Serializer :=
  Serializer.buildWith (Serializer.buildPtr G.heap fuel) G.ty G.root {}

/-! ## Items -/

section
variable {node : N → Addr → Serializer → Option Serializer}

/-- `build` of an item. -/
def Item.build (node : N → Addr → Serializer → Option Serializer) (s : Serializer) :
    Item N → Option Serializer
  | .bytes l => some (s.write l)
  | .ptr n a => node n a s

theorem foldlM_flatMap {δ : Type} (items : δ → List (Item N)) (l : List δ) (s : Serializer) :
    (l.flatMap items).foldlM (Item.build node) s =
      l.foldlM (fun s a => (items a).foldlM (Item.build node) s) s := by
  induction l generalizing s with
  | nil => rfl
  | cons a l ih =>
    rw [List.flatMap_cons, List.foldlM_append, List.foldlM_cons]
    exact bind_congr ih

/-- A value is built item by item. -/
theorem buildWith_eq {k : Kind} {β : Type} (t : PTy N k β) (v : β) (s : Serializer) :
    Serializer.buildWith node t v s = (t.items v).foldlM (Item.build node) s := by
  induction t generalizing s with
  | plain t => rfl
  | shared n => exact (bind_pure (node n v s)).symm
  | weak n => exact (bind_pure (node n v s)).symm
  | nil => rfl
  | field t ts ih ihs =>
    obtain ⟨a, b⟩ := v
    rw [Serializer.buildWith, PTy.items, List.foldlM_append, ih]
    exact bind_congr (ihs b)
  | aggregate tie init ts ih => exact ih (tie v) s
  | cont t ih =>
    rw [Serializer.buildWith, PTy.items, List.foldlM_cons, Item.build]
    simp only [ih]
    exact (foldlM_flatMap t.items v _).symm
  | optional t ih =>
    cases v with
    | none => rfl
    | some a =>
      rw [Serializer.buildWith, PTy.items, List.foldlM_cons, Item.build, ih]
      rfl
  | map c key mapped ih =>
    rw [Serializer.buildWith, PTy.items, List.foldlM_cons, Item.build]
    simp only [ih]
    exact (foldlM_flatMap
      (fun e => .bytes (ChargingPile.Serializer.build key e.1) :: mapped.items e.2) v.entries
      _).symm

end

/-! ## Termination -/

/-- The tables of the serializer: the objects that it has met are numbered in order. -/
structure Tables (s : Serializer) : Prop where
  nodup : s.bodies.Nodup
  null_notMem : 0 ∉ s.bodies
  next : s.next = UInt8.ofNat (s.bodies.length + 1)
  stored : ∀ (a : Addr) (idx : UInt8), s.storedPtr[a]? = some idx ↔
    a = 0 ∧ idx = 0 ∨ ∃ i, s.bodies[i]? = some a ∧ idx = UInt8.ofNat (i + 1)

theorem Tables.write {s : Serializer} (h : Tables s) (l : List UInt8) : Tables (s.write l) :=
  ⟨h.nodup, h.null_notMem, h.next, h.stored⟩

theorem getElem?_concat {β : Type} {l : List β} {x y : β} {i : Nat} :
    (l ++ [x])[i]? = some y ↔ l[i]? = some y ∨ i = l.length ∧ y = x := by
  rcases Nat.lt_trichotomy i l.length with hlt | rfl | hgt
  · simp [List.getElem?_append_left hlt, Nat.ne_of_lt hlt]
  · simp [eq_comm]
  · simp [List.getElem?_append_right (Nat.le_of_lt hgt), List.getElem?_eq_none (Nat.le_of_lt hgt),
      Nat.ne_of_gt hgt, Nat.sub_ne_zero_of_lt hgt]

theorem Tables.initial : Tables {} where
  nodup := List.nodup_nil
  null_notMem := List.not_mem_nil
  next := rfl
  stored a idx := by
    rw [Table.getElem?_assign]
    simp

/-- An object that is not in the table is not null, and was not met. -/
theorem Tables.of_none {s : Serializer} (h : Tables s) {a : Addr} (ha : s.storedPtr[a]? = none) :
    a ≠ 0 ∧ a ∉ s.bodies := by
  constructor
  · rintro rfl
    cases ha.symm.trans ((h.stored 0 0).2 (.inl ⟨rfl, rfl⟩))
  · intro hmem
    obtain ⟨i, hi⟩ := List.getElem?_of_mem hmem
    cases ha.symm.trans ((h.stored a _).2 (.inr ⟨i, hi, rfl⟩))

/-- An object in the table is null, or was met. -/
theorem Tables.known {s : Serializer} (h : Tables s) {a : Addr} {idx : UInt8}
    (ha : s.storedPtr[a]? = some idx) : a = 0 ∨ a ∈ s.bodies := by
  rcases (h.stored a idx).1 ha with ⟨rfl, -⟩ | ⟨i, hi, -⟩
  · exact .inl rfl
  · exact .inr (List.mem_of_getElem? hi)

theorem Tables.enter {s : Serializer} (h : Tables s) {a : Addr} (ha : s.storedPtr[a]? = none) :
    Tables (s.enter a) := by
  obtain ⟨hne, hnot⟩ := h.of_none ha
  refine ⟨?_, ?_, ?_, ?_⟩
  · rw [Serializer.enter, ← List.concat_eq_append]
    exact List.Nodup.concat hnot h.nodup
  · intro hmem
    rcases List.mem_append.1 hmem with hmem | hmem
    · exact h.null_notMem hmem
    · exact hne (List.mem_singleton.1 hmem).symm
  · simp [Serializer.enter, h.next]
  · intro b idx
    simp only [Serializer.enter, Table.getElem?_assign, getElem?_concat, h.stored, h.next]
    constructor
    · rintro (⟨rfl, rfl⟩ | ⟨-, hnull | ⟨i, hi, rfl⟩⟩)
      · exact .inr ⟨_, .inr ⟨rfl, rfl⟩, rfl⟩
      · exact .inl hnull
      · exact .inr ⟨i, .inl hi, rfl⟩
    · rintro (⟨rfl, rfl⟩ | ⟨i, hi | ⟨rfl, rfl⟩, rfl⟩)
      · exact .inr ⟨hne.symm, .inl ⟨rfl, rfl⟩⟩
      · refine .inr ⟨?_, .inr ⟨i, hi, rfl⟩⟩
        rintro rfl
        exact hnot (List.mem_of_getElem? hi)
      · exact .inl ⟨rfl, rfl⟩

/-- The tables hold objects of the graph. -/
structure Inside (G : Graph S α) (s : Serializer) : Prop extends Tables s where
  reachable : ∀ a ∈ s.bodies, ∃ n, G.Reachable n a

namespace Inside

variable {G : Graph S α} {s : Serializer}

theorem write (h : Inside G s) (l : List UInt8) : Inside G (s.write l) :=
  ⟨h.toTables.write l, h.reachable⟩

/-- The objects in the tables are at most as many as the graph has. -/
theorem length_le (h : Inside G s) : s.bodies.length ≤ G.nodes.length := by
  refine (List.subperm_of_subset h.nodup ?_).length_le
  intro a ha
  obtain ⟨n, hn⟩ := h.reachable a ha
  exact G.finite n a hn

theorem enter (h : Inside G s) {n : N} {a : Addr} (hreach : G.Reachable n a)
    (ha : s.storedPtr[a]? = none) : Inside G (s.enter a) where
  toTables := h.toTables.enter ha
  reachable b hb := by
    rcases List.mem_append.1 hb with hb | hb
    · exact h.reachable b hb
    · rw [List.mem_singleton.1 hb]
      exact ⟨n, hreach⟩

end Inside

/-- Moreover the bodies that were written, except those of `opn` that are on their way, point to
objects in the tables only. -/
structure Covered (G : Graph S α) (opn : List Addr) (s : Serializer) :
    Prop extends Inside G s where
  closed : ∀ a ∈ s.bodies, a ∉ opn → ∀ n v, G.Reachable n a → G.heap n a = some v →
    ∀ m b, .ptr m b ∈ (S.ty n).items v → b = 0 ∨ b ∈ s.bodies

namespace Covered

variable {G : Graph S α} {opn : List Addr} {s : Serializer}

theorem initial : Covered G opn {} where
  toTables := .initial
  reachable := List.forall_mem_nil _
  closed := List.forall_mem_nil _

theorem write (h : Covered G opn s) (l : List UInt8) : Covered G opn (s.write l) :=
  ⟨h.toInside.write l, h.closed⟩

/-- An object that comes in is open. -/
theorem enter (h : Covered G opn s) {n : N} {a : Addr} (hreach : G.Reachable n a)
    (ha : s.storedPtr[a]? = none) : Covered G (a :: opn) (s.enter a) where
  toInside := h.toInside.enter hreach ha
  closed b hb hopn m v hm hv m' c hitem := by
    rw [List.mem_cons, not_or] at hopn
    rcases List.mem_append.1 hb with hb | hb
    · exact (h.closed b hb hopn.2 m v hm hv m' c hitem).imp_right (List.mem_append_left _)
    · exact absurd (List.mem_singleton.1 hb) hopn.1

/-- An object is not open any more when all that its body points to is in the tables. -/
theorem leave {n : N} {a : Addr} {v : S.Body n} (h : Covered G (a :: opn) s)
    (hreach : G.Reachable n a) (hv : G.heap n a = some v)
    (hitems : ∀ m b, .ptr m b ∈ (S.ty n).items v → b = 0 ∨ b ∈ s.bodies) : Covered G opn s where
  toInside := h.toInside
  closed b hb hopn m w hm hw := by
    rcases eq_or_ne b a with rfl | hne
    · obtain rfl := G.distinct m n b hm hreach
      obtain rfl := Option.some.inj (hv.symm.trans hw)
      exact hitems
    · exact h.closed b hb (List.not_mem_cons_of_ne_of_not_mem hne hopn) m w hm hw

end Covered

/-- What was built keeps the tables in order, and adds to them. -/
structure Built (G : Graph S α) (opn : List Addr) (s s' : Serializer) : Prop where
  covered : Covered G opn s'
  grows : s.bodies <+: s'.bodies

/-- A list of items is built if pointers are, with fuel for the objects that are not in the tables
yet, and more fuel makes no difference. What the items point to is in the tables then. -/
theorem total_items {G : Graph S α} {opn : List Addr} {fuel : Nat}
    (ih : ∀ n a s, (a = 0 ∨ G.Reachable n a) → Covered G opn s →
      G.nodes.length ≤ s.bodies.length + fuel →
      ∃ s', (∀ more, Serializer.buildPtr G.heap (fuel + more) n a s = some s') ∧
        Built G opn s s' ∧ (a = 0 ∨ a ∈ s'.bodies))
    (items : List (Item N)) {s : Serializer}
    (hitems : ∀ n a, .ptr n a ∈ items → a = 0 ∨ G.Reachable n a) (hs : Covered G opn s)
    (hfuel : G.nodes.length ≤ s.bodies.length + fuel) :
    ∃ s',
      (∀ more, items.foldlM (Item.build (Serializer.buildPtr G.heap (fuel + more))) s = some s') ∧
      Built G opn s s' ∧ ∀ n a, .ptr n a ∈ items → a = 0 ∨ a ∈ s'.bodies := by
  induction items generalizing s with
  | nil => exact ⟨s, fun _ => rfl, ⟨hs, List.prefix_rfl⟩, fun _ _ h => by cases h⟩
  | cons item items ihs =>
    obtain ⟨s₁, hrun, hbuilt, hitem⟩ : ∃ s₁,
        (∀ more, item.build (Serializer.buildPtr G.heap (fuel + more)) s = some s₁) ∧
        Built G opn s s₁ ∧ ∀ n a, .ptr n a = item → a = 0 ∨ a ∈ s₁.bodies := by
      cases item with
      | bytes l =>
        exact ⟨s.write l, fun _ => rfl, ⟨hs.write l, List.prefix_rfl⟩, fun _ _ h => by cases h⟩
      | ptr n a =>
        obtain ⟨s₁, hrun, hbuilt, ha⟩ := ih n a s (hitems n a List.mem_cons_self) hs hfuel
        refine ⟨s₁, hrun, hbuilt, ?_⟩
        rintro n' a' ⟨⟩
        exact ha
    have hfuel₁ : G.nodes.length ≤ s₁.bodies.length + fuel :=
      Nat.le_trans hfuel (Nat.add_le_add_right hbuilt.grows.length_le fuel)
    obtain ⟨s₂, hrun₂, hbuilt₂, hitems₂⟩ := ihs
      (fun n a h => hitems n a (List.mem_cons_of_mem _ h)) hbuilt.covered hfuel₁
    refine ⟨s₂, ?_, ⟨hbuilt₂.covered, hbuilt.grows.trans hbuilt₂.grows⟩, ?_⟩
    · intro more
      rw [List.foldlM_cons, hrun more]
      exact hrun₂ more
    · intro n a h
      rcases List.mem_cons.1 h with h | h
      · exact (hitem n a h).imp_right fun ha => hbuilt₂.grows.subset ha
      · exact hitems₂ n a h

theorem buildPtr_known {H : Heap S} {a : Addr} {s : Serializer} {idx : UInt8}
    (h : s.storedPtr[a]? = some idx) (fuel : Nat) (n : N) :
    Serializer.buildPtr H fuel n a s = some (s.write (Scalar.uint8.write idx)) := by
  cases fuel with
  | zero => rw [Serializer.buildPtr, Serializer.pointer, h]
  | succ fuel => rw [Serializer.buildPtr, Serializer.pointer, h]

theorem buildPtr_new {H : Heap S} {n : N} {a : Addr} {v : S.Body n} {s : Serializer}
    (h : s.storedPtr[a]? = none) (hv : H n a = some v) (fuel : Nat) :
    Serializer.buildPtr H (fuel + 1) n a s =
      Serializer.buildWith (Serializer.buildPtr H fuel) (S.ty n) v (s.enter a) := by
  rw [Serializer.buildPtr, Serializer.pointer, h]
  simp only [hv]
  rfl

theorem total_known {G : Graph S α} {opn : List Addr} {a : Addr} {s : Serializer} {idx : UInt8}
    (hs : Covered G opn s) (h : s.storedPtr[a]? = some idx) (fuel : Nat) (n : N) :
    ∃ s', (∀ more, Serializer.buildPtr G.heap (fuel + more) n a s = some s') ∧
      Built G opn s s' ∧ (a = 0 ∨ a ∈ s'.bodies) :=
  ⟨_, fun _ => buildPtr_known h _ n, ⟨hs.write _, List.prefix_rfl⟩, hs.known h⟩

/-- A pointer is built with fuel for the objects that are not in the tables yet. -/
theorem total (G : Graph S α) (fuel : Nat) (opn : List Addr) (n : N) (a : Addr) (s : Serializer)
    (ha : a = 0 ∨ G.Reachable n a) (hs : Covered G opn s)
    (hfuel : G.nodes.length ≤ s.bodies.length + fuel) :
    ∃ s', (∀ more, Serializer.buildPtr G.heap (fuel + more) n a s = some s') ∧
      Built G opn s s' ∧ (a = 0 ∨ a ∈ s'.bodies) := by
  induction fuel generalizing opn n a s with
  | zero =>
    cases hidx : s.storedPtr[a]? with
    | some idx => exact total_known hs hidx _ n
    | none =>
      -- the object that comes in is one more than the graph has
      have hreach := ha.resolve_left (hs.of_none hidx).1
      have hle := (hs.enter hreach hidx).length_le
      simp only [Serializer.enter, List.length_append, List.length_singleton] at hle
      omega
  | succ fuel ih =>
    cases hidx : s.storedPtr[a]? with
    | some idx => exact total_known hs hidx _ n
    | none =>
      have hreach := ha.resolve_left (hs.of_none hidx).1
      obtain ⟨v, hv⟩ := Option.isSome_iff_exists.1 (G.alive n a hreach)
      have hlen : (s.enter a).bodies.length = s.bodies.length + 1 := List.length_append
      obtain ⟨s', hrun, hbuilt, hitems⟩ := total_items (ih (a :: opn)) ((S.ty n).items v)
        (fun m b hitem => Classical.or_iff_not_imp_left.2 fun hb => .body hreach hv hitem hb)
        (hs.enter hreach hidx) (by omega)
      refine ⟨s', ?_, ⟨hbuilt.covered.leave hreach hv hitems, ?_⟩, ?_⟩
      · intro more
        rw [Nat.add_right_comm, buildPtr_new hidx hv, buildWith_eq]
        exact hrun more
      · exact (List.prefix_append s.bodies [a]).trans hbuilt.grows
      · exact .inr (hbuilt.grows.subset (List.mem_append_right _ List.mem_cons_self))

end Graph

end ChargingPile
