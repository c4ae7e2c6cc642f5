import ChargingPile.Json.Assignment

/-!
# Assignment is local

A `Place` is a field of an object or an element of an array, which may have to be made. For any
document, any place in it and any value from a separate document, the place is found, and a move
puts the value there and leaves all other elements, with their names and their order, as they were.
A copy does so too exactly if the element is the last one of its container.
-/

namespace ChargingPile.Json

open Memory Memory.Exec

namespace Forest

/-- The value of the element at an address. -/
def value (a : Addr) (F : Forest) : Option Value := (F.find a).map fun r => r.1.value r.2.1.read

/-- The later siblings of the element at an address. -/
def later (a : Addr) (F : Forest) : Forest := ((F.find a).map fun r => r.2.2).getD nil

end Forest

/-- The element at `a` reads as `v`, and all other elements are those of `F`. -/
def Assigned (m : Memory Item) (F : Forest) (a : Addr) (v : Value) : Prop :=
  ∃ q d, Document m (F.replace a q d (F.later a)) ∧ (F.replace a q d (F.later a)).value a = some v

/-- What the assignments of the element at `b`, which reads as `v`, do to the document with the
element at `a`. -/
structure Assigns (A : Allocator) (fuel : Nat) (m : Memory Item) (F : Forest) (a b : Addr)
    (v : Value) :
    Prop where
  move : ∃ m', (moveNode fuel a b).run m = some ((), m') ∧ Assigned m' F a v
  copy : ∃ m', (copyAssign A fuel a b).run m = some ((), m') ∧
    (Assigned m' F a v ↔ F.later a = .nil)

/-- Where a value is assigned: `self[itemName]`, `self[index]`, or behind the last element of
`self`, where `push_back` moves it. -/
inductive Place
  | field (self : Addr) (itemName : Text)
  | element (self : Addr) (index : Int)
  | back (self : Addr)

namespace Place

/-- The container. -/
def self : Place → Addr
  | field self _ => self
  | element self _ => self
  | back self => self

/-- The type of the container. -/
def type : Place → ItemType
  | field _ _ => .object
  | element _ _ => .array
  | back _ => .array

/-- The name of an element there. -/
def string : Place → Option Text
  | field _ itemName => some itemName
  | element _ _ => none
  | back _ => none

/-- The element that the place has among the children of the container, or null. -/
def existing (L : Forest) : Place → Addr
  | field _ itemName => L.named itemName
  | element _ index => L.nth index.toNat
  | back _ => 0

/-- The element is looked up, and made where the code makes it. -/
def locate (A : Allocator) (fuel : Nat) : Place → Exec Addr
  | field self itemName => getOrCreateItem A fuel self itemName
  | element self index => getElement self index
  | back self => pushNull A fuel self

end Place

/-- The place is in the document: `p` with the children `L` and the later siblings `n` is its
container, and an index is that of an element. -/
structure Place.In (place : Place) (F : Forest) (p : Payload) (L n : Forest) : Prop where
  find : F.find place.self = some (p, L, n)
  type : p.type = place.type
  index : ∀ self i, place = .element self i → place.existing L ≠ 0

/-- The element at the place, and the document with it: the element that is there, or a new one,
which is null and comes last. -/
inductive Place.Located (place : Place) (F : Forest) (p : Payload) (L n : Forest) : Addr → Forest →
    Prop
  | old (h : place.existing L ≠ 0) : Located place F p L n (place.existing L) F
  | new (a : Addr) (h : place.existing L = 0) (ha : a ∉ F.addrs) :
      Located place F p L n a
        (F.replace place.self p (L.append (.cons a place.string {} .nil .nil)) n)

variable {m : Memory Item} {F U : Forest} {a b : Addr} {p : Payload} {n : Forest} {fuel : Nat}

/-! ## Looking up a place -/

/-- A forest is added behind the children of an element. -/
theorem addItemToArray_document {w : Addr} {L D : Forest} (hF : Document m F)
    (hfw : F.find w = some (p, L, n)) (hD : Document m D) (hne : D ≠ .nil)
    (hsep : F.addrs.Disjoint D.addrs) (hfuel : F.addrs.length ≤ fuel) :
    ∃ m', (addItemToArray fuel w D.head).run m = some ((), m') ∧
      Document m' (F.replace w p (L.append D) n) ∧ ∀ x ∉ F.addrs, x ∉ D.addrs →
      m'.get x = m.get x := by
  obtain ⟨s, hs⟩ := hF.of_find hfw
  obtain ⟨hLF, hnF⟩ := Forest.subset_of_find hfw hF.nodup
  obtain ⟨hwL, hwn, hnodupL, -, hLn⟩ := Forest.nodup_cons.1 hs.nodup
  obtain ⟨prev, hget⟩ := get_of_cell hs.rep.2.1
  have hwF := Forest.mem_of_find hfw
  have hnodup : (L.addrs ++ D.addrs).Nodup :=
    List.nodup_append'.2 ⟨hnodupL, hD.nodup, fun x hx => hsep (hLF hx)⟩
  have hwnot : w ∉ L.addrs ++ D.addrs := fun h =>
    (List.mem_append.1 h).elim hwL fun h => hsep hwF h
  have hfuel' : L.addrs.length ≤ fuel :=
    Nat.le_trans (Nat.le_of_lt (Forest.length_lt_of_find hfw hF.nodup)) hfuel
  obtain ⟨m', hrun, hw, hrep, hkept⟩ := attach_run hget rfl hs.child.rep hD.rep hne
    (List.nodup_cons.2 ⟨hwnot, hnodup⟩)
  refine ⟨m', ?_, hF.replace hfw hs ?_ ?_ ⟨hrep, ?_⟩ ?_ ?_ (List.Subset.refl _), ?_⟩
  · rw [addItemToArray_run hget rfl hs.child.rep hfuel']
    exact hrun
  · rw [hw]
    rfl
  · exact fun x hx hxw hxL _ =>
      hkept x (List.not_mem_cons_of_ne_of_not_mem hxw hxL) fun h => hsep hx h
  · rwa [Forest.addrs_append]
  · intro x hx hxF
    rw [Forest.addrs_append, List.mem_append] at hx
    exact hx.resolve_right fun h => hsep hxF h
  · refine hs.next.congr fun x hx => hkept x (List.not_mem_cons_of_ne_of_not_mem ?_ ?_) ?_
    · exact ne_of_mem_of_not_mem hx hwn
    · exact fun h => hLn h hx
    · exact fun h => hsep (hnF hx) h
  · intro x hxF hxD
    refine hkept x (List.not_mem_cons_of_ne_of_not_mem ?_ ?_) hxD
    · exact (ne_of_mem_of_not_mem hwF hxF).symm
    · exact fun h => hxF (hLF h)

theorem getElement_run {w : Addr} {L : Forest} (hF : Document m F)
    (hfw : F.find w = some (p, L, n)) (htype : p.type = .array) {index : Int}
    (hindex : L.nth index.toNat ≠ 0) :
    (getElement w index).run m = some (L.nth index.toNat, m) := by
  obtain ⟨s, hs⟩ := hF.of_find hfw
  obtain ⟨prev, hget⟩ := get_of_cell hs.rep.2.1
  rw [getElement, run_bind_of_run (run_load hget), if_neg (not_not.2 htype),
    run_bind_of_run (getArrayItem_run hs.child.rep _), if_neg hindex]
  rfl

/-- A new element, null, is the last one below the element at `w`, and nothing outside the
document has changed. -/
structure Added (m m' : Memory Item) (F : Forest) (w : Addr) (p : Payload) (L n : Forest)
    (string : Option Text) (a : Addr) : Prop where
  fresh : m.get a = none
  document : Document m' (F.replace w p (L.append (.cons a string {} .nil .nil)) n)
  kept : ∀ x, (m.get x).isSome → x ∉ F.addrs → m'.get x = m.get x

section
variable {w : Addr} {L : Forest} (hF : Document m F) (hfw : F.find w = some (p, L, n))
  (hfuel : F.addrs.length ≤ fuel)
include hF hfw hfuel

theorem addItemToArray_new {m₁ : Memory Item} {v : Addr} {s : Option Text} (hv : m.get v = none)
    (hzero : v ≠ 0) (hcell : (m₁.get v).map Item.toCell = some ⟨{}, s, 0, 0⟩)
    (hkept : ∀ x, x ≠ v → m₁.get x = m.get x) :
    ∃ m', (addItemToArray fuel w v).run m₁ = some ((), m') ∧ Added m m' F w p L n s v := by
  have hvF : v ∉ F.addrs := hF.rep.notMem hv
  have hF₁ : Document m₁ F := hF.congr fun x hx => hkept x (ne_of_mem_of_not_mem hx hvF)
  have hD : Document m₁ (.cons v s {} .nil .nil) :=
    ⟨⟨hzero, hcell, trivial, trivial⟩, List.nodup_singleton _⟩
  obtain ⟨m', hrun, hdoc, hkept'⟩ := addItemToArray_document hF₁ hfw hD (by simp)
    (List.disjoint_singleton.2 hvF) hfuel
  refine ⟨m', hrun, hv, hdoc, fun x hx hxF => ?_⟩
  have hxv : x ≠ v := by
    rintro rfl
    rw [hv] at hx
    cases hx
  rw [hkept' x hxF (List.not_mem_cons_of_ne_of_not_mem hxv List.not_mem_nil), hkept x hxv]

theorem pushNull_run (A : Allocator) (htype : p.type = .array) :
    ∃ a m', (pushNull A fuel w).run m = some (a, m') ∧ Added m m' F w p L n none a := by
  obtain ⟨s, hs⟩ := hF.of_find hfw
  obtain ⟨prev, hget⟩ := get_of_cell hs.rep.2.1
  have hcell : ((m.set (A.make m.used) {}).get (A.make m.used)).map Item.toCell =
      some ⟨{}, none, 0, 0⟩ := by
    rw [get_set_self]
    rfl
  obtain ⟨m', hrun, hadded⟩ :=
    addItemToArray_new hF hfw hfuel (get_make A m) (A.make_ne_zero _) hcell
    fun x hx => get_set_of_ne hx
  refine ⟨A.make m.used, m', ?_, hadded⟩
  rw [pushNull, run_bind_of_run (run_load hget), if_neg (not_not.2 htype),
    run_bind_of_run (run_new A m _), run_bind_of_run hrun]
  rfl

theorem getOrCreateItem_object (A : Allocator) (htype : p.type = .object) (itemName : Text) :
    (getOrCreateItem A fuel w itemName).run m =
      (if L.named itemName = 0 then do
        let item ← new A {}
        addItemToObject fuel w itemName item
        return item
      else return L.named itemName : Exec Addr).run m := by
  obtain ⟨s, hs⟩ := hF.of_find hfw
  obtain ⟨prev, hget⟩ := get_of_cell hs.rep.2.1
  have hnull : p.type ≠ .null := by
    rw [htype]
    decide
  have hfuel' : L.addrs.length ≤ fuel :=
    Nat.le_trans (Nat.le_of_lt (Forest.length_lt_of_find hfw hF.nodup)) hfuel
  rw [getOrCreateItem, run_bind_of_run (run_load hget)]
  dsimp only
  rw [if_neg hnull, run_bind_of_run (run_load hget), if_neg (not_not.2 htype),
    run_bind_of_run (run_load hget),
    run_bind_of_run (getObjectItem_run hs.child.rep hfuel' itemName)]

theorem getOrCreateItem_existing (A : Allocator) (htype : p.type = .object) {itemName : Text}
    (hnamed : L.named itemName ≠ 0) :
    (getOrCreateItem A fuel w itemName).run m = some (L.named itemName, m) := by
  rw [getOrCreateItem_object hF hfw hfuel A htype, if_neg hnamed]
  rfl

theorem getOrCreateItem_new (A : Allocator) (htype : p.type = .object) {itemName : Text}
    (hnamed : L.named itemName = 0) :
    ∃ a m', (getOrCreateItem A fuel w itemName).run m = some (a, m') ∧
      Added m m' F w p L n (some itemName) a := by
  obtain ⟨m₁, hrun₁, hget₁, hkept₁⟩ := store_run (m := m.set (A.make m.used) {}) get_set_self
    fun i => { i with string := some itemName }
  have hcell : (m₁.get (A.make m.used)).map Item.toCell = some ⟨{}, some itemName, 0, 0⟩ := by
    rw [hget₁]
    rfl
  obtain ⟨m', hrun, hadded⟩ :=
    addItemToArray_new hF hfw hfuel (get_make A m) (A.make_ne_zero _) hcell
    fun x hx => (hkept₁ x hx).trans (get_set_of_ne hx)
  have hrun' : (addItemToObject fuel w itemName (A.make m.used)).run (m.set (A.make m.used) {}) =
      some ((), m') := by
    rw [addItemToObject, run_bind_of_run hrun₁, hrun]
  refine ⟨A.make m.used, m', ?_, hadded⟩
  rw [getOrCreateItem_object hF hfw hfuel A htype, if_pos hnamed, run_bind_of_run (run_new A m _),
    run_bind_of_run hrun']
  rfl

end

theorem Place.existing_mem {place : Place} {L : Forest} (h : place.existing L ≠ 0) :
    place.existing L ∈ L.addrs := by
  cases place with
  | field self itemName => exact Forest.named_mem h
  | element self index => exact Forest.nth_mem h
  | back self => exact absurd rfl h

theorem Place.locate_run (A : Allocator) {place : Place} {L : Forest} (hF : Document m F)
    (hplace : place.In F p L n) (hfuel : F.addrs.length ≤ fuel) :
    ∃ a m' F', (place.locate A fuel).run m = some (a, m') ∧ place.Located F p L n a F' ∧
      (place.existing L = 0 → m.get a = none) ∧ Document m' F' ∧
      ∀ x, (m.get x).isSome → x ∉ F.addrs → m'.get x = m.get x := by
  obtain ⟨hfind, htype, hindex⟩ := hplace
  cases place with
  | field self itemName =>
    rcases eq_or_ne (L.named itemName) 0 with hnamed | hnamed
    · obtain ⟨a, m', hrun, hadded⟩ := getOrCreateItem_new hF hfind hfuel A htype hnamed
      exact ⟨a, m', _, hrun, .new a hnamed (hF.rep.notMem hadded.fresh), fun _ => hadded.fresh,
        hadded.document, hadded.kept⟩
    · have hrun := getOrCreateItem_existing hF hfind hfuel A htype hnamed
      exact ⟨_, m, F, hrun, .old hnamed, fun h => absurd h hnamed, hF, fun _ _ _ => rfl⟩
  | element self index =>
    have hne := hindex self index rfl
    have hrun := getElement_run hF hfind htype hne
    exact ⟨_, m, F, hrun, .old hne, fun h => absurd h hne, hF, fun _ _ _ => rfl⟩
  | back self =>
    obtain ⟨a, m', hrun, hadded⟩ := pushNull_run hF hfind hfuel A htype
    exact ⟨a, m', _, hrun, .new a rfl (hF.rep.notMem hadded.fresh), fun _ => hadded.fresh,
      hadded.document, hadded.kept⟩

/-! ## Locality -/

namespace Forest

theorem find_eq_of_mem (ha : a ∈ F.addrs) :
    ∃ p c, F.find a = some (p, c, F.later a) := by
  obtain ⟨⟨p, c, n⟩, hfind⟩ := Option.isSome_iff_exists.1 (find_isSome ha)
  refine ⟨p, c, ?_⟩
  rw [later, hfind]
  rfl

theorem find_of_value {v : Value} (h : F.value a = some v) :
    ∃ p c n, F.find a = some (p, c, n) ∧ p.value c.read = v := by
  obtain ⟨⟨p, c, n⟩, hfind, hv⟩ := Option.map_eq_some_iff.1 h
  exact ⟨p, c, n, hfind, hv⟩

theorem value_replace {q : Payload} {d n' : Forest} (ha : a ∈ F.addrs) (hnodup : F.addrs.Nodup) :
    (F.replace a q d n').value a = some (q.value d.read) := by
  obtain ⟨p, c, hfind⟩ := find_eq_of_mem ha
  rw [value, find_replace hfind hnodup]
  rfl

end Forest

/-- Every element of the document can be assigned to. -/
theorem assigns {v : Value} (A : Allocator) (hF : Document m F) (hU : Document m U)
    (hsep : F.addrs.Disjoint U.addrs) (hb : U.value b = some v) (ha : a ∈ F.addrs)
    (hfuelF : F.addrs.length ≤ fuel) (hfuelU : U.addrs.length ≤ fuel) :
    Assigns A fuel m F a b v := by
  obtain ⟨p, c, hfa⟩ := Forest.find_eq_of_mem ha
  obtain ⟨q, d, e, hfb, rfl⟩ := Forest.find_of_value hb
  refine ⟨?_, ?_⟩
  · obtain ⟨m', hrun, hdoc, -⟩ := moveNode_run hF hU hsep hfa hfb hfuelF
    exact ⟨m', hrun, q, d, hdoc, Forest.value_replace ha hF.nodup⟩
  · obtain ⟨m', C, hrun, hsame, hdoc, -⟩ := copyAssign_run hF hU hsep hfa hfb A hfuelF hfuelU
    refine ⟨m', hrun, ?_, ?_⟩
    · -- the document in memory is the one without the later siblings
      rintro ⟨q', d', hdoc', -⟩
      have heq := hdoc.rep.unique hdoc'.rep (Forest.head_replace.trans Forest.head_replace.symm)
      have hfind := congrArg (Forest.find a) heq
      rw [Forest.find_replace hfa hF.nodup, Forest.find_replace hfa hF.nodup] at hfind
      simp only [Option.some.injEq, Prod.mk.injEq] at hfind
      exact hfind.2.2.symm
    · intro hlater
      refine ⟨q, C, ?_, ?_⟩
      · rwa [hlater]
      · rw [Forest.value_replace ha hF.nodup, hsame.read]

namespace Place.Located

variable {place : Place} {L F' : Forest} (h : place.Located F p L n a F')
  (hfind : F.find place.self = some (p, L, n)) (hnodup : F.addrs.Nodup)
include h hfind hnodup

theorem addrs_eq : F' = F ∧ a ∈ F.addrs ∨ place.existing L = 0 ∧ F'.addrs.Perm (a :: F.addrs) := by
  cases h with
  | old h => exact .inl ⟨rfl, (Forest.subset_of_find hfind hnodup).1 (existing_mem h)⟩
  | new a h ha => exact .inr ⟨h, Forest.addrs_replace_append hfind hnodup⟩

theorem later_eq_nil (hnodup' : F'.addrs.Nodup) (hnew : place.existing L = 0) :
    F'.later a = .nil := by
  cases h with
  | old h => exact absurd hnew h
  | new a h ha =>
    have haL : a ∉ L.addrs := fun h => ha ((Forest.subset_of_find hfind hnodup).1 h)
    have hchild : (L.append (.cons a place.string {} .nil .nil)).find a =
        some ({}, .nil, .nil) := by
      rw [Forest.find_append haL, Forest.find, if_pos rfl]
    rw [Forest.later, Forest.find_child (Forest.find_replace hfind hnodup) hnodup' hchild]
    rfl

end Place.Located

/-- Every place of the document can be assigned to. -/
theorem Place.assigns {v : Value} {place : Place} {L : Forest} (A : Allocator) (hF : Document m F)
    (hU : Document m U) (hsep : F.addrs.Disjoint U.addrs) (hb : U.value b = some v)
    (hplace : place.In F p L n) (hfuel : F.addrs.length + U.addrs.length < fuel) :
    ∃ a m' F', (place.locate A fuel).run m = some (a, m') ∧ place.Located F p L n a F' ∧
      Document m' F' ∧ Assigns A fuel m' F' a b v ∧
      (place.existing L = 0 → F'.later a = .nil) := by
  have hfuelF : F.addrs.length ≤ fuel := by omega
  have hfuelU : U.addrs.length ≤ fuel := by omega
  obtain ⟨a, m', F', hrun, hlocated, hfresh, hF', hkept⟩ := place.locate_run A hF hplace hfuelF
  have hU' : Document m' U := hU.congr fun x hx => hkept x (hU.rep.isSome hx) fun h => hsep h hx
  refine ⟨a, m', F', hrun, hlocated, hF', ?_, hlocated.later_eq_nil hplace.find hF.nodup hF'.nodup⟩
  rcases hlocated.addrs_eq hplace.find hF.nodup with ⟨rfl, ha⟩ | ⟨hnew, hperm⟩
  · exact Json.assigns A hF' hU' hsep hb ha hfuelF hfuelU
  · have hlength := hperm.length_eq
    rw [List.length_cons] at hlength
    refine Json.assigns A hF' hU' (fun x hx hxU => ?_) hb (hperm.mem_iff.2 List.mem_cons_self) ?_
      hfuelU
    · rcases List.mem_cons.1 (hperm.mem_iff.1 hx) with rfl | hx
      · exact hU.rep.notMem (hfresh hnew) hxU
      · exact hsep hx hxU
    · omega

/-- What `push_back` adds to an array reads as the value that it has moved. -/
theorem pushBack_run {v : Value} {w : Addr} {L : Forest} (A : Allocator) (hF : Document m F)
    (hU : Document m U) (hsep : F.addrs.Disjoint U.addrs) (hb : U.value b = some v)
    (hfw : F.find w = some (p, L, n)) (htype : p.type = .array)
    (hfuel : F.addrs.length + U.addrs.length < fuel) :
    ∃ a m' F', (pushBack A fuel w b).run m = some ((), m') ∧ (Place.back w).Located F p L n a F' ∧
      Assigned m' F' a v := by
  have hplace : (Place.back w).In F p L n := ⟨hfw, htype, fun _ _ h => by cases h⟩
  obtain ⟨a, m₁, F', hrun, hlocated, -, hassigns, -⟩ := Place.assigns A hF hU hsep hb hplace hfuel
  obtain ⟨m', hmove, hassigned⟩ := hassigns.move
  exact ⟨a, m', F', (run_bind_of_run hrun).trans hmove, hlocated, hassigned⟩

/-- A value from a separate document is moved to any element of a document, and to any place in it,
with no effect on the other elements; and it is copied there with no effect on them exactly if the
element has no later siblings. -/
theorem assignment_local_iff (A : Allocator) {v : Value} (hF : Document m F) (hU : Document m U)
    (hsep : F.addrs.Disjoint U.addrs) (hb : U.value b = some v)
    (hfuel : F.addrs.length + U.addrs.length < fuel) :
    (∀ a ∈ F.addrs, Assigns A fuel m F a b v) ∧
    ∀ place p L n, Place.In place F p L n →
      ∃ a m' F', (place.locate A fuel).run m = some (a, m') ∧ place.Located F p L n a F' ∧
        Document m' F' ∧ Assigns A fuel m' F' a b v ∧
        (place.existing L = 0 → F'.later a = .nil) := by
  refine ⟨fun a ha => ?_, fun place p L n hplace => ?_⟩
  · exact assigns A hF hU hsep hb ha (by omega) (by omega)
  · exact place.assigns A hF hU hsep hb hplace hfuel

namespace Forest

/-- The items of a forest are put in memory. -/
def write (m : Memory Item) : Forest → Memory Item
  | nil => m
  | cons a s p child next => (next.write (child.write m)).set a ⟨⟨p, s, child.head, next.head⟩, 0⟩

/-- The document `{"a":1,"b":2}`. -/
def pair : Forest :=
  .cons 1 none { type := .object }
    (.cons 2 (some ['a']) { type := .number, valueint := 1, valuedouble := 0x3FF0000000000000 }
      .nil
      (.cons 3 (some ['b']) { type := .number, valueint := 2, valuedouble := 0x4000000000000000 }
        .nil .nil))
    .nil

/-- The document `"x"`. -/
def text : Forest := .cons 4 none { type := .string, valuestring := some ['x'] } .nil .nil

end Forest

open Forest

theorem pair_document : Document (text.write (pair.write .empty)) pair := by
  refine ⟨⟨by decide, rfl, ⟨by decide, rfl, trivial, by decide, rfl, trivial, trivial⟩, trivial⟩,
    ?_⟩
  decide

theorem text_document : Document (text.write (pair.write .empty)) text :=
  ⟨⟨by decide, rfl, trivial, trivial⟩, by decide⟩

theorem pair_disjoint_text : pair.addrs.Disjoint text.addrs := by
  intro x hx hxt
  obtain rfl := List.mem_singleton.1 hxt
  revert hx
  decide

theorem assignment_local_iff_pair :
    Assigns .above 5 (text.write (pair.write .empty)) pair 3 4 (.string ['x']) ∧
    pair.later 3 = .nil ∧
      ∃ a m' F', ((Place.field 1 ['c']).locate .above 5).run (text.write (pair.write .empty)) =
        some (a, m') ∧ Assigns .above 5 m' F' a 4 (.string ['x']) ∧ F'.later a = .nil := by
  obtain ⟨hold, hplace⟩ :=
    assignment_local_iff .above pair_document text_document pair_disjoint_text
    (b := 4) (v := .string ['x']) rfl (by decide : pair.addrs.length + text.addrs.length < 5)
  refine ⟨hold 3 (by decide), rfl, ?_⟩
  obtain ⟨a, m', F', hrun, -, -, hassigns, hlater⟩ :=
    hplace (.field 1 ['c']) _ _ _ ⟨rfl, rfl, fun _ _ h => by cases h⟩
  exact ⟨a, m', F', hrun, hassigns, hlater (by decide)⟩

/-- The first of two fields is assigned by copy, and the second one is lost: what remains is
`{"a":"x"}`. -/
theorem copyAssign_loses_sibling :
    Document (text.write (pair.write .empty)) pair ∧
    Document (text.write (pair.write .empty)) text ∧
    ∀ A : Allocator,
      ((Place.field 1 ['a']).locate A 5).run (text.write (pair.write .empty)) =
        some (2, text.write (pair.write .empty)) ∧
      ∃ m' F', (copyAssign A 5 2 4).run (text.write (pair.write .empty)) = some ((), m') ∧
        ¬ Assigned m' pair 2 (.string ['x']) ∧ Document m' F' ∧ F'.head = pair.head ∧
        F'.read = [(none, .object [(['a'], .string ['x'])])] := by
  refine ⟨pair_document, text_document, fun A => ?_⟩
  have hfuel : pair.addrs.length ≤ 5 := by decide
  have hlocate := getOrCreateItem_object pair_document (w := 1) rfl hfuel A rfl ['a']
  obtain ⟨m', C, hrun, hsame, hdoc, -⟩ :=
    copyAssign_run pair_document text_document pair_disjoint_text
    (a := 2) (b := 4) rfl rfl A hfuel (by decide)
  obtain ⟨m'', hrun', hiff⟩ := (assigns A pair_document text_document pair_disjoint_text
    (v := .string ['x']) (b := 4) rfl (by decide : 2 ∈ pair.addrs) hfuel (by decide)).copy
  obtain ⟨-, rfl⟩ := Prod.mk.inj (Option.some.inj (hrun.symm.trans hrun'))
  refine ⟨hlocate.trans rfl, m', _, hrun, fun h => ?_, hdoc, rfl, ?_⟩
  · cases hiff.1 h
  · cases C with
    | nil => rfl
    | cons => exact hsame.elim

end ChargingPile.Json
