import ChargingPile.Json.Locality
import Mathlib.Algebra.GroupWithZero.Nat

/-!
# Documents from lists

The constructor of `Json` for an initializer list (`utilities/json.cxx`): a name and a value make
an object with one field, objects are merged into one, and anything else makes an array. Merging
moves the first field of each object and no other: a field behind it is lost without an exception,
as the test for it looks at the sibling of the object instead of that of its first field.
-/

namespace ChargingPile.Json

open Memory Memory.Exec

/-! ## The code -/

/-- What is thrown, with its text. -/
inductive Thrown
  | notImplemented (what : String)
  | error (e : Error) (what : String)

/-- `Json::getItem`. -/
def getItem (fuel : Nat) (self : Addr) (itemName : Text) : Exec (Except Thrown Addr) := do
  let i ← load self
  if i.type ≠ .object then return .error (.error .typeError "not a object")
  else
    let item ← getObjectItem itemName fuel i.child
    if item = 0 then
      return .error (.error .itemNotFound ("field \"" ++ String.ofList itemName ++ "\" not found"))
    else return .ok item

/-- `field = move(item)`, once the right side has been evaluated. -/
def moveTo (A : Allocator) (fuel : Nat) (self : Addr) (childName : Text) :
    Except Thrown Addr → Exec (Except Thrown Unit)
  | .error e => return .error e
  | .ok item => do
    let field ← getOrCreateItem A fuel self childName
    moveNode fuel field item
    return .ok ()

/-- One turn of the loop that merges objects. The name of a child that has none is not there. -/
def mergeChild (A : Allocator) (fuel : Nat) (self child : Addr) : Exec (Except Thrown Unit) := do
  let c ← load child
  if c.next ≠ 0 then return .error (.notImplemented "not a kvp")
  else
    match (← load c.child).string with
    | none => failure
    | some childName => do moveTo A fuel self childName (← getItem fuel child childName)

/-- The loop that merges objects. -/
def merge (A : Allocator) (fuel : Nat) (self : Addr) : List Addr → Exec (Except Thrown Unit)
  | [] => return .ok ()
  | child :: obj => do
    match ← mergeChild A fuel self child with
    | .error e => return .error e
    | .ok () => merge A fuel self obj

/-- The loop of `Json::toArray`. -/
def toArrayLoop (A : Allocator) (fuel : Nat) (self : Addr) : Addr → List Addr → Exec Unit
  | _, [] => pure ()
  | prevNode, ele :: obj => do
    let curNode ← new A {}
    moveNode fuel curNode ele
    store curNode fun i => { i with prev := prevNode }
    if prevNode ≠ 0 then store prevNode fun i => { i with next := curNode }
    else store self fun i => { i with child := curNode }
    toArrayLoop A fuel self curNode obj

/-- `Json::toArray`. -/
def toArray (A : Allocator) (fuel : Nat) (self : Addr) (obj : List Addr) : Exec Unit := do
  store self fun i => { i with type := .array }
  delete fuel (← load self).child
  toArrayLoop A fuel self 0 obj

/-- All elements are objects. -/
def allObj : List Addr → Exec Bool
  | [] => return true
  | child :: obj => do
    if (← load child).type ≠ .object then return false else allObj obj

/-- The list is a name and a value. -/
def isKvp : List Addr → Exec Bool
  | [first, _] => return (← load first).type = .string
  | _ => return false

/-- The field of a name and a value. -/
def ofKvp (A : Allocator) (fuel : Nat) (self first last : Addr) : Exec Unit := do
  match (← load first).valuestring with
  | none => failure
  | some keyName =>
    let item ← getOrCreateItem A fuel self keyName
    moveNode fuel item last

/-- The body of the constructor, on the new object. -/
def fill (A : Allocator) (fuel : Nat) (self : Addr) (obj : List Addr) :
    Exec (Except Thrown Unit) := do
  if ← isKvp obj then
    ofKvp A fuel self (obj.getD 0 0) (obj.getD 1 0)
    return .ok ()
  else if ← allObj obj then merge A fuel self obj
  else
    toArray A fuel self obj
    return .ok ()

namespace Value

/-- The fields after one of them has been assigned: the first one of that name keeps its own
spelling, and a missing one comes last. -/
def assign : List (Text × Value) → Text × Value → List (Text × Value)
  | [], g => [g]
  | f :: fields, g => if sameName f.1 g.1 then (f.1, g.2) :: fields else f :: assign fields g

theorem find_append (fields fields' : List (Text × Value)) (itemName : Text) :
    find (fields ++ fields') itemName = (find fields itemName).or (find fields' itemName) := by
  rw [find, List.find?_append, Option.map_or]
  rfl

theorem find_cons (f : Text × Value) (fields : List (Text × Value)) (itemName : Text) :
    find (f :: fields) itemName = if sameName f.1 itemName then some f.2
      else find fields itemName := by
  rw [find, List.find?_cons]
  split
  next h => rw [if_pos h]; rfl
  next h => rw [if_neg (by simp [h])]; rfl

end Value

/-! ## The children of an object -/

namespace Forest

variable {m : Memory Item} {L : Forest} {a : Addr} {q : Payload} {d : Forest}
  {fields : List (Text × Value)}

/-- The children read as fields, all with their names. -/
def Fields (L : Forest) (fields : List (Text × Value)) : Prop :=
  L.read = fields.map fun f => (some f.1, f.2)

theorem read_append (L D : Forest) : (L.append D).read = L.read ++ D.read := by
  induction L with
  | nil => rfl
  | cons a s p child next _ ih => rw [append, read, read, ih, List.cons_append]

theorem replace_append {D n : Forest} (ha : a ∉ L.addrs) :
    (L.append D).replace a q d n = L.append (D.replace a q d n) := by
  induction L with
  | nil => rfl
  | cons b s p child next _ ih =>
    simp only [mem_addrs_cons, not_or] at ha
    rw [append, replace, if_neg (Ne.symm ha.1), replace_of_notMem ha.2.1, ih ha.2.2, append]

theorem Fields.cons {s : Option Text} {p : Payload} {c n : Forest}
    (h : (Forest.cons a s p c n).Fields fields) :
    ∃ f fields', fields = f :: fields' ∧ s = some f.1 ∧ n.Fields fields' := by
  cases fields with
  | nil => cases h
  | cons f fields =>
    obtain ⟨hf, hn⟩ := List.cons.inj h
    exact ⟨f, fields, rfl, congrArg Prod.fst hf, hn⟩

/-- A field that is there gets the value. -/
theorem Fields.replace_named {itemName : Text} (h : L.Fields fields) (hnodup : L.addrs.Nodup)
    (hnamed : L.named itemName ≠ 0) :
    (L.replace (L.named itemName) q d (L.later (L.named itemName))).Fields
      (Value.assign fields (itemName, q.value d.read)) := by
  induction L generalizing fields with
  | nil => exact absurd rfl hnamed
  | cons a s p c n _ ih =>
    obtain ⟨f, fields, rfl, rfl, hn⟩ := h.cons
    obtain ⟨-, han, hnc, hnn, hdisj⟩ := nodup_cons.1 hnodup
    rw [named] at hnamed ⊢
    rw [Option.any_some] at hnamed ⊢
    rw [Value.assign]
    split
    next hsame =>
      rw [replace, if_pos rfl, later, find, if_pos rfl, Fields, read]
      exact congrArg _ hn
    next hsame =>
      rw [if_neg hsame] at hnamed
      have hmem := named_mem hnamed
      have hne : a ≠ n.named itemName := (ne_of_mem_of_not_mem hmem han).symm
      have hc : n.named itemName ∉ c.addrs := fun h => hdisj h hmem
      have hlater : (Forest.cons a (some f.1) p c n).later (n.named itemName) =
          n.later (n.named itemName) := by
        rw [later, find, if_neg hne, find_eq_none hc]
        rfl
      rw [hlater, replace, if_neg hne, replace_of_notMem hc, Fields, read, ih hn hnn hnamed]
      rw [Fields, read] at h
      rw [(List.cons.inj h).1]
      rfl

/-- A field that is not there is added. -/
theorem Fields.append_new {itemName : Text} (h : L.Fields fields) (hL : L.Rep m)
    (hnamed : L.named itemName = 0) (ha : a ∉ L.addrs) :
    ((L.append (.cons a (some itemName) {} .nil .nil)).replace a q d .nil).Fields
      (Value.assign fields (itemName, q.value d.read)) := by
  rw [replace_append ha, replace, if_pos rfl, Fields, read_append]
  clear ha
  induction L generalizing fields with
  | nil =>
    cases fields with
    | nil => rfl
    | cons => cases h
  | cons b s p c n _ ih =>
    obtain ⟨f, fields, rfl, rfl, hn⟩ := h.cons
    rw [named, Option.any_some] at hnamed
    split at hnamed
    next => exact absurd hnamed hL.1
    next hsame =>
      rw [Value.assign, if_neg hsame, List.map_cons, ← ih hn hL.2.2.2 hnamed, read,
        List.cons_append]
      rw [Fields, read] at h
      rw [(List.cons.inj h).1]

/-- What is left of a forest when an element has lost its children. -/
theorem mem_replace_nil {e : Forest} {p : Payload} {c : Forest} {x : Addr}
    (h : L.find a = some (p, c, e)) (hnodup : L.addrs.Nodup)
    (hx : x ∈ (L.replace a q .nil e).addrs) : x ∈ L.addrs ∧ x ∉ c.addrs := by
  obtain ⟨rest, hperm, hreplace⟩ := perm_of_find h hnodup
  have hx' := (hreplace q .nil e).mem_iff.1 hx
  have hall := hperm.nodup_iff.1 hnodup
  rw [hperm.mem_iff]
  simp only [addrs, List.nil_append, List.cons_append, List.nodup_cons, List.nodup_append',
    List.mem_cons, List.mem_append, not_or, List.disjoint_append_left] at hx' hall ⊢
  obtain ⟨⟨⟨hac, -⟩, -⟩, ⟨-, -, hce⟩, -, hcr, -⟩ := hall
  rcases hx' with rfl | hx' | hx'
  · exact ⟨.inl rfl, hac⟩
  · exact ⟨.inr (.inl (.inr hx')), fun hc => hce hc hx'⟩
  · exact ⟨.inr (.inr hx'), fun hc => hcr hc hx'⟩

/-- The first element has lost its value. -/
def clearFirst : Forest → Forest
  | nil => nil
  | cons a s _ _ n => cons a s {} nil n

end Forest

/-! ## One turn -/

/-- The new object at `a`, with the children `L`, which are its fields. -/
structure Object (m : Memory Item) (a : Addr) (L : Forest) (fields : List (Text × Value)) :
    Prop where
  document : Document m (.cons a none { type := .object } L .nil)
  fields : L.Fields fields

section
variable {m : Memory Item} {self : Addr} {L : Forest} {fields : List (Text × Value)} {fuel : Nat}

/-- A field is looked up, and made where it is missing: it has a place to which a value
can be assigned. -/
theorem Object.getOrCreateItem (A : Allocator) (h : Object m self L fields) (itemName : Text)
    (hfuel : L.addrs.length < fuel) :
    ∃ b m' L' p c n, (Json.getOrCreateItem A fuel self itemName).run m = some (b, m') ∧
      Document m' (.cons self none { type := .object } L' .nil) ∧ L'.find b = some (p, c, n) ∧
      (∀ q d, (L'.replace b q d n).Fields (Value.assign fields (itemName, q.value d.read))) ∧
      L'.addrs.length ≤ L.addrs.length + 1 ∧
      ∀ x, (m.get x).isSome → x ≠ self → x ∉ L.addrs → m'.get x = m.get x ∧ x ∉ L'.addrs := by
  obtain ⟨hdoc, hfields⟩ := h
  obtain ⟨hself, -, hnodup, -, -⟩ := Forest.nodup_cons.1 hdoc.nodup
  have hlength : (Forest.cons self none { type := .object } L .nil).addrs.length ≤ fuel := by
    simp only [Forest.addrs, List.length_cons, List.append_nil]
    omega
  rcases eq_or_ne (L.named itemName) 0 with hnamed | hnamed
  · obtain ⟨b, m', hrun, hfresh, hdoc', hkept⟩ :=
      getOrCreateItem_new hdoc (w := self) (if_pos rfl) hlength A rfl hnamed
    rw [Forest.replace, if_pos rfl] at hdoc'
    have hbL : b ∉ L.addrs := hdoc.child.rep.notMem hfresh
    refine ⟨b, m', _, {}, .nil, .nil, hrun, hdoc', ?_, fun q d => ?_, ?_,
      fun x hx hself hxL => ⟨?_, ?_⟩⟩
    · rw [Forest.find_append hbL, Forest.find, if_pos rfl]
    · exact hfields.append_new hdoc.child.rep hnamed hbL
    · rw [Forest.addrs_append, List.length_append]
      exact Nat.le_refl _
    · refine hkept x hx fun hmem => ?_
      rcases Forest.mem_addrs_cons.1 hmem with h | h | h
      · exact hself h
      · exact hxL h
      · cases h
    · rw [Forest.addrs_append, List.mem_append, not_or]
      refine ⟨hxL, fun hmem => ?_⟩
      obtain rfl := List.mem_singleton.1 hmem
      rw [hfresh] at hx
      cases hx
  · obtain ⟨p, c, hfind⟩ := Forest.find_eq_of_mem (Forest.named_mem hnamed)
    refine ⟨_, m, L, p, c, _,
      getOrCreateItem_existing hdoc (w := self) (if_pos rfl) hlength A rfl hnamed,
      hdoc, hfind, fun q d => hfields.replace_named hnodup hnamed, Nat.le_succ _, fun x _ _ hxL =>
      ⟨rfl, hxL⟩⟩

/-- A field of a separate document is moved to the object, and leaves null. -/
theorem Object.move (A : Allocator) (h : Object m self L fields) {U : Forest} {k : Addr}
    {q : Payload} {d e : Forest} (hU : Document m U) (hk : U.find k = some (q, d, e))
    (hselfU : self ∉ U.addrs) (hsep : L.addrs.Disjoint U.addrs) (itemName : Text)
    (hfuel : L.addrs.length + 2 ≤ fuel) :
    ∃ m' L', (moveTo A fuel self itemName (.ok k)).run m = some (.ok (), m') ∧
      Object m' self L' (Value.assign fields (itemName, q.value d.read)) ∧
      L'.addrs.length ≤ L.addrs.length + U.addrs.length ∧
      Document m' (U.replace k {} .nil e) ∧ L'.addrs.Disjoint (U.replace k {} .nil e).addrs ∧
      ∀ x, (m.get x).isSome → x ≠ self → x ∉ L.addrs → x ∉ U.addrs →
        m'.get x = m.get x ∧ x ∉ L'.addrs := by
  obtain ⟨b, m₁, L₁, p, c, n, hrun₁, hdoc₁, hfind₁, hfields₁, hlength₁, hkept₁⟩ :=
    h.getOrCreateItem A itemName (by omega : L.addrs.length < fuel)
  obtain ⟨hself, -, hnodup₁, -, -⟩ := Forest.nodup_cons.1 hdoc₁.nodup
  have hoff : ∀ x ∈ U.addrs, m₁.get x = m.get x ∧ x ∉ L₁.addrs := fun x hx =>
    hkept₁ x (hU.rep.isSome hx) (ne_of_mem_of_not_mem hx hselfU) fun hxL => hsep hxL hx
  have hU₁ : Document m₁ U := hU.congr fun x hx => (hoff x hx).1
  have hsep₁ : (Forest.cons self none { type := .object } L₁ .nil).addrs.Disjoint U.addrs := by
    intro x hx hxU
    rcases Forest.mem_addrs_cons.1 hx with rfl | hx | hx
    · exact hselfU hxU
    · exact (hoff x hxU).2 hx
    · cases hx
  have hfuel₁ : (Forest.cons self none { type := .object } L₁ .nil).addrs.length ≤ fuel := by
    simp only [Forest.addrs, List.length_cons, List.append_nil]
    omega
  have hfindb := Forest.find_child (F := .cons self none { type := .object } L₁ .nil) (if_pos rfl)
    hdoc₁.nodup hfind₁
  obtain ⟨m₂, hrun₂, hdoc₂, hU₂, hkept₂⟩ := moveNode_run hdoc₁ hU₁ hsep₁ hfindb hk hfuel₁
  have hb : self ≠ b := (ne_of_mem_of_not_mem (Forest.mem_of_find hfind₁) hself).symm
  rw [Forest.replace, if_neg hb, Forest.replace] at hdoc₂
  obtain ⟨rest, hperm, hreplace⟩ := Forest.perm_of_find hfind₁ hnodup₁
  obtain ⟨hdU, -⟩ := Forest.subset_of_find hk hU.nodup
  have hmem : ∀ x ∈ (L₁.replace b q d n).addrs, x ∈ L₁.addrs ∨ x ∈ d.addrs := by
    intro x hx
    have hx' := (hreplace q d n).mem_iff.1 hx
    have hx₁ := hperm.mem_iff (a := x)
    simp only [List.cons_append, List.mem_cons, List.mem_append] at hx' hx₁
    tauto
  refine ⟨m₂, L₁.replace b q d n, ?_, ⟨hdoc₂, hfields₁ q d⟩, ?_, hU₂, ?_,
    fun x hx hxself hxL hxU => ?_⟩
  · rw [moveTo, run_bind_of_run hrun₁, run_bind_of_run hrun₂]
    rfl
  · have hd := Forest.length_lt_of_find hk hU.nodup
    have h₁ := hperm.length_eq
    have h₂ := (hreplace q d n).length_eq
    simp only [List.cons_append, List.length_cons, List.length_append] at h₁ h₂
    omega
  · intro x hx hxU
    obtain ⟨hxU', hxd⟩ := Forest.mem_replace_nil hk hU.nodup hxU
    rcases hmem x hx with hx | hx
    · exact (hoff x hxU').2 hx
    · exact hxd hx
  · obtain ⟨hget, hxL₁⟩ := hkept₁ x hx hxself hxL
    refine ⟨?_, fun hmem' => ?_⟩
    · rw [hkept₂ x (fun hself => ?_) hxU, hget]
      rcases Forest.mem_addrs_cons.1 hself with h | h | h
      · exact hxself h
      · exact hxL₁ h
      · cases h
    · rcases hmem x hmem' with h | h
      · exact hxL₁ h
      · exact hxU (hdU h)

end

/-! ## The list -/

/-- An element of the list: its item, its children, and the address of its next sibling. -/
structure Element where
  self : Addr
  string : Option Text
  payload : Payload
  child : Forest
  next : Addr

namespace Element

/-- The items of the element. -/
def own (e : Element) : List Addr := e.self :: e.child.addrs

/-- The fields of the element. -/
def fields (e : Element) : List (Text × Value) := e.child.read.map fun f => (f.1.getD [], f.2)

/-- The first field of the element. -/
def firstField (e : Element) : List (Text × Value) := e.fields.take 1

/-- The element is in memory. -/
structure In (e : Element) (m : Memory Item) : Prop where
  cell : (m.get e.self).map Item.toCell = some ⟨e.payload, e.string, e.child.head, e.next⟩
  child : Document m e.child

/-- The element is an object with at least one field, and its fields have names. -/
structure IsObject (e : Element) : Prop where
  type : e.payload.type = .object
  named : e.child.Fields e.fields
  nonempty : e.fields ≠ []

/-- What is left of the element when its first field has been moved: the field is null. -/
def spent (e : Element) : Element := { e with child := e.child.clearFirst }

variable {m m' : Memory Item} {e e' : Element}

theorem In.isSome (h : e.In m) {x : Addr} (hx : x ∈ e.own) : (m.get x).isSome := by
  rcases List.mem_cons.1 hx with rfl | hx
  · obtain ⟨prev, hget⟩ := get_of_cell h.cell
    rw [hget]
    rfl
  · exact h.child.rep.isSome hx

theorem In.congr (h : e.In m) (hget : ∀ x ∈ e.own, m'.get x = m.get x) : e.In m' := by
  refine ⟨?_, h.child.congr fun x hx => hget x (List.mem_cons_of_mem _ hx)⟩
  rw [hget e.self List.mem_cons_self]
  exact h.cell

/-- The first field of an object is its first child. -/
theorem IsObject.first (h : e.IsObject) : ∃ k itemName q d n,
    e.child = .cons k (some itemName) q d n ∧
    e.firstField = [(itemName, q.value d.read)] := by
  obtain ⟨-, hnamed, hne⟩ := h
  rw [firstField]
  generalize e.fields = fields at hnamed hne
  generalize e.child = child at hnamed
  cases child with
  | nil =>
    cases fields with
    | nil => exact absurd rfl hne
    | cons => cases hnamed
  | cons k s q d n =>
    obtain ⟨f, fields, rfl, rfl, -⟩ := hnamed.cons
    refine ⟨k, f.1, q, d, n, rfl, ?_⟩
    have hf : q.value d.read = f.2 := congrArg Prod.snd (List.cons.inj hnamed).1
    rw [List.take_succ_cons, List.take_zero, hf]

/-- There is one element at an address. -/
theorem In.unique (h : e.In m) (h' : e'.In m) (hself : e.self = e'.self) : e = e' := by
  obtain ⟨self, string, payload, child, next⟩ := e
  obtain ⟨self', string', payload', child', next'⟩ := e'
  obtain rfl : self = self' := hself
  have hcell := Option.some.inj (h.cell.symm.trans h'.cell)
  injection hcell with hpayload hstring hhead hnext
  obtain rfl := h.child.rep.unique h'.child.rep hhead
  dsimp only at hpayload hstring hnext
  rw [hpayload, hstring, hnext]

theorem spent_spent (e : Element) : e.spent.spent = e.spent := by
  obtain ⟨self, string, payload, child, next⟩ := e
  cases child <;> rfl

theorem own_spent_subset (e : Element) : e.spent.own ⊆ e.own := by
  obtain ⟨self, string, payload, child, next⟩ := e
  cases child with
  | nil => exact List.Subset.refl _
  | cons a s p c n =>
    intro x hx
    simp only [own, spent, Forest.clearFirst, Forest.addrs, List.mem_cons, List.mem_append] at hx ⊢
    tauto

theorem IsObject.spent (h : e.IsObject) : e.spent.IsObject := by
  obtain ⟨self, string, payload, child, next⟩ := e
  obtain ⟨htype, hnamed, hne⟩ := h
  cases child with
  | nil => exact absurd rfl hne
  | cons a s p c n =>
    obtain ⟨f, fields, hfields, rfl, hn⟩ := hnamed.cons
    obtain ⟨-, rfl⟩ := List.cons.inj hfields
    exact ⟨htype, congrArg _ hn, List.cons_ne_nil _ _⟩

end Element

section
variable {m : Memory Item} {self : Addr} {L : Forest} {fields : List (Text × Value)} {fuel : Nat}
  {e : Element}

end

/-- The elements of a list: objects in memory. One of them may be there several times, but none is
a part of another one. -/
structure Elements (m : Memory Item) (es : List Element) : Prop where
  mem : ∀ e ∈ es, e.In m
  object : ∀ e ∈ es, e.IsObject
  apart : es.Pairwise fun e e' => e.self = e'.self ∨ e.own.Disjoint e'.own

/-- The number of items of the elements. -/
def size (es : List Element) : Nat := (es.map fun e => e.own.length).sum

/-- The element as it is when the elements at the addresses `seen` have had their turn. -/
def Element.after (seen : List Addr) (e : Element) : Element :=
  if e.self ∈ seen then e.spent else e

section
variable {m : Memory Item} {self : Addr} {L : Forest} {fields : List (Text × Value)} {fuel : Nat}
  {es : List Element} (seen : List Addr)

theorem Element.own_after_subset (e : Element) : (e.after seen).own ⊆ e.own := by
  unfold Element.after
  split
  · exact e.own_spent_subset
  · exact List.Subset.refl _

theorem Element.spent_after (e : Element) : (e.after seen).spent = e.spent := by
  unfold Element.after
  split
  · exact e.spent_spent
  · rfl

theorem Element.IsObject.after {e : Element} (h : e.IsObject) : (e.after seen).IsObject := by
  unfold Element.after
  split
  · exact h.spent
  · exact h

/-- An element after its turn. -/
theorem Element.after_cons_self (e : Element) :
    e.after (e.self :: seen) = (e.after seen).spent := by
  rw [e.spent_after seen, Element.after, if_pos List.mem_cons_self]

/-- The turn of another element. -/
theorem Element.after_cons_of_ne {e : Element} {a : Addr} (h : e.self ≠ a) :
    e.after (a :: seen) = e.after seen := by
  simp [Element.after, h]

/-- The turn of `e` leaves every element, the same one or one without an item in common, as it is
after that turn, and none of its items comes into the new object. -/
theorem Element.In.turn {e e' : Element} {m₁ : Memory Item} {L₁ : Forest}
    (he' : (e'.after seen).In m) (hself : self ∉ e'.own)
    (hsep : L.addrs.Disjoint (e'.after seen).own) (hspent : (e.after seen).spent.In m₁)
    (hdisj : L₁.addrs.Disjoint (e.after seen).spent.own)
    (hkept : ∀ x, (m.get x).isSome → x ≠ self → x ∉ L.addrs → x ∉ (e.after seen).own →
      m₁.get x = m.get x ∧ x ∉ L₁.addrs)
    (hapart : e = e' ∨ e.own.Disjoint e'.own) :
    (e'.after (e.self :: seen)).In m₁ ∧ L₁.addrs.Disjoint (e'.after (e.self :: seen)).own := by
  rcases hapart with rfl | hd
  · rw [e.after_cons_self seen]
    exact ⟨hspent, hdisj⟩
  have hne : e'.self ≠ e.self := by
    intro heq
    exact hd List.mem_cons_self (heq ▸ List.mem_cons_self)
  rw [Element.after_cons_of_ne seen hne]
  -- the element has nothing in common with what the turn has touched
  have hoff : ∀ x ∈ (e'.after seen).own, m₁.get x = m.get x ∧ x ∉ L₁.addrs := by
    intro x hx
    have hx' := e'.own_after_subset seen hx
    refine hkept x (he'.isSome hx) (ne_of_mem_of_not_mem hx' hself) ?_ ?_
    · exact fun hxL => hsep hxL hx
    · exact fun hxe => hd (e.own_after_subset seen hxe) hx'
  exact ⟨he'.congr fun x hx => (hoff x hx).1, fun x hx hxe => (hoff x hxe).2 hx⟩

end

theorem Forest.Fields.unique {L : Forest} {fields fields' : List (Text × Value)}
    (h : L.Fields fields) (h' : L.Fields fields') : fields = fields' := by
  have hinj : Function.Injective fun f : Text × Value => (some f.1, f.2) := fun f g hfg => by
    simp only [Prod.mk.injEq, Option.some.injEq] at hfg
    exact Prod.ext hfg.1 hfg.2
  exact hinj.list_map (h.symm.trans h')

/-- There is one object at an address. -/
theorem Object.unique {m : Memory Item} {a : Addr} {L L' : Forest}
    {fields fields' : List (Text × Value)} (h : Object m a L fields) (h' : Object m a L' fields') :
    fields = fields' := by
  have heq := h.document.rep.unique h'.document.rep rfl
  injection heq with _ _ _ hL
  subst hL
  exact h.fields.unique h'.fields

namespace Forest

/-- The document `{"c":3}`. -/
def single : Forest :=
  .cons 4 none { type := .object }
    (.cons 5 (some ['c']) { type := .number, valueint := 3, valuedouble := 0x4008000000000000 }
      .nil .nil)
    .nil

/-- The first element of a forest. -/
def element : Forest → Element
  | nil => ⟨0, none, {}, nil, 0⟩
  | cons a s p child next => ⟨a, s, p, child, next.head⟩

end Forest

theorem Document.element {m : Memory Item} {F : Forest} (h : Document m F) (hne : F ≠ .nil) :
    F.element.In m := by
  cases F with
  | nil => exact absurd rfl hne
  | cons => exact ⟨h.rep.2.1, h.child⟩

theorem Elements.pair {m : Memory Item} {e e' : Element} (he : e.In m) (he' : e'.In m)
    (hobj : e.IsObject) (hobj' : e'.IsObject) (h : e.self = e'.self ∨ e.own.Disjoint e'.own) :
    Elements m [e, e'] := by
  refine ⟨?_, ?_, List.pairwise_pair.2 h⟩
  · exact List.forall_mem_cons.2 ⟨he, List.forall_mem_singleton.2 he'⟩
  · exact List.forall_mem_cons.2 ⟨hobj, List.forall_mem_singleton.2 hobj'⟩

open Forest

end ChargingPile.Json
