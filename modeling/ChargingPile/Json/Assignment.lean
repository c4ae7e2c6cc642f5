import ChargingPile.Json.Operations

/-!
# Assignment to an element

`moveNode` and `copyAssign` put a value that is taken from a separate document in the place of an
element. Both free what was below the element. A move leaves the rest of the document as it is, and
a copy ends the chain of siblings at the element (`moveNode_run`, `copyAssign_run`).
-/

namespace ChargingPile.Json

open Memory Memory.Exec

variable {m : Memory Item} {F U : Forest} {a b : Addr} {p q : Payload} {c n d e : Forest}
  {fuel : Nat}

theorem store_run {i : Item} (ha : m.get a = some i) (f : Item → Item) :
    ∃ m', (store a f).run m = some ((), m') ∧ m'.get a = some (f i) ∧
      ∀ x, x ≠ a → m'.get x = m.get x :=
  ⟨m.set a (f i), run_store ha f, get_set_self, fun _ hx => get_set_of_ne hx⟩

theorem moveField_run {i j : Item} (ha : m.get a = some i) (hb : m.get b = some j) (hne : a ≠ b)
    (put : Item → Item → Item) (clear : Item → Item) :
    ∃ m', (moveField a b put clear).run m = some ((), m') ∧ m'.get a = some (put j i) ∧
      m'.get b = some (clear j) ∧ ∀ x, x ≠ a → x ≠ b → m'.get x = m.get x := by
  obtain ⟨m₁, hrun₁, ha₁, hkept₁⟩ := store_run ha (put j)
  obtain ⟨m₂, hrun₂, hb₂, hkept₂⟩ := store_run ((hkept₁ b hne.symm).trans hb) clear
  refine ⟨m₂, ?_, (hkept₂ a hne).trans ha₁, hb₂, fun x hxa hxb => ?_⟩
  · rw [moveField, run_bind_of_run (run_load hb), run_bind_of_run hrun₁]
    exact hrun₂
  · rw [hkept₂ x hxb, hkept₁ x hxa]

/-- The items of the two elements afterwards, given what they were before. -/
theorem moveNode_get {s t : Option Text} (ha : Document m (.cons a s p c n))
    (hb : Document m (.cons b t q d e)) (hne : a ≠ b) (hbc : b ∉ c.addrs)
    (hfuel : c.addrs.length ≤ fuel) :
    ∃ m', (moveNode fuel a b).run m = some ((), m') ∧
      (m'.get a).map Item.toCell = some ⟨q, s, d.head, n.head⟩ ∧
      (m'.get b).map Item.toCell = some ⟨{}, t, 0, e.head⟩ ∧
      ∀ x, x ≠ a → x ≠ b → x ∉ c.addrs → m'.get x = m.get x := by
  obtain ⟨⟨-, hcella, hc, -⟩, hnodupa⟩ := ha
  obtain ⟨⟨-, hcellb, -, -⟩, -⟩ := hb
  obtain ⟨hac, -, hnc, -, -⟩ := Forest.nodup_cons.1 hnodupa
  obtain ⟨prev, ha⟩ := get_of_cell hcella
  obtain ⟨prev', hb⟩ := get_of_cell hcellb
  obtain ⟨m₁, hrun₁, ha₁, hb₁, hkept₁⟩ := moveField_run ha hb hne
    (fun s i => { i with type := s.type }) fun s => { s with type := .null }
  have hc₁ : c.Rep m₁ := hc.congr fun x hx => by
    rw [hkept₁ x (ne_of_mem_of_not_mem hx hac) (ne_of_mem_of_not_mem hx hbc)]
  obtain ⟨m₂, hrun₂, -, hkept₂⟩ := delete_run hc₁ hnc hfuel
  have ha₂ := (hkept₂ a hac).trans ha₁
  have hb₂ := (hkept₂ b hbc).trans hb₁
  obtain ⟨m₃, hrun₃, ha₃, hb₃, hkept₃⟩ := moveField_run ha₂ hb₂ hne
    (fun s i => { i with child := s.child }) fun s => { s with child := 0 }
  obtain ⟨m₄, hrun₄, ha₄, hb₄, hkept₄⟩ := moveField_run ha₃ hb₃ hne
    (fun s i => { i with valuestring := s.valuestring }) fun s => { s with valuestring := none }
  obtain ⟨m₅, hrun₅, ha₅, hb₅, hkept₅⟩ := moveField_run ha₄ hb₄ hne
    (fun s i => { i with valuedouble := s.valuedouble }) fun s => { s with valuedouble := 0 }
  obtain ⟨m₆, hrun₆, ha₆, hb₆, hkept₆⟩ := moveField_run ha₅ hb₅ hne
    (fun s i => { i with valueint := s.valueint }) fun s => { s with valueint := 0 }
  refine ⟨m₆, ?_, ?_, ?_, fun x hxa hxb hxc => ?_⟩
  · rw [moveNode, run_bind_of_run hrun₁, run_bind_of_run (run_load ha₁), run_bind_of_run hrun₂,
      run_bind_of_run hrun₃, run_bind_of_run hrun₄, run_bind_of_run hrun₅]
    exact hrun₆
  · rw [ha₆]
    rfl
  · rw [hb₆]
    rfl
  · rw [hkept₆ x hxa hxb, hkept₅ x hxa hxb, hkept₄ x hxa hxb, hkept₃ x hxa hxb, hkept₂ x hxc,
      hkept₁ x hxa hxb]

theorem reset_run {s : Option Text} (ha : Document m (.cons a s p c n))
    (hfuel : c.addrs.length ≤ fuel) (newType : ItemType) :
    ∃ m', (reset fuel a newType).run m = some ((), m') ∧
      (m'.get a).map Item.toCell = some ⟨{ p with valuestring := none, type := newType }, s, 0,
        n.head⟩ ∧
      ∀ x, x ≠ a → x ∉ c.addrs → m'.get x = m.get x := by
  obtain ⟨⟨-, hcell, hc, -⟩, hnodup⟩ := ha
  obtain ⟨hac, -, hnc, -, -⟩ := Forest.nodup_cons.1 hnodup
  obtain ⟨prev, hget⟩ := get_of_cell hcell
  obtain ⟨m₁, hrun₁, -, hkept₁⟩ := delete_run hc hnc hfuel
  obtain ⟨m₂, hrun₂, hget₂, hkept₂⟩ :=
    store_run ((hkept₁ a hac).trans hget) fun i => { i with child := 0 }
  obtain ⟨m₃, hrun₃, hget₃, hkept₃⟩ := store_run hget₂ fun i => { i with valuestring := none }
  obtain ⟨m₄, hrun₄, hget₄, hkept₄⟩ := store_run hget₃ fun i => { i with type := newType }
  refine ⟨m₄, ?_, ?_, ?_⟩
  · rw [reset, run_bind_of_run (run_load hget), run_bind_of_run hrun₁, run_bind_of_run hrun₂,
      run_bind_of_run hrun₃]
    exact hrun₄
  · rw [hget₄]
    rfl
  · intro x hxa hxc
    rw [hkept₄ x hxa, hkept₃ x hxa, hkept₂ x hxa, hkept₁ x hxc]

/-- The item of the element afterwards: all of it but the name comes from the copy,
the links too. -/
theorem copyAssign_get (A : Allocator) {s t : Option Text} (ha : Document m (.cons a s p c n))
    (hb : Document m (.cons b t q d e)) (hfuela : c.addrs.length ≤ fuel)
    (hfuelb : d.addrs.length < fuel) :
    ∃ m' C, (copyAssign A fuel a b).run m = some ((), m') ∧ C.Same d ∧ Document m' C ∧
      (∀ x ∈ C.addrs, m.get x = none) ∧ (m'.get a).map Item.toCell = some ⟨q, s, C.head, 0⟩ ∧
      ∀ x, (m.get x).isSome → x ≠ a → x ∉ c.addrs → m'.get x = m.get x := by
  obtain ⟨m₁, v, C, hrun₁, hcopy⟩ := (duplicates A d).duplicate_run hb.rep hfuelb
  have ha₁ : Document m₁ (.cons a s p c n) :=
    ha.congr fun x hx => hcopy.kept x (hcopy.notMem (ha.rep.isSome hx))
  obtain ⟨m₂, hrun₂, hcell₂, hkept₂⟩ := reset_run ha₁ hfuela .null
  obtain ⟨prev, hget₂⟩ := get_of_cell hcell₂
  obtain ⟨prev', hgetv⟩ := get_of_cell hcopy.rep.2.1
  -- the copy is not among what the element had
  have hcopya : ∀ x ∈ (Forest.cons v t q C .nil).addrs, x ∉ (Forest.cons a s p c n).addrs :=
    fun x hx h => hcopy.notMem (ha.rep.isSome h) hx
  have hkeptv : ∀ x ∈ (Forest.cons v t q C .nil).addrs, x ≠ a ∧ m₂.get x = m₁.get x :=
    fun x hx => by
    have hxa := hcopya x hx
    simp only [Forest.mem_addrs_cons, not_or] at hxa
    exact ⟨hxa.1, hkept₂ x hxa.1 hxa.2.1⟩
  obtain ⟨hva, hgetv₂⟩ := hkeptv v (Forest.mem_addrs_cons.2 (.inl rfl))
  rw [hgetv] at hgetv₂
  obtain ⟨m₃, hrun₃, hget₃, hkept₃⟩ := store_run hget₂ fun _ => ⟨⟨q, t, C.head, 0⟩, prev'⟩
  obtain ⟨m₄, hrun₄, hget₄, hkept₄⟩ := store_run hget₃ fun i => { i with string := s }
  have hkept : ∀ x, x ≠ a → x ≠ v → (m₄.free v).get x = m₂.get x := fun x hxa hxv => by
    rw [get_free_of_ne hxv, hkept₄ x hxa, hkept₃ x hxa]
  have hvC : v ∉ C.addrs := (Forest.nodup_cons.1 hcopy.nodup).1
  have hC : Document m₁ C := Document.child ⟨hcopy.rep, hcopy.nodup⟩
  refine ⟨m₄.free v, C, ?_, hcopy.same.2.2.1, hC.congr fun x hx => ?_, fun x hx => ?_, ?_,
    fun x hx hxa hxc => ?_⟩
  · have hgetv₄ := (hkept₄ v hva).trans ((hkept₃ v hva).trans hgetv₂)
    rw [copyAssign, run_bind_of_run hrun₁, run_bind_of_run hrun₂, run_bind_of_run (run_load hget₂),
      run_bind_of_run (run_load hgetv₂)]
    refine (run_bind_of_run hrun₃).trans ?_
    refine (run_bind_of_run hrun₄).trans ?_
    exact run_release hgetv₄
  · obtain ⟨hxa, hx₂⟩ := hkeptv x (Forest.mem_addrs_cons.2 (.inr (.inl hx)))
    rw [hkept x hxa (ne_of_mem_of_not_mem hx hvC), hx₂]
  · exact hcopy.fresh x (Forest.mem_addrs_cons.2 (.inr (.inl hx)))
  · rw [get_free_of_ne hva.symm, hget₄]
    rfl
  · have hxv : x ≠ v := fun h => hcopy.notMem hx (Forest.mem_addrs_cons.2 (.inl h))
    rw [hkept x hxa hxv, hkept₂ x hxa hxc, hcopy.kept x (hcopy.notMem hx)]

section
variable (hF : Document m F) (hU : Document m U) (hsep : F.addrs.Disjoint U.addrs)
  (hfa : F.find a = some (p, c, n)) (hfb : U.find b = some (q, d, e))
include hF hU hsep hfa hfb

/-- A moved value replaces the element, and leaves null. Nothing outside the two
documents changes. -/
theorem moveNode_run (hfuel : F.addrs.length ≤ fuel) :
    ∃ m', (moveNode fuel a b).run m = some ((), m') ∧ Document m' (F.replace a q d n) ∧
      Document m' (U.replace b {} .nil e) ∧ ∀ x, x ∉ F.addrs → x ∉ U.addrs →
      m'.get x = m.get x := by
  obtain ⟨s, hs⟩ := hF.of_find hfa
  obtain ⟨t, ht⟩ := hU.of_find hfb
  obtain ⟨hcF, hnF⟩ := Forest.subset_of_find hfa hF.nodup
  obtain ⟨hdU, heU⟩ := Forest.subset_of_find hfb hU.nodup
  obtain ⟨hac, han, -, -, hcn⟩ := Forest.nodup_cons.1 hs.nodup
  obtain ⟨hbd, hbe, -, -, -⟩ := Forest.nodup_cons.1 ht.nodup
  have haF := Forest.mem_of_find hfa
  have hbU := Forest.mem_of_find hfb
  have hfuel' : c.addrs.length ≤ fuel :=
    Nat.le_trans (Nat.le_of_lt (Forest.length_lt_of_find hfa hF.nodup)) hfuel
  obtain ⟨m', hrun, ha, hb, hkept⟩ :=
    moveNode_get hs ht (ne_of_mem_of_not_mem haF fun h => hsep h hbU)
    (fun h => hsep (hcF h) hbU) hfuel'
  have hkeptF : ∀ x ∈ F.addrs, x ≠ a → x ∉ c.addrs → m'.get x = m.get x := fun x hx hxa hxc =>
    hkept x hxa (ne_of_mem_of_not_mem hx fun h => hsep h hbU) hxc
  have hkeptU : ∀ x ∈ U.addrs, x ≠ b → m'.get x = m.get x := fun x hx hxb =>
    hkept x (ne_of_mem_of_not_mem hx fun h => hsep haF h) hxb fun h => hsep (hcF h) hx
  refine ⟨m', hrun, hF.replace hfa hs ha (fun x hx hxa hxc _ => hkeptF x hx hxa hxc) ?_ ?_ ?_
    (List.Subset.refl _), hU.replace hfb ht hb (fun x hx hxb _ _ => hkeptU x hx hxb) ?_ ?_ ?_
    (List.Subset.refl _), fun x hxF hxU => ?_⟩
  · exact ht.child.congr fun x hx => hkeptU x (hdU hx) (ne_of_mem_of_not_mem hx hbd)
  · exact fun x hx hxF => absurd (hdU hx) fun h => hsep hxF h
  · exact hs.next.congr fun x hx =>
      hkeptF x (hnF hx) (ne_of_mem_of_not_mem hx han) fun h => hcn h hx
  · exact ⟨trivial, List.nodup_nil⟩
  · exact fun x hx => absurd hx List.not_mem_nil
  · exact ht.next.congr fun x hx => hkeptU x (heU hx) (ne_of_mem_of_not_mem hx hbe)
  · exact hkept x (ne_of_mem_of_not_mem haF hxF).symm (ne_of_mem_of_not_mem hbU hxU).symm
      fun h => hxF (hcF h)

/-- A copied value replaces the element too, but the later siblings are lost. -/
theorem copyAssign_run (A : Allocator) (hfuelF : F.addrs.length ≤ fuel)
    (hfuelU : U.addrs.length ≤ fuel) :
    ∃ m' C, (copyAssign A fuel a b).run m = some ((), m') ∧ C.Same d ∧
      Document m' (F.replace a q C .nil) ∧ Document m' U := by
  obtain ⟨s, hs⟩ := hF.of_find hfa
  obtain ⟨t, ht⟩ := hU.of_find hfb
  obtain ⟨hcF, -⟩ := Forest.subset_of_find hfa hF.nodup
  have haF := Forest.mem_of_find hfa
  have hfuelc : c.addrs.length ≤ fuel :=
    Nat.le_trans (Nat.le_of_lt (Forest.length_lt_of_find hfa hF.nodup)) hfuelF
  have hfueld : d.addrs.length < fuel :=
    Nat.lt_of_lt_of_le (Forest.length_lt_of_find hfb hU.nodup) hfuelU
  obtain ⟨m', C, hrun, hsame, hC, hnew, hcell, hkept⟩ := copyAssign_get A hs ht hfuelc hfueld
  refine ⟨m', C, hrun, hsame, hF.replace hfa hs hcell ?_ hC ?_ ⟨trivial, List.nodup_nil⟩
    (List.nil_subset _), hU.congr fun x hx => ?_⟩
  · exact fun x hx hxa hxc _ => hkept x (hF.rep.isSome hx) hxa hxc
  · exact fun x hx hxF => absurd hxF (hF.rep.notMem (hnew x hx))
  · exact hkept x (hU.rep.isSome hx) (ne_of_mem_of_not_mem hx fun h => hsep haF h) fun h =>
      hsep (hcF h) hx

end

end ChargingPile.Json
