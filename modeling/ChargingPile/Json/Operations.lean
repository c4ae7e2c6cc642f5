import ChargingPile.Json.Document

/-!
# What cJSON does to a document

One lemma for each of the loops and recursions of cJSON: with fuel for the items of the forest it
is run on, it ends, and the memory afterwards is given in terms of forests. What is not named
there is unchanged.
-/

namespace ChargingPile.Json

open Memory Memory.Exec

variable {m : Memory Item}

theorem get_of_cell {a : Addr} {cell : Cell} (h : (m.get a).map Item.toCell = some cell) :
    ∃ prev, m.get a = some ⟨cell, prev⟩ := by
  obtain ⟨⟨cell', prev⟩, hget, rfl⟩ := Option.map_eq_some_iff.1 h
  exact ⟨prev, hget⟩

/-! ## Deleting -/

theorem delete_null (fuel : Nat) : delete fuel 0 = pure () := by
  cases fuel with
  | zero => rfl
  | succ fuel => rfl

/-- The items of the forest are freed, and no others. -/
theorem delete_run {F : Forest} {fuel : Nat} (h : F.Rep m) (hnodup : F.addrs.Nodup)
    (hfuel : F.addrs.length ≤ fuel) :
    ∃ m', (delete fuel F.head).run m = some ((), m') ∧ (∀ b ∈ F.addrs, m'.get b = none) ∧
      ∀ b ∉ F.addrs, m'.get b = m.get b := by
  induction F generalizing m fuel with
  | nil =>
    refine ⟨m, ?_, fun b hb => ?_, fun _ _ => rfl⟩
    · rw [Forest.head, delete_null]
      rfl
    · cases hb
  | cons a s p child next ihc ihn =>
    obtain ⟨ha, hcell, hchild, hnext⟩ := h
    obtain ⟨hac, han, hnc, hnn, hdisj⟩ := Forest.nodup_cons.1 hnodup
    obtain ⟨prev, hget⟩ := get_of_cell hcell
    simp only [Forest.addrs, List.length_cons, List.length_append] at hfuel
    cases fuel with
    | zero => omega
    | succ fuel =>
      have hfuelc : child.addrs.length ≤ fuel := by omega
      have hfueln : next.addrs.length ≤ fuel := by omega
      obtain ⟨m₁, hrun₁, hfreed₁, hkept₁⟩ := ihc hchild hnc hfuelc
      have hget₁ : m₁.get a = some _ := (hkept₁ a hac).trans hget
      have hnext₁ : next.Rep (m₁.free a) := by
        refine hnext.congr fun b hb => ?_
        rw [get_free_of_ne (ne_of_mem_of_not_mem hb han), hkept₁ b fun h => hdisj h hb]
      obtain ⟨m₂, hrun₂, hfreed₂, hkept₂⟩ := ihn hnext₁ hnn hfueln
      refine ⟨m₂, ?_, ?_, ?_⟩
      · rw [Forest.head, delete, if_neg ha, run_bind_of_run (run_load hget), run_bind_of_run hrun₁,
          run_bind_of_run (run_release hget₁)]
        exact hrun₂
      · intro b hb
        by_cases hbn : b ∈ next.addrs
        · exact hfreed₂ b hbn
        · rw [hkept₂ b hbn]
          rcases Forest.mem_addrs_cons.1 hb with rfl | hbc | hbn'
          · exact get_free_self
          · rw [get_free_of_ne (ne_of_mem_of_not_mem hbc hac), hfreed₁ b hbc]
          · exact absurd hbn' hbn
      · intro b hb
        simp only [Forest.mem_addrs_cons, not_or] at hb
        rw [hkept₂ b hb.2.2, get_free_of_ne hb.1, hkept₁ b hb.2.1]

/-! ## Adding at the end -/

namespace Forest

variable {L D : Forest}

theorem append_assoc (L D E : Forest) : (L.append D).append E = L.append (D.append E) := by
  induction L with
  | nil => rfl
  | cons a s p child next _ ih => rw [append, append, append, ih]

theorem append_nil (L : Forest) : L.append nil = L := by
  induction L with
  | nil => rfl
  | cons a s p child next _ ih => rw [append, ih]

theorem head_append (h : L ≠ nil) : (L.append D).head = L.head := by
  cases L with
  | nil => exact absurd rfl h
  | cons => rfl

theorem last_mem (h : L ≠ nil) : L.last ∈ L.addrs := by
  induction L with
  | nil => exact absurd rfl h
  | cons a s p child next _ ih =>
    cases next with
    | nil => exact mem_addrs_cons.2 (.inl rfl)
    | cons => exact mem_addrs_cons.2 (.inr (.inr (ih (by simp))))

theorem head_nil : nil.head = 0 := rfl

theorem head_mem (h : L ≠ nil) : L.head ∈ L.addrs := by
  cases L with
  | nil => exact absurd rfl h
  | cons => exact mem_addrs_cons.2 (.inl rfl)

theorem Rep.head_ne_zero (hL : L.Rep m) (h : L ≠ nil) : L.head ≠ 0 := hL.ne_zero (head_mem h)

theorem last_append (h : D ≠ nil) : (L.append D).last = D.last := by
  induction L with
  | nil => rfl
  | cons a s p child next _ ih =>
    rw [append]
    cases hn : next.append D with
    | nil =>
      cases next with
      | nil => exact absurd hn h
      | cons => cases hn
    | cons => rw [last, ← hn, ih]

/-- The last element is linked to another chain. -/
theorem Rep.append (hL : L.Rep m) (hne : L ≠ nil) (hD : D.Rep m)
    (hnodup : (L.addrs ++ D.addrs).Nodup) {i : Item} (hi : m.get L.last = some i) :
    (L.append D).Rep (m.set L.last { i with next := D.head }) := by
  induction L with
  | nil => exact absurd rfl hne
  | cons a s p child next _ ih =>
    obtain ⟨ha, hcell, hchild, hnext⟩ := hL
    rw [List.nodup_append'] at hnodup
    obtain ⟨hnodupL, hnodupD, hdisj⟩ := hnodup
    obtain ⟨hac, han, hnc, hnn, hcn⟩ := nodup_cons.1 hnodupL
    cases next with
    | nil =>
      -- the element itself is the last one
      rw [last] at hi ⊢
      have hcell' : i.toCell = ⟨p, s, child.head, 0⟩ := by
        rw [hi] at hcell
        exact Option.some.inj hcell
      refine ⟨ha, ?_, hchild.congr fun b hb => ?_, hD.congr fun b hb => ?_⟩
      · rw [get_set_self, Option.map_some, hcell']
        rfl
      · rw [get_set_of_ne (ne_of_mem_of_not_mem hb hac)]
      · rw [get_set_of_ne (ne_of_mem_of_not_mem hb (hdisj (mem_addrs_cons.2 (.inl rfl))))]
    | cons b t q c n =>
      rw [last] at hi ⊢
      have hlast : (cons b t q c n).last ∈ (cons b t q c n).addrs := last_mem (by simp)
      refine ⟨ha, ?_, hchild.congr fun x hx => ?_, ih hnext (by simp) ?_ hi⟩
      · rw [get_set_of_ne (ne_of_mem_of_not_mem hlast han).symm]
        exact hcell
      · rw [get_set_of_ne (ne_of_mem_of_not_mem hlast (hcn hx)).symm]
      · refine List.nodup_append'.2 ⟨hnn, hnodupD, fun x hx hxD => hdisj ?_ hxD⟩
        exact mem_addrs_cons.2 (.inr (.inr hx))

/-- The links back do not matter. -/
theorem Rep.setPrev {F : Forest} (h : F.Rep m) {a prev : Addr} {i : Item} (hi : m.get a = some i) :
    F.Rep (m.set a { i with prev }) := by
  refine h.congr fun b _ => ?_
  rcases eq_or_ne b a with rfl | hne
  · rw [get_set_self, hi]
    rfl
  · rw [get_set_of_ne hne]

end Forest

section
variable {L D : Forest} {w : Addr} {iw : Item}

/-- An item gets new children behind those it has. -/
theorem attach_run (hw : m.get w = some iw) (hchild : iw.child = L.head) (hL : L.Rep m)
    (hD : D.Rep m) (hne : D ≠ .nil) (hnodup : (w :: (L.addrs ++ D.addrs)).Nodup) :
    ∃ m', (attach w L.last D.head).run m = some ((), m') ∧
      m'.get w = some { iw with child := (L.append D).head } ∧ (L.append D).Rep m' ∧
      ∀ b, b ∉ w :: L.addrs → b ∉ D.addrs → m'.get b = m.get b := by
  obtain ⟨hnot, hnodup⟩ := List.nodup_cons.1 hnodup
  rw [List.mem_append, not_or] at hnot
  rcases eq_or_ne L .nil with rfl | hLne
  · refine ⟨m.set w { iw with child := D.head }, ?_, get_set_self, ?_, ?_⟩
    · rw [attach, if_neg (by simp [Forest.last])]
      exact run_store hw _
    · exact hD.congr fun b hb => by rw [get_set_of_ne (ne_of_mem_of_not_mem hb hnot.2)]
    · exact fun b hb _ => get_set_of_ne (List.ne_of_not_mem_cons hb)
  · have hlast := Forest.last_mem hLne
    have hhead : D.head ∈ D.addrs := Forest.head_mem hne
    obtain ⟨il, hil⟩ := Option.isSome_iff_exists.1 (hL.isSome hlast)
    obtain ⟨iv, hiv⟩ := Option.isSome_iff_exists.1 (hD.isSome hhead)
    have hdisj := (List.nodup_append'.1 hnodup).2.2
    have hdl : D.head ≠ L.last := (ne_of_mem_of_not_mem hlast fun h => hdisj h hhead).symm
    have hiv₁ : (m.set L.last { il with next := D.head }).get D.head = some iv := by
      rw [get_set_of_ne hdl, hiv]
    refine ⟨(m.set L.last { il with next := D.head }).set D.head { iv with prev := L.last }, ?_,
      ?_, (hL.append hLne hD hnodup hil).setPrev hiv₁, ?_⟩
    · rw [attach, if_pos (hL.ne_zero hlast), run_bind_of_run (run_store hil _)]
      exact run_store hiv₁ _
    · rw [get_set_of_ne (ne_of_mem_of_not_mem hhead hnot.2).symm,
        get_set_of_ne (ne_of_mem_of_not_mem hlast hnot.1).symm, hw, Forest.head_append hLne,
        ← hchild]
    · intro b hb hbD
      rw [get_set_of_ne (ne_of_mem_of_not_mem hhead hbD).symm,
        get_set_of_ne (ne_of_mem_of_not_mem hlast (List.not_mem_of_not_mem_cons hb)).symm]

/-- The loop goes to the last child. -/
theorem addLoop_run {fuel : Nat} (hL : L.Rep m) (hne : L ≠ .nil) (hfuel : L.addrs.length ≤ fuel)
    (item : Addr) : (addLoop item fuel L.head).run m = (attach w L.last item).run m := by
  induction L generalizing fuel with
  | nil => exact absurd rfl hne
  | cons a s p child next _ ih =>
    obtain ⟨ha, hcell, -, hnext⟩ := hL
    obtain ⟨prev, hget⟩ := get_of_cell hcell
    simp only [Forest.addrs, List.length_cons, List.length_append] at hfuel
    cases fuel with
    | zero => omega
    | succ fuel =>
      rw [Forest.head, addLoop, run_bind_of_run (run_load hget)]
      cases next with
      | nil =>
        rw [if_pos Forest.head_nil, Forest.last, attach, if_pos ha]
      | cons b t q c n =>
        rw [if_neg (hnext.head_ne_zero (by simp))]
        exact ih hnext (by simp) (by omega)

theorem addItemToArray_run {fuel : Nat} (hw : m.get w = some iw) (hchild : iw.child = L.head)
    (hL : L.Rep m) (hfuel : L.addrs.length ≤ fuel) (item : Addr) :
    (addItemToArray fuel w item).run m = (attach w L.last item).run m := by
  rw [addItemToArray, run_bind_of_run (run_load hw), hchild]
  cases L with
  | nil =>
    rw [if_pos Forest.head_nil, Forest.last, attach, if_neg (not_not.2 rfl)]
  | cons a s p child next =>
    rw [if_neg (hL.head_ne_zero (by simp))]
    exact addLoop_run hL (by simp) hfuel item

end

/-! ## Duplicating -/

theorem Forest.Rep.notMem {F : Forest} (h : F.Rep m) {b : Addr} (hb : m.get b = none) :
    b ∉ F.addrs := by
  intro hmem
  have := h.isSome hmem
  rw [hb] at this
  cases this

/-- A forest has been copied to new items, and nothing else has changed. -/
structure Copied (m m' : Memory Item) (F D : Forest) : Prop where
  same : D.Same F
  rep : D.Rep m'
  nodup : D.addrs.Nodup
  fresh : ∀ b ∈ D.addrs, m.get b = none
  kept : ∀ b ∉ D.addrs, m'.get b = m.get b

theorem Copied.notMem {m' : Memory Item} {F D : Forest} (h : Copied m m' F D) {b : Addr}
    (hb : (m.get b).isSome) : b ∉ D.addrs := by
  intro hmem
  rw [h.fresh b hmem] at hb
  cases hb

/-- The item at `w` has got the new children `D` behind those it had, and nothing
else has changed. -/
structure Extended (m m' : Memory Item) (w : Addr) (iw : Item) (L D : Forest) : Prop where
  item : m'.get w = some { iw with child := (L.append D).head }
  rep : (L.append D).Rep m'
  nodup : (w :: (L.append D).addrs).Nodup
  fresh : ∀ b ∈ D.addrs, m.get b = none
  kept : ∀ b, b ∉ w :: L.addrs → b ∉ D.addrs → m'.get b = m.get b

theorem Extended.nil {w : Addr} {iw : Item} {L : Forest} (hw : m.get w = some iw)
    (hchild : iw.child = L.head) (hL : L.Rep m) (hnodup : (w :: L.addrs).Nodup) :
    Extended m m w iw L .nil := by
  refine ⟨?_, ?_, ?_, fun b hb => absurd hb List.not_mem_nil, fun _ _ _ => rfl⟩
  · rw [Forest.append_nil, hw, ← hchild]
  · rwa [Forest.append_nil]
  · rwa [Forest.append_nil]

theorem Extended.append {m₁ m₂ : Memory Item} {w : Addr} {iw : Item} {L D N : Forest}
    (h : Extended m m₁ w iw L D)
    (h' : Extended m₁ m₂ w { iw with child := (L.append D).head } (L.append D) N) :
    Extended m m₂ w iw L (D.append N) := by
  obtain ⟨hw₂, hrep₂, hnodup₂, hfresh₂, hkept₂⟩ := h'
  rw [Forest.append_assoc] at hw₂ hrep₂ hnodup₂
  refine ⟨hw₂, hrep₂, hnodup₂, fun b hb => ?_, fun b hb hbD => ?_⟩
  · rw [Forest.addrs_append, List.mem_append] at hb
    rcases hb with hD | hN
    · exact h.fresh b hD
    · -- what is new later is not among what was new before
      have hb₁ := hfresh₂ b hN
      have hbnot := h.rep.notMem hb₁
      rw [Forest.addrs_append, List.mem_append, not_or] at hbnot
      have hbw : b ≠ w := by
        rintro rfl
        cases h.item.symm.trans hb₁
      rw [← h.kept b (List.not_mem_cons_of_ne_of_not_mem hbw hbnot.1) hbnot.2, hb₁]
  · rw [Forest.addrs_append, List.mem_append, not_or] at hbD
    rw [hkept₂ b ?_ hbD.2, h.kept b hb hbD.1]
    rw [Forest.addrs_append, ← List.cons_append, List.mem_append, not_or]
    exact ⟨hb, hbD.1⟩

/-- The loop over a forest adds a copy of it behind the children `L` that the new item `w` has. -/
def Duplicates (A : Allocator) (F : Forest) : Prop :=
  ∀ ⦃m : Memory Item⦄ ⦃f g : Nat⦄ ⦃w : Addr⦄ ⦃iw : Item⦄ ⦃L : Forest⦄, F.Rep m →
    F.addrs.length ≤ f →
    F.addrs.length ≤ g → m.get w = some iw → iw.child = L.head → L.Rep m → (w :: L.addrs).Nodup →
    (w :: L.addrs).Disjoint F.addrs →
    ∃ m' D, (duplicateLoop (duplicate A f) w g F.head L.last).run m = some ((), m') ∧ D.Same F ∧
      Extended m m' w iw L D

section
variable {A : Allocator} {a : Addr} {s : Option Text} {p : Payload} {child next : Forest}
  {fuel : Nat}

/-- One element is duplicated, given the loop over its children. -/
theorem Duplicates.duplicate_run (h : Duplicates A child)
    (hrep : (Forest.cons a s p child next).Rep m) (hfuel : child.addrs.length < fuel) :
    ∃ m' v C, (duplicate A fuel a).run m = some (v, m') ∧
      Copied m m' (.cons a s p child .nil) (.cons v s p C .nil) := by
  obtain ⟨-, hcell, hchild, -⟩ := hrep
  obtain ⟨prev, hget⟩ := get_of_cell hcell
  cases fuel with
  | zero => omega
  | succ fuel =>
    have hfuel' : child.addrs.length ≤ fuel := by omega
    have hnone : m.get (A.make m.used) = none := get_make A m
    have hfresh : A.make m.used ∉ child.addrs := hchild.notMem hnone
    have hchild₁ : child.Rep (m.set (A.make m.used) ⟨⟨p, s, 0, 0⟩, 0⟩) :=
      hchild.congr fun b hb => by rw [get_set_of_ne (ne_of_mem_of_not_mem hb hfresh)]
    obtain ⟨m', C, hrun, hsame, hv, hC, hnodup, hnew, hkept⟩ :=
      h (L := .nil) hchild₁ hfuel' hfuel' get_set_self rfl trivial (List.nodup_singleton _)
        (List.singleton_disjoint.2 hfresh)
    refine ⟨m', A.make m.used, C, ?_, ⟨rfl, rfl, hsame, trivial⟩,
      ⟨A.make_ne_zero _, ?_, hC, trivial⟩, ?_, ?_, ?_⟩
    · rw [duplicate, run_bind_of_run (run_load hget), run_bind_of_run (run_new A m _)]
      exact (run_bind_of_run hrun).trans rfl
    · rw [hv]
      rfl
    · rw [Forest.addrs, Forest.addrs, List.append_nil]
      exact hnodup
    · intro b hb
      rcases Forest.mem_addrs_cons.1 hb with rfl | hb | hb
      · exact hnone
      · have hne : b ≠ A.make m.used := ne_of_mem_of_not_mem hb (List.nodup_cons.1 hnodup).1
        rw [← hnew b hb, get_set_of_ne hne]
      · cases hb
    · intro b hb
      simp only [Forest.mem_addrs_cons, not_or] at hb
      rw [hkept b (List.not_mem_cons_of_ne_of_not_mem hb.1 List.not_mem_nil) hb.2.1,
        get_set_of_ne hb.1]

/-- One element is duplicated and added to the children of the new item. -/
theorem Duplicates.turn (h : Duplicates A child) (hrep : (Forest.cons a s p child next).Rep m)
    (hfuel : child.addrs.length < fuel) {w : Addr} {iw : Item} {L : Forest}
    (hw : m.get w = some iw) (hchild : iw.child = L.head) (hL : L.Rep m)
    (hnodup : (w :: L.addrs).Nodup) :
    ∃ m₁ m₂ v C, (duplicate A fuel a).run m = some (v, m₁) ∧
      (attach w L.last v).run m₁ = some ((), m₂) ∧ C.Same child ∧
      Extended m m₂ w iw L (.cons v s p C .nil) := by
  obtain ⟨m₁, v, C, hrun₁, hcopy⟩ := h.duplicate_run hrep hfuel
  have hwD := hcopy.notMem (b := w) (by rw [hw]; rfl)
  have hLD := fun b hb => hcopy.notMem (hL.isSome (a := b) hb)
  have hw₁ : m₁.get w = some iw := (hcopy.kept w hwD).trans hw
  have hL₁ : L.Rep m₁ := hL.congr fun b hb => by rw [hcopy.kept b (hLD b hb)]
  have hnodup₁ : (w :: (L.addrs ++ (Forest.cons v s p C .nil).addrs)).Nodup := by
    obtain ⟨hwL, hnodupL⟩ := List.nodup_cons.1 hnodup
    refine List.nodup_cons.2
      ⟨?_, List.nodup_append'.2 ⟨hnodupL, hcopy.nodup, fun b hb => hLD b hb⟩⟩
    rw [List.mem_append, not_or]
    exact ⟨hwL, hwD⟩
  obtain ⟨m₂, hrun₂, hw₂, hrep₂, hkept₂⟩ := attach_run hw₁ hchild hL₁ hcopy.rep (by simp) hnodup₁
  refine ⟨m₁, m₂, v, C, hrun₁, hrun₂, hcopy.same.2.2.1, hw₂, hrep₂, ?_, hcopy.fresh, ?_⟩
  · rwa [Forest.addrs_append]
  · exact fun b hb hbD => (hkept₂ b hb hbD).trans (hcopy.kept b hbD)

theorem duplicates (A : Allocator) (F : Forest) : Duplicates A F := by
  induction F with
  | nil =>
    intro m f g w iw L _ _ _ hw hchild hL hnodup _
    refine ⟨m, .nil, ?_, trivial, .nil hw hchild hL hnodup⟩
    cases g <;> rfl
  | cons a s p child next ihc ihn =>
    intro m f g w iw L hF hf hg hw hchild hL hnodup hsep
    obtain ⟨ha, hcell, -, hnext⟩ := id hF
    obtain ⟨prev, hget⟩ := get_of_cell hcell
    simp only [Forest.addrs, List.length_cons, List.length_append] at hf hg
    cases g with
    | zero => omega
    | succ g =>
      have hfc : child.addrs.length < f := by omega
      obtain ⟨m₁, m₂, v, C, hrun₁, hrun₂, hC, hfirst⟩ := ihc.turn hF hfc hw hchild hL hnodup
      -- the turn has not touched the forest
      have hFD : ∀ b ∈ (Forest.cons a s p child next).addrs,
          b ∉ (Forest.cons v s p C .nil).addrs :=
        fun b hb hbD => hF.notMem (hfirst.fresh b hbD) hb
      have hkept : ∀ b ∈ (Forest.cons a s p child next).addrs, m₂.get b = m.get b :=
        fun b hb => hfirst.kept b (fun h => hsep h hb) (hFD b hb)
      have hget₂ := (hkept a (Forest.mem_addrs_cons.2 (.inl rfl))).trans hget
      have hsub : ∀ b ∈ next.addrs, b ∈ (Forest.cons a s p child next).addrs :=
        fun b hb => Forest.mem_addrs_cons.2 (.inr (.inr hb))
      have hnext₂ : next.Rep m₂ := hnext.congr fun b hb => by rw [hkept b (hsub b hb)]
      have hsep₂ : (w :: (L.append (.cons v s p C .nil)).addrs).Disjoint next.addrs := by
        intro b hb hbn
        rw [Forest.addrs_append, ← List.cons_append, List.mem_append] at hb
        exact hb.elim (fun h => hsep h (hsub b hbn)) (hFD b (hsub b hbn))
      obtain ⟨m₃, N, hrun₃, hN, hrest⟩ :=
        ihn hnext₂ (f := f) (g := g) (by omega) (by omega) hfirst.item
        rfl hfirst.rep hfirst.nodup hsep₂
      refine ⟨m₃, (Forest.cons v s p C .nil).append N, ?_, ⟨rfl, rfl, hC, hN⟩, hfirst.append hrest⟩
      rw [Forest.last_append (by simp)] at hrun₃
      rw [Forest.head, duplicateLoop, if_neg ha, run_bind_of_run hrun₁, run_bind_of_run hrun₂]
      exact (run_bind_of_run (run_load hget₂)).trans hrun₃

end

/-! ## Looking up -/

namespace Forest

/-- The address of the first element with a name, or null. -/
def named (string : Text) : Forest → Addr
  | nil => 0
  | cons a s _ _ next => if s.any (sameName · string) then a else next.named string

/-- The address of an element by its index, or null. -/
def nth : Nat → Forest → Addr
  | _, nil => 0
  | 0, cons a _ _ _ _ => a
  | i + 1, cons _ _ _ _ next => next.nth i

theorem named_mem {L : Forest} {string : Text} (h : L.named string ≠ 0) :
    L.named string ∈ L.addrs := by
  induction L with
  | nil => exact absurd rfl h
  | cons a s p child next _ ih =>
    rw [named] at h ⊢
    split
    next => exact mem_addrs_cons.2 (.inl rfl)
    next hs =>
      rw [if_neg hs] at h
      exact mem_addrs_cons.2 (.inr (.inr (ih h)))

theorem nth_mem {L : Forest} {i : Nat} (h : L.nth i ≠ 0) : L.nth i ∈ L.addrs := by
  induction L generalizing i with
  | nil => cases i <;> exact absurd rfl h
  | cons a s p child next _ ih =>
    cases i with
    | zero => exact mem_addrs_cons.2 (.inl rfl)
    | succ i => exact mem_addrs_cons.2 (.inr (.inr (ih h)))

end Forest

theorem getObjectItem_run {L : Forest} {fuel : Nat} (hL : L.Rep m) (hfuel : L.addrs.length ≤ fuel)
    (string : Text) : (getObjectItem string fuel L.head).run m = some (L.named string, m) := by
  induction L generalizing fuel with
  | nil => cases fuel <;> rfl
  | cons a s p child next _ ih =>
    obtain ⟨ha, hcell, -, hnext⟩ := hL
    obtain ⟨prev, hget⟩ := get_of_cell hcell
    simp only [Forest.addrs, List.length_cons, List.length_append] at hfuel
    cases fuel with
    | zero => omega
    | succ fuel =>
      rw [Forest.head, getObjectItem, if_neg ha, run_bind_of_run (run_load hget), Forest.named]
      split
      next => rfl
      next => exact ih hnext (by omega)

theorem getArrayItem_run {L : Forest} (hL : L.Rep m) (i : Nat) :
    (getArrayItem i L.head).run m = some (L.nth i, m) := by
  induction i generalizing L with
  | zero =>
    cases L with
    | nil => rfl
    | cons => rfl
  | succ i ih =>
    cases L with
    | nil => rfl
    | cons a s p child next =>
      obtain ⟨ha, hcell, -, hnext⟩ := hL
      obtain ⟨prev, hget⟩ := get_of_cell hcell
      rw [Forest.head, getArrayItem, if_neg ha, run_bind_of_run (run_load hget)]
      exact ih hnext

end ChargingPile.Json
