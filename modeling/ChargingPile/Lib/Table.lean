import Mathlib.Data.List.Basic

/-!
# Tables that keep their entries

A table is a `Std.TreeMap` whose entries come in with `insertIfNew`, as with `std::map::insert`: a
key that is there keeps its entry, or with `insert`, as with `std::map::operator[]`. The lemmas say
what an entry of the table was before an insertion or a removal, in terms of equality of keys and
not of their comparison.
-/

namespace ChargingPile.Table

variable {κ β : Type} {cmp : κ → κ → Ordering} [Std.TransCmp cmp] [Std.LawfulEqCmp cmp]
variable {t : Std.TreeMap κ β cmp} {i k : κ} {a b : β}

omit [Std.LawfulEqCmp cmp] in
theorem mem_of_getElem? (h : t[i]? = some b) : i ∈ t :=
  Std.TreeMap.mem_iff_isSome_getElem?.2 (by simp [h])

omit [Std.LawfulEqCmp cmp] in
theorem exists_of_mem (h : i ∈ t) : ∃ b, t[i]? = some b :=
  Option.isSome_iff_exists.1 (Std.TreeMap.mem_iff_isSome_getElem?.1 h)

/-- An entry after an insertion was there before, or is the new one. -/
theorem getElem?_insert (h : (t.insertIfNew k a)[i]? = some b) :
    t[i]? = some b ∨ i = k ∧ k ∉ t ∧ b = a := by
  rw [Std.TreeMap.getElem?_insertIfNew] at h
  split at h
  · rename_i hk
    exact .inr ⟨(Std.LawfulEqCmp.eq_of_compare hk.1).symm, hk.2, (Option.some.inj h).symm⟩
  · exact .inl h

/-- An insertion leaves the entries alone. -/
theorem getElem?_insert_of_some (h : t[i]? = some b) : (t.insertIfNew k a)[i]? = some b := by
  rw [Std.TreeMap.getElem?_insertIfNew, if_neg, h]
  rintro ⟨hk, hnot⟩
  rw [Std.LawfulEqCmp.eq_of_compare hk] at hnot
  exact hnot (mem_of_getElem? h)

omit [Std.LawfulEqCmp cmp] in
theorem getElem?_insert_self (h : k ∉ t) : (t.insertIfNew k a)[k]? = some a := by
  rw [Std.TreeMap.getElem?_insertIfNew, if_pos ⟨Std.ReflCmp.compare_self, h⟩]

/-- An entry after an assignment is the one assigned, or one of another key. -/
theorem getElem?_assign : (t.insert k a)[i]? = some b ↔ i = k ∧ b = a ∨ i ≠ k ∧
    t[i]? = some b := by
  rw [Std.TreeMap.getElem?_insert]
  split
  · rename_i hk
    simp [Std.LawfulEqCmp.eq_of_compare hk, eq_comm]
  · rename_i hk
    have hne : i ≠ k := by
      rintro rfl
      exact hk Std.ReflCmp.compare_self
    simp [hne]

/-- An entry after a removal is one of another key. -/
theorem getElem?_erase : (t.erase k)[i]? = some b ↔ i ≠ k ∧ t[i]? = some b := by
  rw [Std.TreeMap.getElem?_erase]
  split
  · rename_i hk
    simp [Std.LawfulEqCmp.eq_of_compare hk]
  · rename_i hk
    have hne : i ≠ k := by
      rintro rfl
      exact hk Std.ReflCmp.compare_self
    simp [hne]

/-- What an entry becomes when one is removed: it stays, or it is the removed one. -/
theorem getElem?_erase_or (hk : t[k]? = some a) (hi : t[i]? = some b) :
    (t.erase k)[i]? = some b ∨ i = k ∧ b = a := by
  rcases Classical.em (i = k) with rfl | hne
  · exact .inr ⟨rfl, Option.some.inj (hi.symm.trans hk)⟩
  · exact .inl (getElem?_erase.2 ⟨hne, hi⟩)

/-! ## Tables with one entry -/

omit [Std.LawfulEqCmp cmp]

theorem not_mem_of_empty (h : t.size = 0) : k ∉ t := by
  have hempty : t.isEmpty = true := by simp [Std.TreeMap.isEmpty_eq_size_eq_zero, h]
  exact Std.TreeMap.isEmpty_iff_forall_not_mem.1 hempty k

/-- A table that was empty has its new entry only. -/
theorem toList_insert_of_empty [Std.LawfulEqCmp cmp] (h : t.size = 0) :
    (t.insertIfNew k a).toList = [(k, a)] := by
  have hnot : k ∉ t := not_mem_of_empty h
  have hlen : (t.insertIfNew k a).toList.length = 1 := by
    rw [Std.TreeMap.length_toList, Std.TreeMap.size_insertIfNew, if_neg hnot, h]
  obtain ⟨x, hx⟩ := List.length_eq_one_iff.1 hlen
  have hmem : (k, a) ∈ (t.insertIfNew k a).toList :=
    Std.TreeMap.mem_toList_iff_getElem?_eq_some.2 (getElem?_insert_self hnot)
  rw [hx] at hmem ⊢
  rw [List.mem_singleton.1 hmem]

/-- A new entry that is removed again leaves the size as it was. -/
theorem size_erase_insert (h : k ∉ t) : ((t.insertIfNew k a).erase k).size = t.size := by
  have hmem : (t.insertIfNew k a).contains k = true := Std.TreeMap.contains_insertIfNew_self
  rw [Std.TreeMap.size_erase, if_pos hmem, Std.TreeMap.size_insertIfNew, if_neg h,
    Nat.add_sub_cancel]

end ChargingPile.Table
