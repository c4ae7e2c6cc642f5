import Mathlib.Data.List.Basic

/-!
# Sorted maps

A map kept as its entries in the order of their keys, under a comparator that need not tell all
keys apart: two keys of which neither is less than the other are one key to the map. `assign` is
the update such a map offers. A map is its entries assigned one after the other to the empty map
(`SortedMap.foldl_assign`), which is how a reader rebuilds it.
-/

namespace ChargingPile

/-- A comparator of keys. -/
structure Less (κ : Type) where
  lt : κ → κ → Bool
  irrefl : ∀ a, ¬ lt a a
  trans : ∀ {a b c}, lt a b → lt b c → lt a c

/-- A map, as its entries in the order of their keys. -/
@[ext] structure SortedMap {κ : Type} (c : Less κ) (β : Type) where
  entries : List (κ × β)
  sorted : entries.Pairwise fun d e => c.lt d.1 e.1

namespace SortedMap

variable {κ β : Type} {c : Less κ} {key : κ} {value : β} {l : List (κ × β)}

/-- `assign` on the entries. An equivalent key that is there already stays, with the new value. -/
def assignEntry (c : Less κ) (key : κ) (value : β) : List (κ × β) → List (κ × β)
  | [] => [(key, value)]
  | e :: l =>
    if c.lt e.1 key then e :: assignEntry c key value l
    else if c.lt key e.1 then (key, value) :: e :: l
    else (e.1, value) :: l

/-- No key comes from elsewhere. -/
theorem mem_assignEntry {e : κ × β} (he : e ∈ assignEntry c key value l) :
    e.1 = key ∨ ∃ d ∈ l, d.1 = e.1 := by
  induction l with
  | nil =>
    rw [List.mem_singleton.1 he]
    exact .inl rfl
  | cons d l ih =>
    rw [assignEntry] at he
    split at he
    · rcases List.mem_cons.1 he with rfl | he
      · exact .inr ⟨e, List.mem_cons_self, rfl⟩
      · exact (ih he).imp_right fun ⟨d', hd', h⟩ => ⟨d', List.mem_cons_of_mem _ hd', h⟩
    split at he
    · rcases List.mem_cons.1 he with rfl | he
      · exact .inl rfl
      · exact .inr ⟨e, he, rfl⟩
    · rcases List.mem_cons.1 he with rfl | he
      · exact .inr ⟨d, List.mem_cons_self, rfl⟩
      · exact .inr ⟨e, List.mem_cons_of_mem _ he, rfl⟩

theorem sorted_assignEntry (h : l.Pairwise fun d e => c.lt d.1 e.1) :
    (assignEntry c key value l).Pairwise fun d e => c.lt d.1 e.1 := by
  induction l with
  | nil => exact List.pairwise_singleton _ _
  | cons d l ih =>
    obtain ⟨hd, hl⟩ := List.pairwise_cons.1 h
    rw [assignEntry]
    split
    · rename_i hlt
      refine List.pairwise_cons.2 ⟨fun e he => ?_, ih hl⟩
      rcases mem_assignEntry he with hkey | ⟨d', hd', hkey⟩
      · rwa [hkey]
      · rw [← hkey]
        exact hd d' hd'
    split
    · rename_i hlt
      refine List.pairwise_cons.2 ⟨fun e he => ?_, h⟩
      rcases List.mem_cons.1 he with rfl | he
      · exact hlt
      · exact c.trans hlt (hd e he)
    · exact List.pairwise_cons.2 ⟨hd, hl⟩

/-- A key greater than all others goes to the end. -/
theorem assignEntry_last (h : ∀ e ∈ l, c.lt e.1 key) :
    assignEntry c key value l = l ++ [(key, value)] := by
  induction l with
  | nil => rfl
  | cons d l ih =>
    rw [assignEntry, if_pos (h d List.mem_cons_self),
      ih fun e he => h e (List.mem_cons_of_mem _ he)]
    rfl

/-- The map without entries. -/
def empty : SortedMap c β := ⟨[], List.Pairwise.nil⟩

/-- The value of a key is set, and the key added where it is missing. -/
def assign (m : SortedMap c β) (key : κ) (value : β) : SortedMap c β where
  entries := assignEntry c key value m.entries
  sorted := sorted_assignEntry m.sorted

/-- Entries beyond those of a map are appended by assigning them in order. -/
theorem entries_foldl_assign (m : SortedMap c β)
    (h : (m.entries ++ l).Pairwise fun d e => c.lt d.1 e.1) :
    (l.foldl (fun m e => m.assign e.1 e.2) m).entries = m.entries ++ l := by
  induction l generalizing m with
  | nil => exact (List.append_nil _).symm
  | cons e l ih =>
    have hlast : (m.assign e.1 e.2).entries = m.entries ++ [e] :=
      assignEntry_last fun d hd =>
        (List.pairwise_append.1 h).2.2 d hd e List.mem_cons_self
    rw [List.append_cons, ← hlast] at h ⊢
    exact ih (m.assign e.1 e.2) h

/-- A map is what assigning its entries in order makes of the empty map. -/
theorem foldl_assign (m : SortedMap c β) :
    m.entries.foldl (fun m e => m.assign e.1 e.2) empty = m :=
  SortedMap.ext (entries_foldl_assign empty m.sorted)

/-- Entries with the keys of a map in their order are assigned as they are. -/
theorem entries_foldl_assign_of_keys {γ : Type} (m : SortedMap c β) {l : List (κ × γ)}
    (h : l.map Prod.fst = m.entries.map Prod.fst) :
    (l.foldl (fun m e => m.assign e.1 e.2) (empty : SortedMap c γ)).entries = l := by
  have hsorted : (m.entries.map Prod.fst).Pairwise fun a b => c.lt a b :=
    List.pairwise_map.2 m.sorted
  rw [← h, List.pairwise_map] at hsorted
  exact entries_foldl_assign empty hsorted

end SortedMap

end ChargingPile
