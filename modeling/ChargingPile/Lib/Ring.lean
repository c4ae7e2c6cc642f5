import Mathlib.Data.List.Cycle

/-!
# Rings of links

Nodes are linked forwards by a function `next` and backwards by a function `prev`. A list of nodes
is a ring if each of its nodes is linked with the one behind it in both ways, and the last one with
the first. Where a ring begins does not matter. A node is put between the last one and the first,
and a node is taken out, by changing the links at two places.
-/

namespace ChargingPile

variable {α : Type*} {next prev next' prev' : α → α} {a b x : α} {l l₁ l₂ : List α}

/-- Two nodes are linked in both ways. -/
def Links (next prev : α → α) (a b : α) : Prop := next a = b ∧ prev b = a

/-- The nodes of the list are linked with each other, and the last one with the first. -/
def Ring (next prev : α → α) (l : List α) : Prop := (l : Cycle α).Chain (Links next prev)

theorem ring_nil : Ring next prev [] := Cycle.Chain.nil _

theorem ring_singleton : Ring next prev [a] ↔ Links next prev a a := Cycle.chain_singleton _ a

/-- A ring is a chain whose last node is linked with the first. -/
theorem ring_cons : Ring next prev (a :: l) ↔
    (a :: l).IsChain (Links next prev) ∧ ∀ z ∈ (a :: l).getLast?, Links next prev z a := by
  rw [Ring, Cycle.chain_coe_cons, ← List.cons_append, List.isChain_append]
  simp

/-- A ring can begin with any of its nodes. -/
theorem Ring.rotate (l₁ : List α) (h : Ring next prev (l₁ ++ l₂)) : Ring next prev (l₂ ++ l₁) := by
  rwa [Ring, Cycle.coe_eq_coe.2 List.isRotated_append]

/-- Only the links of the nodes of a ring matter. -/
theorem Ring.congr (h : Ring next prev l) (hnext : ∀ y ∈ l, next' y = next y)
    (hprev : ∀ y ∈ l, prev' y = prev y) : Ring next' prev' l := by
  cases l with
  | nil => exact ring_nil
  | cons a l =>
    obtain ⟨hchain, hlast⟩ := ring_cons.1 h
    refine ring_cons.2 ⟨hchain.imp_of_mem_imp fun c d hc hd hlink => ?_, fun z hz => ?_⟩
    · exact ⟨(hnext c hc).trans hlink.1, (hprev d hd).trans hlink.2⟩
    · have hlink := hlast z hz
      have hz := List.mem_of_getLast? hz
      exact ⟨(hnext z hz).trans hlink.1, (hprev a (.head _)).trans hlink.2⟩

/-- The link backwards of a node of a ring leads to a node of the ring, -/
theorem Ring.links_prev (h : Ring next prev l) (ha : a ∈ l) :
    Links next prev (prev a) a ∧ prev a ∈ l := by
  obtain ⟨l₁, l₂, rfl⟩ := List.append_of_mem ha
  have hrotate : Ring next prev (a :: (l₂ ++ l₁)) := h.rotate l₁
  obtain ⟨z, hz⟩ : ∃ z, (a :: (l₂ ++ l₁)).getLast? = some z :=
    ⟨_, List.getLast?_eq_some_getLast (by simp)⟩
  have hlink := (ring_cons.1 hrotate).2 z hz
  have hmem := List.mem_of_getLast? hz
  rw [hlink.2]
  refine ⟨hlink, ?_⟩
  simp only [List.mem_append, List.mem_cons] at hmem ⊢
  tauto

/-- and so does the one forwards. -/
theorem Ring.next_mem (h : Ring next prev l) (ha : a ∈ l) : next a ∈ l := by
  obtain ⟨l₁, l₂, rfl⟩ := List.append_of_mem ha
  -- the ring that begins behind the node ends with it
  have hrotate : Ring next prev (l₂ ++ (l₁ ++ [a])) := by
    refine Ring.rotate (l₁ ++ [a]) ?_
    rwa [List.append_assoc]
  cases hl : l₂ ++ (l₁ ++ [a]) with
  | nil => simp at hl
  | cons b l =>
    rw [hl] at hrotate
    have hlast : (b :: l).getLast? = some a := by
      rw [← hl, ← List.append_assoc, List.getLast?_concat]
    rw [((ring_cons.1 hrotate).2 a hlast).1]
    have hb : b ∈ l₂ ++ (l₁ ++ [a]) := hl ▸ List.mem_cons_self
    simp only [List.mem_append, List.mem_cons] at hb ⊢
    tauto

/-- Nodes that are linked with each other and lead to the same node are the same ones. -/
theorem chain_unique (h : (b :: l₁).IsChain (Links next prev))
    (h' : (b :: l₂).IsChain (Links next prev)) (hlast : ∀ z ∈ (b :: l₁).getLast?, next z = a)
    (hlast' : ∀ z ∈ (b :: l₂).getLast?, next z = a) (hnot : a ∉ l₁) (hnot' : a ∉ l₂) :
    l₁ = l₂ := by
  induction l₁ generalizing b l₂ with
  | nil =>
    have hb : next b = a := hlast b rfl
    cases l₂ with
    | nil => rfl
    | cons c l₂ =>
      have hc : next b = c := (List.isChain_cons_cons.1 h').1.1
      exact absurd (hb ▸ hc ▸ List.mem_cons_self) hnot'
  | cons c l₁ ih =>
    obtain ⟨hc, h⟩ := List.isChain_cons_cons.1 h
    cases l₂ with
    | nil =>
      have hb : next b = a := hlast' b rfl
      exact absurd (hb ▸ hc.1 ▸ List.mem_cons_self) hnot
    | cons d l₂ =>
      obtain ⟨hd, h'⟩ := List.isChain_cons_cons.1 h'
      obtain rfl : c = d := hc.1.symm.trans hd.1
      rw [List.getLast?_cons_cons] at hlast hlast'
      rw [ih h h' hlast hlast' (List.not_mem_of_not_mem_cons hnot)
        (List.not_mem_of_not_mem_cons hnot')]

/-- A ring is determined by its first node and the links. -/
theorem Ring.unique (h : Ring next prev (a :: l₁)) (h' : Ring next prev (a :: l₂))
    (hnodup : (a :: l₁).Nodup) (hnodup' : (a :: l₂).Nodup) : l₁ = l₂ := by
  obtain ⟨hchain, hlast⟩ := ring_cons.1 h
  obtain ⟨hchain', hlast'⟩ := ring_cons.1 h'
  exact chain_unique hchain hchain' (fun z hz => (hlast z hz).1) (fun z hz => (hlast' z hz).1)
    (List.nodup_cons.1 hnodup).1 (List.nodup_cons.1 hnodup').1

/-- A node is put between the last one of a ring and the first. -/
theorem Ring.insert (h : Ring next prev (a :: l)) (hnodup : (a :: l).Nodup)
    (hrear : next' (prev a) = x) (hx' : prev' x = prev a) (hx : Links next' prev' x a)
    (hnext : ∀ y ∈ a :: l, y ≠ prev a → next' y = next y) (hprev : ∀ y ∈ l, prev' y = prev y) :
    Ring next' prev' (a :: (l ++ [x])) := by
  obtain ⟨hchain, hlast⟩ := ring_cons.1 h
  have hinner : (a :: l).IsChain (Links next' prev') := by
    refine hchain.imp_of_mem_tail_imp fun c d hc hd hlink => ⟨?_, (hprev d hd).trans hlink.2⟩
    refine (hnext c hc ?_).trans hlink.1
    -- the link of the last node leads to the first one, which is not behind any other
    rintro rfl
    have hda : a = d := (h.links_prev List.mem_cons_self).1.1.symm.trans hlink.1
    exact (List.nodup_cons.1 hnodup).1 (hda ▸ hd)
  refine ring_cons.2 ⟨?_, fun z hz => ?_⟩
  · rw [← List.cons_append]
    refine hinner.append (List.isChain_singleton x) fun z hz y hy => ?_
    obtain rfl := Option.some.inj hy
    rw [← (hlast z hz).2]
    exact ⟨hrear, hx'⟩
  · rw [← List.cons_append, List.getLast?_concat] at hz
    obtain rfl := Option.some.inj hz
    exact hx

/-- A node is taken out of a ring. -/
theorem Ring.remove (h : Ring next prev (x :: l)) (hnodup : (x :: l).Nodup)
    (hnext' : next' (prev x) = next x) (hprev' : prev' (next x) = prev x)
    (hnext : ∀ y ∈ l, y ≠ prev x → next' y = next y)
    (hprev : ∀ y ∈ l, y ≠ next x → prev' y = prev y) :
    Ring next' prev' l := by
  cases l with
  | nil => exact ring_nil
  | cons b l =>
    obtain ⟨hchain, hlast⟩ := ring_cons.1 h
    obtain ⟨hxb, hchain⟩ := List.isChain_cons_cons.1 hchain
    obtain ⟨hnot, hnodup⟩ := List.nodup_cons.1 hnodup
    refine ring_cons.2 ⟨?_, fun z hz => ?_⟩
    · refine hchain.imp_of_mem_tail_imp fun c d hc hd hlink => ⟨?_, ?_⟩
      · refine (hnext c hc ?_).trans hlink.1
        rintro rfl
        have hxd : x = d := (h.links_prev List.mem_cons_self).1.1.symm.trans hlink.1
        exact hnot (hxd ▸ List.mem_cons_of_mem _ hd)
      · refine (hprev d (List.mem_cons_of_mem _ hd) ?_).trans hlink.2
        rw [hxb.1]
        exact ne_of_mem_of_not_mem hd (List.nodup_cons.1 hnodup).1
    · rw [← hxb.1, ← (hlast z (by rwa [List.getLast?_cons_cons])).2]
      exact ⟨hnext', hprev'⟩

end ChargingPile
