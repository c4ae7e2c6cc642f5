import ChargingPile.Json.Heap
import Mathlib.Data.List.Nodup

/-!
# The shape of a document

A `Forest` is a chain of siblings with all that is below them, and with the addresses of the items,
the way cJSON links them. `Rep` says that it is in memory. A memory has at most one forest at an
address (`Rep.unique`), a forest depends on its own items only (`Rep.congr`), and an element's
payload, children and later siblings can be exchanged in place (`Rep.replace`): all other elements
stay what they are.
-/

namespace ChargingPile.Json

/-- A chain of siblings: the first of them, at `a`, with its name, payload and children, and
those after it. -/
inductive Forest
  | nil
  | cons (a : Addr) (string : Option Text) (p : Payload) (child next : Forest)

/-- The value of an item, given those of its children. -/
def Payload.value (p : Payload) (children : List (Option Text × Value)) : Value :=
  match p.type with
  | .false => .bool false
  | .true => .bool true
  | .null => .null
  | .number => .number p.valueint p.valuedouble
  | .string => .string (p.valuestring.getD [])
  | .array => .array (children.map Prod.snd)
  | .object => .object (children.map fun e => (e.1.getD [], e.2))

namespace Forest

/-- The address of the first element. -/
def head : Forest → Addr
  | nil => 0
  | cons a _ _ _ _ => a

/-- The addresses of all elements. -/
def addrs : Forest → List Addr
  | nil => []
  | cons a _ _ child next => a :: (child.addrs ++ next.addrs)

/-- The names and the values of the elements, which are the document as it is read. -/
def read : Forest → List (Option Text × Value)
  | nil => []
  | cons _ string p child next => (string, p.value child.read) :: next.read

/-- The same elements at other addresses. -/
def Same : Forest → Forest → Prop
  | nil, nil => True
  | cons _ s p child next, cons _ s' p' child' next' =>
    s = s' ∧ p = p' ∧ Same child child' ∧ Same next next'
  | _, _ => False

theorem Same.read {F F' : Forest} (h : Same F F') : F.read = F'.read := by
  induction F generalizing F' with
  | nil =>
    cases F' with
    | nil => rfl
    | cons => exact h.elim
  | cons a s p child next ihc ihn =>
    cases F' with
    | nil => exact h.elim
    | cons a' s' p' child' next' =>
      obtain ⟨rfl, rfl, hchild, hnext⟩ := h
      rw [Forest.read, Forest.read, ihc hchild, ihn hnext]

/-- The element at an address: its payload, its children and its later siblings. -/
def find (a : Addr) : Forest → Option (Payload × Forest × Forest)
  | nil => none
  | cons b _ p child next =>
    if b = a then some (p, child, next) else (child.find a).or (next.find a)

/-- The element at an address is exchanged for one with the same name. -/
def replace : Forest → Addr → Payload → Forest → Forest → Forest
  | nil, _, _, _, _ => nil
  | cons b s q c n, a, p, child, next =>
    if b = a then cons b s p child next
    else cons b s q (c.replace a p child next) (n.replace a p child next)

/-- The elements of one chain behind those of another. -/
def append : Forest → Forest → Forest
  | nil, G => G
  | cons a s p child next, G => cons a s p child (next.append G)

/-- The address of the last element. -/
def last : Forest → Addr
  | nil => 0
  | cons a _ _ _ nil => a
  | cons _ _ _ _ (cons b s p c n) => (cons b s p c n).last

/-- The items of the forest are in memory. -/
def Rep (m : Memory Item) : Forest → Prop
  | nil => True
  | cons a s p child next =>
    a ≠ 0 ∧ (m.get a).map Item.toCell = some ⟨p, s, child.head, next.head⟩ ∧ Rep m child ∧
    Rep m next

variable {F G : Forest} {m m' : Memory Item} {a : Addr} {p q : Payload} {c n c' n' : Forest}

theorem mem_addrs_cons {b : Addr} {s : Option Text} :
    b ∈ (cons a s p c n).addrs ↔ b = a ∨ b ∈ c.addrs ∨ b ∈ n.addrs := by
  simp [addrs]

theorem addrs_append (L D : Forest) : (L.append D).addrs = L.addrs ++ D.addrs := by
  induction L with
  | nil => rfl
  | cons a s p child next _ ih => simp [append, addrs, ih]

theorem Rep.ne_zero (h : F.Rep m) (ha : a ∈ F.addrs) : a ≠ 0 := by
  induction F with
  | nil => cases ha
  | cons b s q child next ihc ihn =>
    obtain ⟨hb, -, hc, hn⟩ := h
    rcases mem_addrs_cons.1 ha with rfl | ha | ha
    · exact hb
    · exact ihc hc ha
    · exact ihn hn ha

theorem Rep.isSome (h : F.Rep m) (ha : a ∈ F.addrs) : (m.get a).isSome := by
  induction F with
  | nil => cases ha
  | cons b s q child next ihc ihn =>
    obtain ⟨-, hcell, hc, hn⟩ := h
    rcases mem_addrs_cons.1 ha with rfl | ha | ha
    · cases hget : m.get a with
      | none => rw [hget] at hcell; cases hcell
      | some => rfl
    · exact ihc hc ha
    · exact ihn hn ha

/-- Only the items of the forest matter, and not their links back. -/
theorem Rep.congr (h : F.Rep m)
    (hget : ∀ a ∈ F.addrs, (m'.get a).map Item.toCell = (m.get a).map Item.toCell) : F.Rep m' := by
  induction F with
  | nil => trivial
  | cons b s q child next ihc ihn =>
    obtain ⟨hb, hcell, hc, hn⟩ := h
    refine ⟨hb, (hget b (mem_addrs_cons.2 (.inl rfl))).trans hcell, ihc hc ?_, ihn hn ?_⟩
    · exact fun a ha => hget a (mem_addrs_cons.2 (.inr (.inl ha)))
    · exact fun a ha => hget a (mem_addrs_cons.2 (.inr (.inr ha)))

/-- There is one forest at an address. -/
theorem Rep.unique (h : F.Rep m) (h' : G.Rep m) (hhead : F.head = G.head) : F = G := by
  induction F generalizing G with
  | nil =>
    cases G with
    | nil => rfl
    | cons => exact absurd hhead.symm h'.1
  | cons a s p child next ihc ihn =>
    cases G with
    | nil => exact absurd hhead h.1
    | cons b t q child' next' =>
      obtain rfl : a = b := hhead
      obtain ⟨-, hcell, hc, hn⟩ := h
      obtain ⟨-, hcell', hc', hn'⟩ := h'
      obtain ⟨rfl, rfl, hchild, hnext⟩ : p = q ∧ s = t ∧ child.head = child'.head ∧
          next.head = next'.head := by
        simpa using hcell.symm.trans hcell'
      rw [ihc hc hc' hchild, ihn hn hn' hnext]

theorem find_eq_none (ha : a ∉ F.addrs) : F.find a = none := by
  induction F with
  | nil => rfl
  | cons b s q child next ihc ihn =>
    simp only [mem_addrs_cons, not_or] at ha
    rw [find, if_neg (Ne.symm ha.1), ihc ha.2.1, ihn ha.2.2]
    rfl

theorem replace_of_notMem (ha : a ∉ F.addrs) : F.replace a p c n = F := by
  induction F with
  | nil => rfl
  | cons b s q child next ihc ihn =>
    simp only [mem_addrs_cons, not_or] at ha
    rw [replace, if_neg (Ne.symm ha.1), ihc ha.2.1, ihn ha.2.2]

theorem head_replace : (F.replace a p c n).head = F.head := by
  cases F with
  | nil => rfl
  | cons b s q child next =>
    rw [replace]
    split
    all_goals rfl

theorem find_append (ha : a ∉ F.addrs) : (F.append G).find a = G.find a := by
  induction F with
  | nil => rfl
  | cons b s q child next _ ihn =>
    simp only [mem_addrs_cons, not_or] at ha
    rw [append, find, if_neg (Ne.symm ha.1), find_eq_none ha.2.1, Option.none_or, ihn ha.2.2]

theorem find_isSome (ha : a ∈ F.addrs) : (F.find a).isSome := by
  induction F with
  | nil => cases ha
  | cons b s q child next ihc ihn =>
    rw [find]
    split
    · rfl
    · rename_i hne
      rw [Option.isSome_or, Bool.or_eq_true]
      exact ((mem_addrs_cons.1 ha).resolve_left (Ne.symm hne)).imp ihc ihn

theorem nodup_cons {s : Option Text} : (cons a s p c n).addrs.Nodup ↔
    a ∉ c.addrs ∧ a ∉ n.addrs ∧ c.addrs.Nodup ∧ n.addrs.Nodup ∧ c.addrs.Disjoint n.addrs := by
  rw [addrs, List.nodup_cons, List.nodup_append', List.mem_append, not_or, and_assoc]

/-- What is found is found below the first element, or behind it. -/
theorem find_cons {b : Addr} {s : Option Text} (hb : b ≠ a)
    (h : (cons b s q c' n').find a = some (p, c, n)) :
    c'.find a = some (p, c, n) ∨ a ∉ c'.addrs ∧ n'.find a = some (p, c, n) := by
  rw [find, if_neg hb] at h
  rcases Option.or_eq_some_iff.1 h with h | ⟨hnone, h⟩
  · exact .inl h
  · refine .inr ⟨fun ha => ?_, h⟩
    have := find_isSome ha
    rw [hnone] at this
    cases this

theorem mem_of_find (h : F.find a = some (p, c, n)) : a ∈ F.addrs := by
  by_contra ha
  cases (find_eq_none ha).symm.trans h

theorem perm_child {b : Addr} {l l₁ r k : List Addr} (h : l.Perm (l₁ ++ r)) :
    (b :: (l ++ k)).Perm (l₁ ++ b :: (r ++ k)) := by
  rw [List.perm_iff_count] at h ⊢
  intro x
  have hx := h x
  simp only [List.count_cons, List.count_append] at hx ⊢
  omega

theorem perm_next {b : Addr} {l l₁ r k : List Addr} (h : l.Perm (l₁ ++ r)) :
    (b :: (k ++ l)).Perm (l₁ ++ b :: (k ++ r)) := by
  rw [List.perm_iff_count] at h ⊢
  intro x
  have hx := h x
  simp only [List.count_cons, List.count_append] at hx ⊢
  omega

/-- The addresses of a forest are those of an element, of what is below and behind it, and others,
which stay when the element is exchanged. -/
theorem perm_of_find (h : F.find a = some (p, c, n)) (hnodup : F.addrs.Nodup) :
    ∃ rest, F.addrs.Perm (a :: (c.addrs ++ n.addrs) ++ rest) ∧
      ∀ q c' n', (F.replace a q c' n').addrs.Perm (a :: (c'.addrs ++ n'.addrs) ++ rest) := by
  induction F with
  | nil => cases h
  | cons b s q child next ihc ihn =>
    obtain ⟨-, -, hchild, hnext, hdisj⟩ := nodup_cons.1 hnodup
    rcases eq_or_ne b a with rfl | hne
    · obtain ⟨rfl, rfl, rfl⟩ : q = p ∧ child = c ∧ next = n := by simpa [find] using h
      exact ⟨[], by simp [addrs], fun q c' n' => by simp [replace, addrs]⟩
    rcases find_cons hne h with h | ⟨ha, h⟩
    · obtain ⟨rest, hperm, hreplace⟩ := ihc h hchild
      have ha : a ∉ next.addrs := fun ha => hdisj (mem_of_find h) ha
      refine ⟨b :: (rest ++ next.addrs), perm_child hperm, fun q' c' n' => ?_⟩
      rw [replace, if_neg hne, replace_of_notMem ha]
      exact perm_child (hreplace q' c' n')
    · obtain ⟨rest, hperm, hreplace⟩ := ihn h hnext
      refine ⟨b :: (child.addrs ++ rest), perm_next hperm, fun q' c' n' => ?_⟩
      rw [replace, if_neg hne, replace_of_notMem ha]
      exact perm_next (hreplace q' c' n')

/-- Elements are added behind the children of an element. -/
theorem addrs_replace_append (h : F.find a = some (p, c, n)) (hnodup : F.addrs.Nodup) :
    (F.replace a q (c.append G) n).addrs.Perm (G.addrs ++ F.addrs) := by
  obtain ⟨rest, hperm, hreplace⟩ := perm_of_find h hnodup
  refine (hreplace q _ n).trans (List.Perm.trans ?_ (hperm.append_left G.addrs).symm)
  rw [addrs_append, List.perm_iff_count]
  intro x
  simp only [List.count_cons, List.count_append]
  omega

/-- What is below and behind an element is part of the forest. -/
theorem subset_of_find (h : F.find a = some (p, c, n)) (hnodup : F.addrs.Nodup) :
    c.addrs ⊆ F.addrs ∧ n.addrs ⊆ F.addrs := by
  obtain ⟨rest, hperm, -⟩ := perm_of_find h hnodup
  refine ⟨fun b hb => hperm.mem_iff.2 ?_, fun b hb => hperm.mem_iff.2 ?_⟩
  · simp [hb]
  · simp [hb]

theorem length_lt_of_find (h : F.find a = some (p, c, n)) (hnodup : F.addrs.Nodup) :
    c.addrs.length < F.addrs.length := by
  obtain ⟨rest, hperm, -⟩ := perm_of_find h hnodup
  have hlength := hperm.length_eq
  simp only [List.cons_append, List.length_cons, List.length_append] at hlength
  omega

/-- An element is exchanged in memory: its item has another payload and other links, and all other
items that stay are as they were. -/
theorem Rep.replace (h : F.Rep m) (hnodup : F.addrs.Nodup) (hfind : F.find a = some (p, c, n))
    (hcell : ∀ cell, (m.get a).map Item.toCell = some cell →
      (m'.get a).map Item.toCell = some ⟨q, cell.string, c'.head, n'.head⟩)
    (hother : ∀ b ∈ F.addrs, b ≠ a → b ∉ c.addrs → b ∉ n.addrs →
      (m'.get b).map Item.toCell = (m.get b).map Item.toCell)
    (hc : c'.Rep m') (hn : n'.Rep m') : (F.replace a q c' n').Rep m' := by
  induction F with
  | nil => cases hfind
  | cons b s r child next ihc ihn =>
    obtain ⟨hb, hitem, hchild, hnext⟩ := h
    obtain ⟨hbc, hbn, hnc, hnn, hdisj⟩ := nodup_cons.1 hnodup
    rcases eq_or_ne b a with rfl | hne
    · rw [Forest.replace, if_pos rfl]
      exact ⟨hb, hcell _ hitem, hc, hn⟩
    rw [Forest.replace, if_neg hne]
    rcases find_cons hne hfind with hfind | ⟨ha, hfind⟩
    · obtain ⟨hsubc, hsubn⟩ := subset_of_find hfind hnc
      have ha : a ∉ next.addrs := fun ha => hdisj (mem_of_find hfind) ha
      rw [replace_of_notMem ha]
      refine ⟨hb, ?_, ihc hchild hnc hfind ?_, hnext.congr ?_⟩
      · rw [head_replace, hother b (mem_addrs_cons.2 (.inl rfl)) hne (fun h => hbc (hsubc h))
          fun h => hbc (hsubn h)]
        exact hitem
      · exact fun x hx => hother x (mem_addrs_cons.2 (.inr (.inl hx)))
      · intro x hx
        refine hother x (mem_addrs_cons.2 (.inr (.inr hx))) ?_ (fun h => hdisj (hsubc h) hx)
          fun h => hdisj (hsubn h) hx
        rintro rfl
        exact ha hx
    · obtain ⟨hsubc, hsubn⟩ := subset_of_find hfind hnn
      rw [replace_of_notMem ha]
      refine ⟨hb, ?_, hchild.congr ?_, ihn hnext hnn hfind ?_⟩
      · rw [head_replace, hother b (mem_addrs_cons.2 (.inl rfl)) hne (fun h => hbn (hsubc h))
          fun h => hbn (hsubn h)]
        exact hitem
      · intro x hx
        refine hother x (mem_addrs_cons.2 (.inr (.inl hx))) ?_ (fun h => hdisj hx (hsubc h))
          fun h => hdisj hx (hsubn h)
        rintro rfl
        exact ha hx
      · exact fun x hx => hother x (mem_addrs_cons.2 (.inr (.inr hx)))

theorem find_replace (h : F.find a = some (p, c, n)) (hnodup : F.addrs.Nodup) :
    (F.replace a q c' n').find a = some (q, c', n') := by
  induction F with
  | nil => cases h
  | cons b s r child next ihc ihn =>
    obtain ⟨-, -, hchild, hnext, hdisj⟩ := nodup_cons.1 hnodup
    rcases eq_or_ne b a with rfl | hne
    · rw [Forest.replace, if_pos rfl, find, if_pos rfl]
    rw [Forest.replace, if_neg hne, find, if_neg hne]
    rcases find_cons hne h with h | ⟨ha, h⟩
    · rw [ihc h hchild, Option.some_or]
    · rw [replace_of_notMem ha, find_eq_none ha, Option.none_or, ihn h hnext]

/-- An element below another one. -/
theorem find_child {w : Addr} (h : F.find w = some (p, c, n)) (hnodup : F.addrs.Nodup)
    {r : Payload × Forest × Forest} (ha : c.find a = some r) : F.find a = some r := by
  obtain ⟨q, c', n'⟩ := r
  induction F with
  | nil => cases h
  | cons b s r child next ihc ihn =>
    obtain ⟨hbc, hbn, hchild, hnext, hdisj⟩ := nodup_cons.1 hnodup
    have hac := mem_of_find ha
    rcases eq_or_ne b w with rfl | hne
    · obtain ⟨rfl, rfl, rfl⟩ : r = p ∧ child = c ∧ next = n := by simpa [find] using h
      rw [find, if_neg (ne_of_mem_of_not_mem hac hbc).symm, ha, Option.some_or]
    rcases find_cons hne h with h | ⟨-, h⟩
    · have hmem := (subset_of_find h hchild).1 hac
      rw [find, if_neg (ne_of_mem_of_not_mem hmem hbc).symm, ihc h hchild, Option.some_or]
    · have hmem := (subset_of_find h hnext).1 hac
      rw [find, if_neg (ne_of_mem_of_not_mem hmem hbn).symm, find_eq_none fun h => hdisj h hmem,
        Option.none_or, ihn h hnext]

/-- Addresses that are not in a forest may come in below an element. -/
theorem nodup_replace (h : F.find a = some (p, c, n)) (hnodup : F.addrs.Nodup)
    (hc' : c'.addrs.Nodup) (hnew : ∀ b ∈ c'.addrs, b ∈ F.addrs → b ∈ c.addrs)
    (hn' : n'.addrs.Nodup) (hsub : n'.addrs ⊆ n.addrs) : (F.replace a q c' n').addrs.Nodup := by
  obtain ⟨rest, hperm, hreplace⟩ := perm_of_find h hnodup
  rw [(hreplace q c' n').nodup_iff]
  have hall := hperm.nodup_iff.1 hnodup
  have hmem : ∀ b, b ∈ F.addrs ↔ b = a ∨ b ∈ c.addrs ∨ b ∈ n.addrs ∨ b ∈ rest := fun b => by
    rw [hperm.mem_iff]
    simp
  simp only [List.cons_append, List.nodup_cons, List.nodup_append', List.mem_append, not_or,
    List.disjoint_append_left] at hall ⊢
  obtain ⟨⟨⟨hac, han⟩, har⟩, ⟨-, -, hcn⟩, hr, hcr, hnr⟩ := hall
  refine ⟨⟨⟨fun hb => hac (hnew a hb ((hmem a).2 (.inl rfl))), fun hb => han (hsub hb)⟩, har⟩,
    ⟨hc', hn', fun b hb hbn => ?_⟩, hr, fun b hb hbr => ?_, fun b hb hbr => hnr (hsub hb) hbr⟩
  · exact hcn (hnew b hb ((hmem b).2 (.inr (.inr (.inl (hsub hbn)))))) (hsub hbn)
  · exact hcr (hnew b hb ((hmem b).2 (.inr (.inr (.inr hbr))))) hbr

end Forest

/-- A document in memory. No item is in two of its places. -/
structure Document (m : Memory Item) (F : Forest) : Prop where
  rep : F.Rep m
  nodup : F.addrs.Nodup

namespace Document

variable {F : Forest} {m m' : Memory Item} {a : Addr} {p : Payload} {c n : Forest}

/-- An element with what is below and behind it is a document too. -/
theorem of_find (h : Document m F) (hfind : F.find a = some (p, c, n)) :
    ∃ s, Document m (.cons a s p c n) := by
  suffices ∃ s, (Forest.cons a s p c n).Rep m by
    obtain ⟨rest, hperm, -⟩ := Forest.perm_of_find hfind h.nodup
    obtain ⟨s, hs⟩ := this
    exact ⟨s, hs, (hperm.nodup_iff.1 h.nodup).sublist (List.sublist_append_left ..)⟩
  obtain ⟨hrep, hnodup⟩ := h
  induction F with
  | nil => cases hfind
  | cons b s q child next ihc ihn =>
    obtain ⟨-, -, hchild, hnext⟩ := id hrep
    obtain ⟨-, -, hnc, hnn, -⟩ := Forest.nodup_cons.1 hnodup
    rcases eq_or_ne b a with rfl | hne
    · obtain ⟨rfl, rfl, rfl⟩ : q = p ∧ child = c ∧ next = n := by simpa [Forest.find] using hfind
      exact ⟨s, hrep⟩
    rcases Forest.find_cons hne hfind with hfind | ⟨-, hfind⟩
    · exact ihc hfind hchild hnc
    · exact ihn hfind hnext hnn

theorem child {s : Option Text} (h : Document m (.cons a s p c n)) : Document m c :=
  ⟨h.rep.2.2.1, (Forest.nodup_cons.1 h.nodup).2.2.1⟩

theorem next {s : Option Text} (h : Document m (.cons a s p c n)) : Document m n :=
  ⟨h.rep.2.2.2, (Forest.nodup_cons.1 h.nodup).2.2.2.1⟩

theorem congr (h : Document m F) (hget : ∀ b ∈ F.addrs, m'.get b = m.get b) : Document m' F :=
  ⟨h.rep.congr fun b hb => by rw [hget b hb], h.nodup⟩

/-- An element is exchanged in memory, and nothing but what was below and behind it is lost. -/
theorem replace {q : Payload} {c' n' : Forest} {s : Option Text} (h : Document m F)
    (hfind : F.find a = some (p, c, n)) (hs : Document m (.cons a s p c n))
    (hcell : (m'.get a).map Item.toCell = some ⟨q, s, c'.head, n'.head⟩)
    (hother : ∀ b ∈ F.addrs, b ≠ a → b ∉ c.addrs → b ∉ n.addrs → m'.get b = m.get b)
    (hc' : Document m' c') (hnew : ∀ b ∈ c'.addrs, b ∈ F.addrs → b ∈ c.addrs)
    (hn' : Document m' n') (hsub : n'.addrs ⊆ n.addrs) : Document m' (F.replace a q c' n') := by
  refine ⟨h.rep.replace h.nodup hfind (fun cell hget => ?_) (fun b hb hba hbc hbn => ?_) hc'.rep
    hn'.rep, Forest.nodup_replace hfind h.nodup hc'.nodup hnew hn'.nodup hsub⟩
  · obtain rfl := Option.some.inj (hget.symm.trans hs.rep.2.1)
    exact hcell
  · rw [hother b hb hba hbc hbn]

end Document

end ChargingPile.Json
