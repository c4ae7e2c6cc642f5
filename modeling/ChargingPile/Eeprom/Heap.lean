import ChargingPile.Eeprom.Direct
import ChargingPile.Lib.Intervals
import ChargingPile.Lib.Ring

/-!
# The blocks of the heap

A memory represents a heap (`Heap`) if the lists of the idle and of the allocated blocks are
rings, and the blocks of both lists together follow each other from the end of the metadata to the
end of the device.

An operation on a list only writes its front and the links of its nodes (`Relinks`), so it keeps
the other list, the magic number and the sizes of all blocks. `Lists` is what each step of `alloc`
keeps: a size is changed, a block is removed and added, a header is written. With the sizes this
gives `Heap.takeBlock`: one block becomes two.
-/

namespace ChargingPile.Eeprom.Direct

open Intervals

variable {cfg : Config} {v w : Nat → UInt8} {list list' a k x y size : Nat}
  {l l' s l₁ l₂ : List Nat}

/-! ## Headers -/

/-- Headers behind the metadata, no two of which overlap. -/
structure Spaced (s : List Nat) : Prop where
  bound : ∀ x ∈ s, 12 ≤ x
  apart : ∀ x ∈ s, ∀ y ∈ s, x = y ∨ x + 6 ≤ y ∨ y + 6 ≤ x

theorem Spaced.mono (h : Spaced s) (hl : l ⊆ s) : Spaced l :=
  ⟨fun x hx => h.bound x (hl hx), fun x hx y hy => h.apart x (hl hx) y (hl hy)⟩

/-- None of the bytes belongs to the links of a node. -/
def Away (l : List Nat) (a k : Nat) : Prop := ∀ x ∈ l, a + k ≤ x + 2 ∨ x + 6 ≤ a

/-- The header of another node, -/
theorem Spaced.away (h : Spaced s) (hl : l ⊆ s) (hy : y ∈ s) (hnot : y ∉ l) (ha : y ≤ a)
    (hk : a + k ≤ y + 6) : Away l a k := by
  intro x hx
  rcases h.apart x (hl hx) y hy with rfl | hxy
  · exact absurd hx hnot
  · omega

/-- the size of any node, -/
theorem Spaced.away_size (h : Spaced s) (hl : l ⊆ s) (hy : y ∈ s) : Away l y 2 := by
  intro x hx
  rcases h.apart x (hl hx) y hy with rfl | hxy
  · exact .inl (Nat.le_refl _)
  · omega

/-- and the metadata do not. -/
theorem Spaced.away_meta (h : Spaced l) (hk : a + k ≤ 12) : Away l a k := by
  intro x hx
  have := h.bound x hx
  omega

/-- Only the front of a list and the links of some nodes change. -/
def Relinks (v w : Nat → UInt8) (list : Nat) (l : List Nat) : Prop :=
  ∀ a k, a + k ≤ list ∨ list + 2 ≤ a → Away l a k → peek w a k = peek v a k

/-! ## Lists -/

/-- `next` of a node. -/
def next (v : Nat → UInt8) (node : Nat) : Nat := peek v (node + heapNode.next) 2

/-- `prev` of a node. -/
def prev (v : Nat → UInt8) (node : Nat) : Nat := peek v (node + heapNode.prev) 2

section
variable {c : Nat} (h : c = x ∨ c + 6 ≤ x ∨ x + 6 ≤ c)
include h

theorem next_poke_next (hy : y < 65536) :
    next (poke v (x + heapNode.next) 2 y) c = if c = x then y else next v c := by
  rcases h with rfl | h
  · rw [if_pos rfl, next, peek_poke_self]
    exact Nat.mod_eq_of_lt hy
  · rw [if_neg (by omega), next, next, peek_poke_of_apart]
    simp only [heapNode]
    omega

theorem prev_poke_prev (hy : y < 65536) :
    prev (poke v (x + heapNode.prev) 2 y) c = if c = x then y else prev v c := by
  rcases h with rfl | h
  · rw [if_pos rfl, prev, peek_poke_self]
    exact Nat.mod_eq_of_lt hy
  · rw [if_neg (by omega), prev, prev, peek_poke_of_apart]
    simp only [heapNode]
    omega

theorem next_poke_prev : next (poke v (x + heapNode.prev) 2 y) c = next v c := by
  rw [next, next, peek_poke_of_apart]
  simp only [heapNode]
  omega

theorem prev_poke_next : prev (poke v (x + heapNode.next) 2 y) c = prev v c := by
  rw [prev, prev, peek_poke_of_apart]
  simp only [heapNode]
  omega

end

/-- The nodes of the list whose `front` is at `list`. -/
structure Listed (v : Nat → UInt8) (list : Nat) (l : List Nat) : Prop where
  front : peek v list 2 = l.headD null
  ring : Ring (next v) (prev v) l
  null : null ∉ l

namespace Listed

theorem congr (h : Listed v list l) (hfront : peek w list 2 = peek v list 2)
    (hlinks : ∀ x ∈ l, ∀ a, a = x + 2 ∨ a = x + 4 → peek w a 2 = peek v a 2) : Listed w list l :=
  ⟨hfront.trans h.front, h.ring.congr (fun x hx => hlinks x hx _ (.inr rfl))
    fun x hx => hlinks x hx _ (.inl rfl), h.null⟩

/-- The nodes of a list have addresses. -/
theorem lt_null (h : Listed v list l) (hx : x ∈ l) : x < Eeprom.null := by
  have hlt : next v (prev v x) < 65536 := peek_lt v _ 2
  rw [(h.ring.links_prev hx).1.1] at hlt
  have hne : x ≠ 0xffff := ne_of_mem_of_not_mem hx h.null
  rw [Eeprom.null]
  omega

/-- A list is not changed with another one. -/
theorem of_relinks (h : Listed v list' l') (hw : Relinks v w list l) (hs : Spaced s) (hl : l ⊆ s)
    (hl' : l' ⊆ s) (hdisj : ∀ y ∈ l', y ∉ l) (hlist : list + 2 ≤ 12) (hlist' : list' + 2 ≤ 12)
    (hlists : list' + 2 ≤ list ∨ list + 2 ≤ list') : Listed w list' l' := by
  refine h.congr (hw _ _ hlists ((hs.mono hl).away_meta hlist')) fun y hy a ha => hw _ _ ?_ ?_
  · have := hs.bound y (hl' hy)
    omega
  · exact hs.away hl (hl' hy) (hdisj y hy) (by omega) (by omega)

/-- A memory has one list. -/
theorem unique (h : Listed v list l) (h' : Listed v list l') (hnodup : l.Nodup)
    (hnodup' : l'.Nodup) :
    l = l' := by
  have hfront := h.front.symm.trans h'.front
  cases l with
  | nil =>
    cases l' with
    | nil => rfl
    | cons b l' =>
      have hb : Eeprom.null = b := hfront
      exact absurd (hb ▸ List.mem_cons_self) h'.null
  | cons a l =>
    cases l' with
    | nil =>
      have ha : a = Eeprom.null := hfront
      exact absurd (ha ▸ List.mem_cons_self) h.null
    | cons b l' =>
      obtain rfl : a = b := hfront
      rw [h.ring.unique h'.ring hnodup hnodup']

/-! ### `List::add` -/

theorem add_nil (h : Listed v list []) : add heapNode v list x = single heapNode v list x :=
  if_pos h.front

theorem add_cons (h : Listed v list (y :: l)) :
    add heapNode v list x = linked heapNode v y (prev v y) x := by
  have hne : y ≠ Eeprom.null := ne_of_mem_of_not_mem List.mem_cons_self h.null
  have hfront : peek v list 2 = y := h.front
  rw [add, hfront]
  exact if_neg hne

theorem relinks_add (h : Listed v list l) : Relinks v (add heapNode v list x) list (x :: l) := by
  intro a k hlist haway
  have hx := haway x List.mem_cons_self
  cases l with
  | nil =>
    rw [h.add_nil]
    simp (disch := omega) only [single, heapNode, peek_poke_of_apart]
  | cons y l =>
    have hy := haway y (by simp)
    have hz := haway (prev v y) (List.mem_cons_of_mem _ (h.ring.links_prev List.mem_cons_self).2)
    rw [h.add_cons]
    simp (disch := omega) only [linked, heapNode, peek_poke_of_apart]

/-- The links after a node has been put between the last one and the first. -/
theorem links_linked {c rear : Nat} (hs : Spaced s) (hx : x ∈ s) (hy : y ∈ s) (hrear : rear ∈ s)
    (hc : c ∈ s) (hxlt : x < 65536) (hylt : y < 65536) (hrearlt : rear < 65536) :
    next (linked heapNode v y rear x) c = (if c = x then y else if c = rear then x else next v c) ∧
    prev (linked heapNode v y rear x) c = if c = y then x else if c = x then rear
      else prev v c := by
  have hcx := hs.apart c hc x hx
  have hcy := hs.apart c hc y hy
  have hcrear := hs.apart c hc rear hrear
  rw [linked]
  constructor
  · rw [next_poke_next hcx hylt, next_poke_prev hcy, next_poke_prev hcx,
      next_poke_next hcrear hxlt]
  · rw [prev_poke_next hcx, prev_poke_prev hcy hxlt, prev_poke_prev hcx hrearlt,
      prev_poke_next hcrear]

/-- A node is added at the end. -/
theorem add (h : Listed v list l) (hs : Spaced (x :: l)) (hnodup : (x :: l).Nodup)
    (hx : x < Eeprom.null) (hlist : list + 2 ≤ 12) :
    Listed (Direct.add heapNode v list x) list (l ++ [x]) := by
  have hnull : Eeprom.null = 65535 := rfl
  have hxs : x ∈ x :: l := List.mem_cons_self
  have hx12 := hs.bound x hxs
  obtain ⟨hnot, hnodup⟩ := List.nodup_cons.1 hnodup
  have hnull' : Eeprom.null ∉ l ++ [x] :=
    List.not_mem_append h.null (by simpa using (Nat.ne_of_lt hx).symm)
  cases l with
  | nil =>
    have hmod : x % 256 ^ 2 = x := Nat.mod_eq_of_lt (by omega)
    rw [h.add_nil]
    refine ⟨?_, ring_singleton.2 ⟨?_, ?_⟩, hnull'⟩
    · simp (disch := omega) only [single, heapNode, peek_poke_of_apart, peek_poke_self, hmod]
      rfl
    · simp (disch := omega) only [next, single, heapNode, peek_poke_of_apart, peek_poke_self, hmod]
    · simp (disch := omega) only [prev, single, heapNode, peek_poke_self, hmod]
  | cons y l =>
    have hlt {c : Nat} (hc : c ∈ y :: l) : c < 65536 :=
      Nat.lt_of_lt_of_le (h.lt_null hc) (by decide)
    have hys : y ∈ y :: l := List.mem_cons_self
    obtain ⟨-, hrears⟩ := h.ring.links_prev hys
    have hlinks {c : Nat} (hc : c ∈ x :: y :: l) := links_linked (v := v) hs hxs (.tail _ hys)
      (.tail _ hrears) hc (by omega) (hlt hys) (hlt hrears)
    have hne {c : Nat} (hc : c ∈ y :: l) : c ≠ x := ne_of_mem_of_not_mem hc hnot
    rw [h.add_cons]
    refine ⟨?_, h.ring.insert hnodup ?_ ?_ ⟨?_, ?_⟩ (fun c hc hcr => ?_) (fun c hc => ?_), hnull'⟩
    · have hy12 := hs.bound y (.tail _ hys)
      have hrear12 := hs.bound (prev v y) (.tail _ hrears)
      refine Eq.trans ?_ h.front
      simp (disch := omega) only [linked, heapNode, peek_poke_of_apart]
    · rw [(hlinks (.tail _ hrears)).1, if_neg (hne hrears), if_pos rfl]
    · rw [(hlinks hxs).2, if_neg (hne hys).symm, if_pos rfl]
    · rw [(hlinks hxs).1, if_pos rfl]
    · rw [(hlinks (.tail _ hys)).2, if_pos rfl]
    · rw [(hlinks (.tail _ hc)).1, if_neg (hne hc), if_neg hcr]
    · have hcy : c ≠ y := ne_of_mem_of_not_mem hc (List.nodup_cons.1 hnodup).1
      rw [(hlinks (.tail _ (.tail _ hc))).2, if_neg hcy, if_neg (hne (.tail _ hc))]

/-! ### `List::remove` -/

theorem peek_removeFront (hlist : a + k ≤ list ∨ list + 2 ≤ a) :
    peek (removeFront heapNode v list x) a k = peek v a k := by
  rw [removeFront]
  split
  next =>
    dsimp only
    split
    next => exact peek_poke_of_apart hlist
    next => exact peek_poke_of_apart hlist
  next => rfl

theorem remove_eq (hlist : list + 2 ≤ x) : Direct.remove heapNode v list x =
    poke (poke (removeFront heapNode v list x) (prev v x + heapNode.next) 2 (next v x))
      (next v x + heapNode.prev) 2 (prev v x) := by
  rw [Direct.remove, peek_removeFront (by omega), peek_removeFront (by omega)]
  rfl

theorem relinks_remove (h : Listed v list l) (hx : x ∈ l) (hlist : list + 2 ≤ x) :
    Relinks v (Direct.remove heapNode v list x) list l := by
  intro a k ha haway
  have hprev := haway _ (h.ring.links_prev hx).2
  have hnext := haway _ (h.ring.next_mem hx)
  rw [remove_eq hlist]
  simp (disch := omega) only [heapNode, peek_poke_of_apart]
  exact peek_removeFront ha

/-- The front of the list is the first one of the nodes that remain. -/
theorem front_removeFront (h : Listed v list (l₁ ++ x :: l₂)) (hnodup : (l₁ ++ x :: l₂).Nodup) :
    peek (removeFront heapNode v list x) list 2 = (l₁ ++ l₂).headD Eeprom.null := by
  have hlt : next v x < 65536 := peek_lt v _ 2
  cases l₁ with
  | cons c l₁ =>
    have hfront : peek v list 2 = c := h.front
    have hne : c ≠ x := fun heq => (List.nodup_cons.1 hnodup).1 (by simp [heq])
    rw [removeFront, hfront, if_neg hne, hfront]
    rfl
  | nil =>
    have hfront : peek v list 2 = x := h.front
    rw [removeFront, hfront, if_pos rfl]
    change peek (if x = next v x then _ else poke v list 2 (next v x)) list 2 = _
    cases l₂ with
    | nil =>
      rw [(ring_singleton.1 h.ring).1, if_pos rfl, peek_poke_self]
      rfl
    | cons b l₂ =>
      have hb : next v x = b := (List.isChain_cons_cons.1 (ring_cons.1 h.ring).1).1.1
      have hne : x ≠ b := fun heq => (List.nodup_cons.1 hnodup).1 (by simp [heq])
      rw [hb] at hlt ⊢
      rw [if_neg hne, peek_poke_self]
      exact Nat.mod_eq_of_lt hlt

/-- The links after a node has been removed. -/
theorem links_remove {c : Nat} (h : Listed v list l) (hs : Spaced l) (hx : x ∈ l)
    (hlist : list + 2 ≤ 12) (hc : c ∈ l) :
    next (Direct.remove heapNode v list x) c = (if c = prev v x then next v x else next v c) ∧
    prev (Direct.remove heapNode v list x) c = if c = next v x then prev v x else prev v c := by
  have hx12 := hs.bound x hx
  have hc12 := hs.bound c hc
  have hprev := hs.apart c hc _ (h.ring.links_prev hx).2
  have hnext := hs.apart c hc _ (h.ring.next_mem hx)
  have hprevlt : prev v x < 65536 := peek_lt v _ 2
  have hnextlt : next v x < 65536 := peek_lt v _ 2
  have hnext' : next (removeFront heapNode v list x) c = next v c := peek_removeFront (by omega)
  have hprev' : prev (removeFront heapNode v list x) c = prev v c := peek_removeFront (by omega)
  rw [remove_eq (by omega)]
  constructor
  · rw [next_poke_prev hnext, next_poke_next hprev hnextlt, hnext']
  · rw [prev_poke_prev hnext hprevlt, prev_poke_next hprev, hprev']

/-- A node is removed. -/
theorem remove (h : Listed v list (l₁ ++ x :: l₂)) (hs : Spaced (l₁ ++ x :: l₂))
    (hnodup : (l₁ ++ x :: l₂).Nodup) (hlist : list + 2 ≤ 12) :
    Listed (Direct.remove heapNode v list x) list (l₁ ++ l₂) := by
  have hx : x ∈ l₁ ++ x :: l₂ := by simp
  have hprev := (h.ring.links_prev hx).2
  have hnext := h.ring.next_mem hx
  have hsub : l₂ ++ l₁ ⊆ l₁ ++ x :: l₂ := fun c hc => by
    simp only [List.mem_append, List.mem_cons] at hc ⊢
    tauto
  have hring : Ring (Direct.next (Direct.remove heapNode v list x))
      (Direct.prev (Direct.remove heapNode v list x)) (l₂ ++ l₁) := by
    have hrotate : Ring (next v) (prev v) (x :: (l₂ ++ l₁)) := h.ring.rotate l₁
    have hnodup' : (x :: (l₂ ++ l₁)).Nodup := List.perm_append_comm.nodup_iff.1 hnodup
    refine hrotate.remove hnodup' ?_ ?_ (fun c hc hne => ?_) (fun c hc hne => ?_)
    · rw [(h.links_remove hs hx hlist hprev).1, if_pos rfl]
    · rw [(h.links_remove hs hx hlist hnext).2, if_pos rfl]
    · rw [(h.links_remove hs hx hlist (hsub hc)).1, if_neg hne]
    · rw [(h.links_remove hs hx hlist (hsub hc)).2, if_neg hne]
  refine ⟨?_, hring.rotate l₂, fun hnull => h.null (hsub ?_)⟩
  · have hx12 := hs.bound _ hx
    have hprev12 := hs.bound _ hprev
    have hnext12 := hs.bound _ hnext
    rw [← h.front_removeFront hnodup, remove_eq (by omega)]
    simp (disch := omega) only [peek_poke_of_apart]
  · exact List.perm_append_comm.mem_iff.1 hnull

end Listed

/-! ## A block is taken -/

/-- The magic number and the sizes of blocks are not changed. -/
def Kept (v w : Nat → UInt8) (s : List Nat) : Prop :=
  peek w 0 4 = peek v 0 4 ∧ ∀ y ∈ s, peek w y 2 = peek v y 2

theorem Kept.trans {u : Nat → UInt8} (h : Kept u v s) (h' : Kept v w s) : Kept u w s :=
  ⟨h'.1.trans h.1, fun y hy => (h'.2 y hy).trans (h.2 y hy)⟩

theorem Kept.mono (h : Kept v w s) (hl : l ⊆ s) : Kept v w l := ⟨h.1, fun y hy => h.2 y (hl hy)⟩

theorem Relinks.kept (h : Relinks v w list l) (hs : Spaced s) (hl : l ⊆ s) (hlist : 4 ≤ list)
    (hlist' : list + 2 ≤ 12) : Kept v w s := by
  refine ⟨h 0 4 (.inl hlist) ((hs.mono hl).away_meta (by omega)), fun y hy => ?_⟩
  have := hs.bound y hy
  exact h y 2 (.inr (by omega)) (hs.away_size hl hy)

/-- Two lists of headers that do not overlap. -/
structure Lists (v : Nat → UInt8) (idle alloc : List Nat) : Prop where
  idleListed : Listed v 4 idle
  allocListed : Listed v 6 alloc
  spaced : Spaced (idle ++ alloc)
  nodup : (idle ++ alloc).Nodup

theorem peek_header {n z : Nat} (h : a + k ≤ n ∨ n + 6 ≤ a) :
    peek (header v n z) a k = peek v a k := by
  simp (disch := omega) only [header, peek_poke_of_apart]

/-- A node is added to one of the lists. -/
theorem Listed.link (h : Listed v list l) (h' : Listed v list' l') (hs : Spaced s)
    (hl : x :: l ⊆ s) (hl' : l' ⊆ s) (hnodup : (x :: l).Nodup) (hdisj : ∀ y ∈ l', y ∉ x :: l)
    (hx : x < Eeprom.null) (hlists : list = 4 ∧ list' = 6 ∨ list = 6 ∧ list' = 4) :
    Listed (Direct.add heapNode v list x) list (l ++ [x]) ∧
    Listed (Direct.add heapNode v list x) list' l' ∧ Kept v (Direct.add heapNode v list x) s := by
  have hrelinks : Relinks v (Direct.add heapNode v list x) list (x :: l) := h.relinks_add
  refine ⟨?_, ?_, ?_⟩
  · exact h.add (hs.mono hl) hnodup hx (by omega)
  · exact h'.of_relinks hrelinks hs hl hl' hdisj (by omega) (by omega) (by omega)
  · exact hrelinks.kept hs hl (by omega) (by omega)

namespace Lists

variable {alloc idle : List Nat} {b n z : Nat}

/-- The size of a block is changed. -/
theorem resize (h : Lists v idle alloc) (hb : b ∈ idle ++ alloc) (size : Nat) :
    Lists (poke v b 2 size) idle alloc := by
  have hb12 := h.spaced.bound b hb
  have hlinks : ∀ y ∈ idle ++ alloc, ∀ a, a = y + 2 ∨ a = y + 4 →
      peek (poke v b 2 size) a 2 = peek v a 2 := fun y hy a ha => by
    have := h.spaced.apart y hy b hb
    exact peek_poke_of_apart (by omega)
  refine ⟨?_, ?_, h.spaced, h.nodup⟩
  · exact h.idleListed.congr (peek_poke_of_apart (by omega))
      fun y hy => hlinks y (List.mem_append_left _ hy)
  · exact h.allocListed.congr (peek_poke_of_apart (by omega))
      fun y hy => hlinks y (List.mem_append_right _ hy)

/-- The header of another block is written. -/
theorem header (h : Lists v idle alloc) (hs : Spaced (n :: (idle ++ alloc)))
    (hnot : n ∉ idle ++ alloc) :
    Lists (Eeprom.header v n z) idle alloc ∧ Kept v (Eeprom.header v n z) (idle ++ alloc) := by
  have hn12 := hs.bound n List.mem_cons_self
  have hapart : ∀ y ∈ idle ++ alloc, y + 6 ≤ n ∨ n + 6 ≤ y := fun y hy =>
    (hs.apart y (List.mem_cons_of_mem _ hy) n List.mem_cons_self).resolve_left
      (ne_of_mem_of_not_mem hy hnot)
  have hlinks : ∀ y ∈ idle ++ alloc, ∀ a, a = y + 2 ∨ a = y + 4 →
      peek (Eeprom.header v n z) a 2 = peek v a 2 := fun y hy a ha => by
    have := hapart y hy
    exact peek_header (by omega)
  refine ⟨⟨?_, ?_, h.spaced, h.nodup⟩, peek_header (by omega), fun y hy => ?_⟩
  · exact h.idleListed.congr (peek_header (by omega))
      fun y hy => hlinks y (List.mem_append_left _ hy)
  · exact h.allocListed.congr (peek_header (by omega))
      fun y hy => hlinks y (List.mem_append_right _ hy)
  · have := hapart y hy
    exact peek_header (by omega)

/-- An idle block is removed. -/
theorem remove (h : Lists v (l₁ ++ b :: l₂) alloc) :
    Lists (Direct.remove heapNode v 4 b) (l₁ ++ l₂) alloc ∧
    Kept v (Direct.remove heapNode v 4 b) (l₁ ++ b :: l₂ ++ alloc) := by
  obtain ⟨hnodup, -, hdisj⟩ := List.nodup_append.1 h.nodup
  have hidle : l₁ ++ b :: l₂ ⊆ l₁ ++ b :: l₂ ++ alloc := List.subset_append_left _ _
  have hb : b ∈ l₁ ++ b :: l₂ := by simp
  have hb12 := h.spaced.bound b (hidle hb)
  have hrelinks := h.idleListed.relinks_remove hb (by omega)
  have hrest : (l₁ ++ l₂ ++ alloc).Sublist (l₁ ++ b :: l₂ ++ alloc) := by simp
  refine ⟨⟨?_, ?_, h.spaced.mono hrest.subset, hrest.nodup h.nodup⟩, ?_⟩
  · exact h.idleListed.remove (h.spaced.mono hidle) hnodup (by decide)
  · exact h.allocListed.of_relinks hrelinks h.spaced hidle (List.subset_append_right _ _)
      (fun y hy hy' => hdisj y hy' y hy rfl) (by decide) (by decide) (by decide)
  · exact hrelinks.kept h.spaced hidle (by decide) (by decide)

section
variable (h : Lists v idle alloc) (hs : Spaced (n :: (idle ++ alloc))) (hnot : n ∉ idle ++ alloc)
  (hn : n < null)
include h hs hnot hn

/-- A block is added to the allocated ones, -/
theorem add_alloc : Lists (add heapNode v 6 n) idle (alloc ++ [n]) ∧
    Kept v (add heapNode v 6 n) (n :: (idle ++ alloc)) := by
  have hperm : (idle ++ (alloc ++ [n])).Perm (n :: (idle ++ alloc)) := by
    rw [← List.append_assoc]
    exact List.perm_append_singleton n (idle ++ alloc)
  obtain ⟨-, hnodup, hdisj⟩ := List.nodup_append.1 h.nodup
  obtain ⟨hnidle, hnalloc⟩ := not_or.1 (mt List.mem_append.2 hnot)
  obtain ⟨halloc, hidle, hkept⟩ := h.allocListed.link h.idleListed hs
    (List.cons_subset_cons n (List.subset_append_right _ _))
    (fun y hy => List.mem_cons_of_mem _ (List.mem_append_left _ hy))
      (List.nodup_cons.2 ⟨hnalloc, hnodup⟩)
    (fun y hy => List.not_mem_cons_of_ne_of_not_mem (ne_of_mem_of_not_mem hy hnidle)
      fun hmem => hdisj y hy y hmem rfl) hn (.inr ⟨rfl, rfl⟩)
  exact ⟨⟨hidle, halloc, hs.mono hperm.subset,
    hperm.nodup_iff.2 (List.nodup_cons.2 ⟨hnot, h.nodup⟩)⟩, hkept⟩

/-- and to the idle ones. -/
theorem add_idle : Lists (add heapNode v 4 n) (idle ++ [n]) alloc ∧
    Kept v (add heapNode v 4 n) (n :: (idle ++ alloc)) := by
  have hperm : (idle ++ [n] ++ alloc).Perm (n :: (idle ++ alloc)) := by
    rw [List.append_assoc]
    exact List.perm_middle
  obtain ⟨hnodup, -, hdisj⟩ := List.nodup_append.1 h.nodup
  obtain ⟨hnidle, hnalloc⟩ := not_or.1 (mt List.mem_append.2 hnot)
  obtain ⟨hidle, halloc, hkept⟩ := h.idleListed.link h.allocListed hs
    (List.cons_subset_cons n (List.subset_append_left _ _))
    (fun y hy => List.mem_cons_of_mem _ (List.mem_append_right _ hy))
      (List.nodup_cons.2 ⟨hnidle, hnodup⟩)
    (fun y hy => List.not_mem_cons_of_ne_of_not_mem (ne_of_mem_of_not_mem hy hnalloc)
      fun hmem => hdisj y hmem y hy rfl) hn (.inl ⟨rfl, rfl⟩)
  exact ⟨⟨hidle, halloc, hs.mono hperm.subset,
    hperm.nodup_iff.2 (List.nodup_cons.2 ⟨hnot, h.nodup⟩)⟩, hkept⟩

/-- A new block is an idle one. -/
theorem create (hz : z < 65536) :
    Lists (add heapNode (Eeprom.header v n z) 4 n) (idle ++ [n]) alloc ∧
    peek (add heapNode (Eeprom.header v n z) 4 n) n 2 = z ∧
    Kept v (add heapNode (Eeprom.header v n z) 4 n) (idle ++ alloc) := by
  obtain ⟨hheader, hkept⟩ := h.header hs hnot
  obtain ⟨hadd, hkept'⟩ := hheader.add_idle hs hnot hn
  refine ⟨hadd, ?_, hkept.trans (hkept'.mono (List.subset_cons_self _ _))⟩
  rw [hkept'.2 n List.mem_cons_self, Eeprom.header, peek_poke_self]
  exact Nat.mod_eq_of_lt hz

end

/-- A block goes from the idle ones to the allocated ones. -/
theorem move (h : Lists v (l₁ ++ b :: l₂) alloc) :
    Lists (add heapNode (Direct.remove heapNode v 4 b) 6 b) (l₁ ++ l₂) (alloc ++ [b]) ∧
    Kept v (add heapNode (Direct.remove heapNode v 4 b) 6 b) (l₁ ++ b :: l₂ ++ alloc) := by
  obtain ⟨hremove, hkept⟩ := h.remove
  have hperm : (l₁ ++ b :: l₂ ++ alloc).Perm (b :: (l₁ ++ l₂ ++ alloc)) := by
    simp
  have hnodup := List.nodup_cons.1 (hperm.nodup_iff.1 h.nodup)
  obtain ⟨hadd, hkept'⟩ := hremove.add_alloc (h.spaced.mono hperm.symm.subset) hnodup.1
    (h.idleListed.lt_null (by simp))
  exact ⟨hadd, hkept.trans (hkept'.mono hperm.subset)⟩

end Lists

/-! ## The heap -/

/-- The bytes of a block and of its header. -/
def block (v : Nat → UInt8) (node : Nat) : Interval := ⟨node, node + 6 + peek v node 2, 0⟩

/-- The memory has the magic number, lists of idle and of allocated blocks, and their blocks follow
each other from the end of the metadata to the end of the device. -/
structure Heap (cfg : Config) (v : Nat → UInt8) (idle alloc : List Nat) : Prop where
  magic : peek v 0 4 = cfg.magic.toNat
  idleListed : Listed v 4 idle
  allocListed : Listed v 6 alloc
  tiles : ∃ m : List Nat, m.Perm (idle ++ alloc) ∧ Path metaSize (m.map (block v)) cfg.deviceSize

namespace Heap

variable {idle alloc : List Nat} {b : Nat}

/-- The blocks lie behind the metadata on the device, -/
theorem block_le (h : Heap cfg v idle alloc) (hx : x ∈ idle ++ alloc) :
    12 ≤ x ∧ x + 6 + peek v x 2 ≤ cfg.deviceSize := by
  obtain ⟨m, hperm, hpath⟩ := h.tiles
  obtain ⟨hstart, -, hstop⟩ :=
    hpath.mem_bounds (List.mem_map_of_mem (f := block v) (hperm.mem_iff.2 hx))
  exact ⟨hstart, hstop⟩

/-- and no two of them overlap. -/
theorem block_apart (h : Heap cfg v idle alloc) (hx : x ∈ idle ++ alloc) (hy : y ∈ idle ++ alloc) :
    x = y ∨ x + 6 + peek v x 2 ≤ y ∨ y + 6 + peek v y 2 ≤ x := by
  obtain ⟨m, hperm, hpath⟩ := h.tiles
  rcases hpath.apart (List.mem_map_of_mem (f := block v) (hperm.mem_iff.2 hx))
    (List.mem_map_of_mem (f := block v) (hperm.mem_iff.2 hy)) with heq | hlt
  · exact .inl (congrArg Interval.start heq)
  · exact .inr hlt

/-- Their headers have addresses. -/
theorem lt_null (h : Heap cfg v idle alloc) (hx : x ∈ idle ++ alloc) : x < null :=
  (List.mem_append.1 hx).elim h.idleListed.lt_null h.allocListed.lt_null

/-- Every byte behind the metadata belongs to a block. -/
theorem exists_block (h : Heap cfg v idle alloc) (ha : 12 ≤ a) (ha' : a < cfg.deviceSize) :
    ∃ x ∈ idle ++ alloc, x ≤ a ∧ a < x + 6 + peek v x 2 := by
  obtain ⟨m, hperm, hpath⟩ := h.tiles
  obtain ⟨m₁, i, m₂, hm, hi⟩ := hpath.exists_mem ha ha'
  obtain ⟨x, hx, rfl⟩ := List.mem_map.1 (hm ▸ List.mem_append_right m₁ List.mem_cons_self)
  exact ⟨x, hperm.mem_iff.1 hx, hi⟩

theorem spaced (h : Heap cfg v idle alloc) : Spaced (idle ++ alloc) := by
  refine ⟨fun x hx => (h.block_le hx).1, fun x hx y hy => ?_⟩
  rcases h.block_apart hx hy with rfl | hlt
  · exact .inl rfl
  · omega

theorem nodup (h : Heap cfg v idle alloc) : (idle ++ alloc).Nodup := by
  obtain ⟨m, hperm, hpath⟩ := h.tiles
  have hpairwise := (List.pairwise_append.1 hpath.bounds_pairwise).1
  rw [List.map_map] at hpairwise
  have hlt : m.Pairwise (· < ·) := by
    simpa [Function.comp_def, block] using hpairwise
  exact hperm.nodup_iff.1 (hlt.imp Nat.ne_of_lt)

theorem lists (h : Heap cfg v idle alloc) : Lists v idle alloc :=
  ⟨h.idleListed, h.allocListed, h.spaced, h.nodup⟩

/-- There is room for a header behind the requested bytes of a block. -/
theorem room (h : Heap cfg v idle alloc) (hb : b ∈ idle ++ alloc) (hsize : size + 6 ≤ peek v b 2) :
    Spaced ((b + 6 + size) :: (idle ++ alloc)) ∧ ((b + 6 + size) :: (idle ++ alloc)).Nodup := by
  have hb12 := (h.block_le hb).1
  have hnew : ∀ x ∈ idle ++ alloc, x + 6 ≤ b + 6 + size ∨ b + 6 + size + 6 ≤ x := fun x hx => by
    rcases h.block_apart hx hb with rfl | hlt
    · omega
    · omega
  obtain ⟨hbound, hapart⟩ := h.spaced
  refine ⟨⟨?_, ?_⟩, List.nodup_cons.2 ⟨fun hmem => ?_, h.nodup⟩⟩
  · exact List.forall_mem_cons.2 ⟨by omega, hbound⟩
  · refine List.forall_mem_cons.2 ⟨List.forall_mem_cons.2 ⟨.inl rfl, fun x hx => ?_⟩, fun x hx =>
      List.forall_mem_cons.2 ⟨.inr (hnew x hx), hapart x hx⟩⟩
    have := hnew x hx
    omega
  · have := hnew _ hmem
    omega

/-- What is done with a block that is large enough. -/
theorem takeBlock_eq (hsize : size + 6 ≤ peek v b 2) (hfit : b + 6 + size < null) :
    Direct.takeBlock v size b =
      add heapNode
        (header (add heapNode (remove heapNode (poke v b 2 size) 4 b) 6 b) (b + 6 + size)
        (peek v b 2 - size - 6)) 4 (b + 6 + size) := by
  have hnull : null = 65535 := rfl
  have hlt : peek v b 2 < 65536 := peek_lt v b 2
  have hnode : (b + heapNode.size + size) % 65536 = b + 6 + size := by
    simp only [heapNode]
    omega
  have hrest : (peek v b 2 + 8589934592 - size - heapNode.size) % 65536 =
      peek v b 2 - size - 6 := by
    simp only [heapNode]
    omega
  simp only [Direct.takeBlock, hnode, hrest]

/-- One of the intervals is divided. -/
theorem path_divide {m₁ m₂ : List Nat} {p q : Nat} (h : Path p ((m₁ ++ b :: m₂).map (block v)) q)
    (hb : peek w b 2 = size) (hn : peek w (b + 6 + size) 2 = peek v b 2 - size - 6)
    (hsize : size + 6 ≤ peek v b 2) (hm : ∀ y ∈ m₁ ++ m₂, peek w y 2 = peek v y 2) :
    Path p ((m₁ ++ b :: (b + 6 + size) :: m₂).map (block w)) q := by
  have hmap {m : List Nat} (hsub : m ⊆ m₁ ++ m₂) : m.map (block w) = m.map (block v) :=
    List.map_congr_left fun y hy => by rw [block, block, hm y (hsub hy)]
  rw [List.map_append, List.map_cons] at h
  obtain ⟨h₁, -, h₂⟩ := path_split.1 h
  rw [List.map_append, List.map_cons, List.map_cons, hmap (List.subset_append_left _ _),
    hmap (List.subset_append_right _ _)]
  refine path_split.2 ⟨h₁, ?_, ?_, ?_, ?_⟩
  · simp only [block]
    omega
  · simp only [block, hb]
  · simp only [block]
    omega
  · have hstop : (block w (b + 6 + size)).stop = (block v b).stop := by
      simp only [block, hn]
      omega
    rwa [hstop]

/-- **A block is divided.** The part that is requested goes to the end of the allocated blocks, the
rest to the end of the idle ones, and all other blocks are as they were. -/
theorem takeBlock (h : Heap cfg v (l₁ ++ b :: l₂) alloc) (hsize : size + 6 ≤ peek v b 2)
    (hfit : b + 6 + size < null) :
    Heap cfg (takeBlock v size b) (l₁ ++ l₂ ++ [b + 6 + size]) (alloc ++ [b]) ∧
    peek (Direct.takeBlock v size b) b 2 = size ∧
    ∀ y ∈ alloc, peek (Direct.takeBlock v size b) y 2 = peek v y 2 := by
  have hb : b ∈ l₁ ++ b :: l₂ ++ alloc := by simp
  have hlt : peek v b 2 < 65536 := peek_lt v b 2
  have hperm : (l₁ ++ b :: l₂ ++ alloc).Perm (l₁ ++ l₂ ++ (alloc ++ [b])) := by
    refine List.perm_iff_count.2 fun c => ?_
    simp only [List.count_append, List.count_cons, List.count_nil]
    omega
  obtain ⟨hs, hnodup⟩ := h.room hb hsize
  obtain ⟨hnot, -⟩ := List.nodup_cons.1 ((hperm.cons _).nodup_iff.1 hnodup)
  obtain ⟨hmove, hkept⟩ := (h.lists.resize hb size).move
  obtain ⟨hcreate, hn, hkept'⟩ := hmove.create (z := peek v b 2 - size - 6)
    (hs.mono (hperm.cons _).symm.subset) hnot hfit (by omega)
  rw [takeBlock_eq hsize hfit]
  have hkept := hkept.trans (hkept'.mono hperm.subset)
  have hsizeb := hkept.2 b hb
  rw [peek_poke_self, Nat.mod_eq_of_lt (by omega : size < 256 ^ 2)] at hsizeb
  have hold : ∀ y ∈ l₁ ++ b :: l₂ ++ alloc, y ≠ b → _ = peek v y 2 := fun y hy hne => by
    refine (hkept.2 y hy).trans (peek_poke_of_apart ?_)
    have := h.spaced.apart y hy b hb
    omega
  refine ⟨⟨?_, hcreate.idleListed, hcreate.allocListed, ?_⟩, hsizeb, fun y hy => ?_⟩
  · have := h.spaced.bound b hb
    rw [hkept.1, peek_poke_of_apart (by omega), h.magic]
  · obtain ⟨m, hm, hpath⟩ := h.tiles
    obtain ⟨m₁, m₂, rfl⟩ := List.append_of_mem (hm.mem_iff.2 hb)
    refine ⟨m₁ ++ b :: (b + 6 + size) :: m₂, ?_, path_divide hpath hsizeb hn hsize fun y hy => ?_⟩
    · refine List.perm_iff_count.2 fun c => ?_
      have hcount := hm.count_eq c
      simp only [List.count_append, List.count_cons, List.count_nil] at hcount ⊢
      omega
    · have hnodup := List.nodup_middle.1 (hm.nodup_iff.2 h.nodup)
      refine hold y (hm.mem_iff.1 ?_) (ne_of_mem_of_not_mem hy (List.nodup_cons.1 hnodup).1)
      exact List.perm_middle.mem_iff.2 (List.mem_cons_of_mem _ hy)
  · exact hold y (List.mem_append_right _ hy)
      ((List.nodup_append.1 h.nodup).2.2 b (by simp) y hy).symm

end Heap

end ChargingPile.Eeprom.Direct
