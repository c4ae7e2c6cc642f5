import ChargingPile.Eeprom.Alloc

/-!
# The heap through `Idx`

`alloc` accesses the device through `Idx` objects, which hold copies of headers in memory. On a
well-formed heap the headers never overlap, so the copies never do, and a call does to the
device what the direct one does (`Direct`). So every sequence of calls on a formatted device
returns and leaves the same.
-/

namespace ChargingPile.Eeprom

open Direct

variable {L opened : List (Nat × Nat)} {v w : Nat → UInt8}

/-! ## Lists -/

section
variable {T : Node} {obj size off node : Nat}

theorem Runs.add (hT : T.Links) (hobj : (obj, size) ∈ opened) (hoff : off + 2 ≤ size)
    (hnode : (node, T.size) ∈ L) (hfront : peek v (obj + off) 2 ≠ null →
      (peek v (obj + off) 2, T.size) ∈ L ∧ (peek v (peek v (obj + off) 2 + T.prev) 2, T.size) ∈
        L) :
    Runs L opened v (Eeprom.add T obj off node) (.ok ()) (Direct.add T v (obj + off) node) := by
  rw [Direct.add]
  split
  next h => exact .add_nil hT hobj hoff hnode h
  next h => exact .add_cons hT hobj hoff hnode rfl h (hfront h).1 rfl (hfront h).2

theorem Runs.removeFront (hT : T.Links) (hobj : (obj, size) ∈ opened) (hoff : off + 2 ≤ size)
    (hnode : (node, T.size) ∈ L) :
    Runs L opened v (Eeprom.removeFront T obj off node) (.ok ())
      (Direct.removeFront T v (obj + off) node) := by
  refine .bind (.load hobj hoff) ?_
  rw [Direct.removeFront]
  dsimp only
  rcases eq_or_ne (peek v (obj + off) 2) node with heq | hne
  · rw [if_pos heq, if_pos heq]
    refine .hold (heq ▸ hnode) (.bind (.load List.mem_cons_self hT.next) ?_)
    split
    next => exact .store (List.mem_cons_of_mem _ hobj) hoff null
    next => exact .store (List.mem_cons_of_mem _ hobj) hoff _
  · rw [if_neg hne, if_neg hne]
    exact .pure

theorem Runs.remove (hT : T.Links) (hobj : (obj, size) ∈ opened) (hoff : off + 2 ≤ size)
    (hnode : (node, T.size) ∈ L)
    (hprev : (peek (Direct.removeFront T v (obj + off) node) (node + T.prev) 2, T.size) ∈ L)
    (hnext : (peek (Direct.removeFront T v (obj + off) node) (node + T.next) 2, T.size) ∈ L) :
    Runs L opened v (Eeprom.remove T obj off node) (.ok ())
      (Direct.remove T v (obj + off) node) := by
  refine .hold hnode (.bind (.removeFront hT (List.mem_cons_of_mem _ hobj) hoff hnode)
    (.bind (.load List.mem_cons_self hT.prev) (.bind (.load List.mem_cons_self hT.next) ?_)))
  exact .hold hprev (.bind (.store List.mem_cons_self hT.next _)
    (.hold hnext (.store List.mem_cons_self hT.prev _)))

end

section
variable {list x : Nat} {l : List Nat} (h : Listed v list l) (hL : ∀ y ∈ l, (y, heapNode.size) ∈ L)
  (hmeta : (0, metaSize) ∈ opened) (hlist : list + 2 ≤ 12)
include h hL hmeta hlist

theorem Direct.Listed.runs_add (hx : (x, heapNode.size) ∈ L) :
    Runs L opened v (Eeprom.add heapNode 0 list x) (.ok ()) (Direct.add heapNode v list x) := by
  have hadd : Runs L opened v (Eeprom.add heapNode 0 list x) (.ok ())
      (Direct.add heapNode v (0 + list) x) := by
    refine .add heapNode_links hmeta hlist hx fun hne => ?_
    rw [Nat.zero_add] at hne ⊢
    cases l with
    | nil => exact absurd h.front hne
    | cons y l =>
      have hfront : peek v list 2 = y := h.front
      rw [hfront]
      exact ⟨hL y List.mem_cons_self, hL _ (h.ring.links_prev List.mem_cons_self).2⟩
  rwa [Nat.zero_add] at hadd

theorem Direct.Listed.runs_remove (hx : x ∈ l) (hx12 : 12 ≤ x) :
    Runs L opened v (Eeprom.remove heapNode 0 list x) (.ok ())
      (Direct.remove heapNode v list x) := by
  have hremove : Runs L opened v (Eeprom.remove heapNode 0 list x) (.ok ())
      (Direct.remove heapNode v (0 + list) x) := by
    refine .remove heapNode_links hmeta hlist (hL x hx) ?_ ?_
    · rw [Nat.zero_add, Listed.peek_removeFront (by omega)]
      exact hL _ (h.ring.links_prev hx).2
    · rw [Nat.zero_add, Listed.peek_removeFront (by omega)]
      exact hL _ (h.ring.next_mem hx)
  rwa [Nat.zero_add] at hremove

end

/-! ## The search -/

section
variable {allocSize cur minDiffNode fuel r : Nat} {idle : List Nat}

theorem Runs.better (hmin : minDiffNode ≠ null → (minDiffNode, heapNode.size) ∈ L) :
    Runs L opened v (Config.better allocSize cur (peek v cur 2) minDiffNode)
      (.ok (Direct.better v allocSize minDiffNode cur)) v := by
  rw [Config.better, Direct.better]
  split
  next => exact .pure
  next hne =>
    rcases Nat.lt_or_ge (peek v cur 2) allocSize with hlt | hge
    · rw [if_neg (Nat.not_le.2 hlt), if_neg fun h => Nat.not_le.2 hlt h.1]
      exact .pure
    · rw [if_pos hge]
      refine .bind (.hold (hmin hne) (.load List.mem_cons_self (by decide))) ?_
      rw [Nat.add_zero]
      simp only [ge_iff_le.1 hge, true_and]
      exact .pure

theorem Runs.lookAt (hcur : (cur, heapNode.size) ∈ L)
    (hmin : minDiffNode ≠ null → (minDiffNode, heapNode.size) ∈ L) :
    Runs L opened v (Config.lookAt allocSize cur minDiffNode)
      (.ok (Direct.better v allocSize minDiffNode cur, next v cur)) v := by
  refine .hold hcur (.bind (.load List.mem_cons_self (by decide)) ?_)
  rw [Nat.add_zero]
  exact .bind (.better hmin) (.bind (.load List.mem_cons_self (by decide)) .pure)

/-- The best block so far is one of the list. -/
theorem better_mem (hcur : cur ∈ idle) (hmin : minDiffNode ≠ null → minDiffNode ∈ idle)
    (hne : Direct.better v allocSize minDiffNode cur ≠ null) :
    Direct.better v allocSize minDiffNode cur ∈ idle := by
  rw [Direct.better] at hne ⊢
  split
  next heq =>
    split
    next => exact hcur
    next hlt =>
      rw [if_pos heq, if_neg hlt] at hne
      exact absurd heq hne
  next hnull =>
    split
    next => exact hcur
    next => exact hmin hnull

/-- The loop runs through the headers of the list. -/
theorem Direct.Listed.runs_bestFit (h : Listed v 4 idle) (hL : ∀ y ∈ idle, (y, heapNode.size) ∈ L)
    (hmeta : (0, metaSize) ∈ opened) (hcur : cur ∈ idle)
    (hmin : minDiffNode ≠ Eeprom.null → minDiffNode ∈ idle)
    (hfit : Direct.bestFit v allocSize fuel cur minDiffNode = some r) :
    Runs L opened v (Config.bestFit allocSize fuel cur minDiffNode) (.ok r) v := by
  induction fuel generalizing cur minDiffNode with
  | zero => cases hfit
  | succ fuel ih =>
    rw [Direct.bestFit] at hfit
    refine .bind (.lookAt (hL cur hcur) fun hne => hL _ (hmin hne))
      (.bind (.load hmeta (by decide)) ?_)
    rw [Nat.zero_add]
    change (if next v cur ≠ peek v 4 2 then _ else _) = _ at hfit
    rcases ne_or_eq (next v cur) (peek v 4 2) with hne | heq
    · rw [if_pos hne] at hfit ⊢
      exact ih (h.ring.next_mem hcur) (better_mem hcur hmin) hfit
    · rw [if_neg (not_not.2 heq)] at hfit ⊢
      rw [← Option.some.inj hfit]
      exact .pure

end

/-! ## Calls -/

section
variable {cfg : Config} {b size fuel : Nat} {idle alloc l₁ l₂ : List Nat}

theorem Direct.Heap.runs_takeBlock (h : Heap cfg v (l₁ ++ b :: l₂) alloc)
    (hsize : size + 6 ≤ peek v b 2) (hfit : b + 6 + size < null) (hmeta : (0, metaSize) ∈ opened)
    (hL : ∀ y ∈ (b + 6 + size) :: (l₁ ++ b :: l₂ ++ alloc), (y, heapNode.size) ∈ L) :
    Runs L opened v (Config.takeBlock size b) (.ok ((b + 6) % 65536))
      (Direct.takeBlock v size b) := by
  have hnull : null = 65535 := rfl
  have hb : b ∈ l₁ ++ b :: l₂ ++ alloc := by simp
  have hnode : (b + heapNode.size + size) % 65536 = b + 6 + size := by
    simp only [heapNode]
    omega
  obtain ⟨hnew, hL⟩ := List.forall_mem_cons.1 hL
  obtain ⟨hs, hnodup⟩ := h.room hb hsize
  have hresize := h.lists.resize hb size
  have hremove := hresize.remove.1
  have hmove := hresize.move.1
  have hsub : l₁ ++ l₂ ++ (alloc ++ [b]) ⊆ l₁ ++ b :: l₂ ++ alloc := by
    intro y hy
    simp only [List.mem_append, List.mem_cons, List.not_mem_nil, or_false] at hy ⊢
    tauto
  have hnot : b + 6 + size ∉ l₁ ++ l₂ ++ (alloc ++ [b]) :=
    fun hmem => (List.nodup_cons.1 hnodup).1 (hsub hmem)
  have hmeta' : (0, metaSize) ∈ (b, heapNode.size) :: opened := List.mem_cons_of_mem _ hmeta
  have hremoveRuns :=
    hresize.idleListed.runs_remove (fun y hy => hL y (List.mem_append_left _ hy)) hmeta'
    (by decide) (by simp) (h.spaced.bound b hb)
  have haddRuns :=
    hremove.allocListed.runs_add (fun y hy => hL y (List.mem_append_right _ hy)) hmeta'
    (by decide) (hL b hb)
  have hidleRuns {z : Nat} : Runs L ((b + 6 + size, heapNode.size) :: (b, heapNode.size) :: opened)
      (header _ (b + 6 + size) z) (Eeprom.add heapNode 0 4 (b + 6 + size)) (.ok ()) _ :=
    (hmove.header (hs.mono (List.cons_subset_cons _ hsub)) hnot).1.idleListed.runs_add
      (fun y hy => hL y (hsub (List.mem_append_left _ hy))) (List.mem_cons_of_mem _ hmeta')
        (by decide) hnew
  refine .hold (hL b hb) (.bind (.load List.mem_cons_self (by decide))
    (.bind (.store List.mem_cons_self (by decide) size) ?_))
  rw [Nat.add_zero, hnode, Direct.takeBlock]
  simp only [hnode]
  exact .bind hremoveRuns
    (.bind haddRuns (.bind (.hold hnew (.bind (.createHeapNode List.mem_cons_self _)
    hidleRuns)) .pure))

/-- Headers behind the metadata that do not overlap are objects that do not. -/
theorem layout_of_spaced {s : List Nat} (hs : Spaced s) (hbound : ∀ x ∈ s, x + 6 ≤ limit) :
    Layout ((0, metaSize) :: s.map fun x => (x, heapNode.size)) := by
  have hmeta : ∀ x ∈ s, Apart (0, metaSize) (x, heapNode.size) := fun x hx => .inl (by
    simpa [metaSize] using hs.bound x hx)
  refine ⟨List.forall_mem_cons.2 ⟨by decide, fun o ho => ?_⟩, ?_⟩
  · obtain ⟨x, hx, rfl⟩ := List.mem_map.1 ho
    exact ⟨Nat.succ_pos 5, hbound x hx⟩
  · refine List.forall_mem_cons.2
      ⟨List.forall_mem_cons.2 ⟨fun hne => absurd rfl hne, fun o ho _ => ?_⟩,
      fun o ho => List.forall_mem_cons.2 ⟨fun _ => ?_, fun o' ho' hne => ?_⟩⟩
    · obtain ⟨x, hx, rfl⟩ := List.mem_map.1 ho
      exact hmeta x hx
    · obtain ⟨x, hx, rfl⟩ := List.mem_map.1 ho
      exact (hmeta x hx).symm
    · obtain ⟨x, hx, rfl⟩ := List.mem_map.1 ho
      obtain ⟨y, hy, rfl⟩ := List.mem_map.1 ho'
      exact (hs.apart x hx y hy).resolve_left fun heq => hne (heq ▸ rfl)

/-- A call finds the magic number and searches the idle blocks. -/
theorem Direct.Heap.runs_search {c : Nat} {r : Except Exception Nat} (h : Heap cfg v idle alloc)
    (hne : idle ≠ [])
    (hfit : Direct.bestFit v ((size + 6) % 4294967296) fuel (peek v 4 2) null = some c)
    (hmeta : (0, metaSize) ∈ L) (hL : ∀ y ∈ idle, (y, heapNode.size) ∈ L)
    (hc : Runs L [(0, metaSize)] v (if c = null then throw (.runtimeError "alloc failed")
      else Config.takeBlock size c) r w) :
    Runs L [] v (cfg.alloc fuel size) r w := by
  refine .withCtx (.hold hmeta (.bind (.load List.mem_cons_self (by decide)) ?_))
  rw [show peek v (0 + 0) 4 = _ from h.magic, if_neg (not_not.2 rfl)]
  refine .bind (.load List.mem_cons_self (by decide))
    (.bind (h.idleListed.runs_bestFit hL List.mem_cons_self
    ?_ (fun hnull => absurd rfl hnull) hfit) hc)
  rw [Nat.zero_add, h.idleListed.front]
  cases idle with
  | nil => exact absurd rfl hne
  | cons x idle => exact List.mem_cons_self

/-- **A call through `Idx`.** It returns what the direct call returns and leaves the
same memory. -/
theorem Direct.Heap.runs_alloc {r : Except Exception Nat} (h : Heap cfg v idle alloc)
    (hdevice : cfg.deviceSize ≤ limit) (hne : idle ≠ []) (hfuel : idle.length ≤ fuel)
    (halloc : Direct.alloc cfg fuel size v = some (r, w))
    (hexact : ∀ addr, r = .ok addr → size + 6 < 4294967296) :
    ∃ L, Layout L ∧ Runs L [] v (cfg.alloc fuel size) r w := by
  have hlimit : limit = 2048 := rfl
  have hnull : null = 65535 := rfl
  have hbound : ∀ x ∈ idle ++ alloc, x + 6 ≤ limit := fun x hx => by
    have := (h.block_le hx).2
    omega
  obtain ⟨c, hbest, hfit⟩ := h.exists_best hne hfuel ((size + 6) % 4294967296)
  rw [h.alloc_eq hfit] at halloc
  have hmem {s : List Nat} {y : Nat} (hy : y ∈ s) :
      (y, heapNode.size) ∈ (0, metaSize) :: s.map fun x => (x, heapNode.size) :=
    List.mem_cons_of_mem _ (List.mem_map_of_mem hy)
  cases hbest with
  | none =>
    rw [if_pos rfl] at halloc
    obtain ⟨rfl, rfl⟩ := Prod.mk.inj (Option.some.inj halloc)
    refine ⟨_, layout_of_spaced h.spaced hbound, h.runs_search hne hfit List.mem_cons_self
      (fun y hy => hmem (List.mem_append_left _ hy)) ?_⟩
    rw [if_pos rfl]
    exact .throw _
  | some hc hsize hmin =>
    have hcnull := ne_of_mem_of_not_mem hc h.idleListed.null
    rw [if_neg hcnull] at halloc
    obtain ⟨rfl, rfl⟩ := Prod.mk.inj (Option.some.inj halloc)
    rw [Nat.mod_eq_of_lt (hexact _ rfl)] at hsize
    obtain ⟨l₁, l₂, rfl⟩ := List.append_of_mem hc
    have hc' : c ∈ l₁ ++ c :: l₂ ++ alloc := List.mem_append_left _ hc
    have hle := (h.block_le hc').2
    obtain ⟨hs, -⟩ := h.room hc' hsize
    refine ⟨_, layout_of_spaced hs (List.forall_mem_cons.2 ⟨by omega, hbound⟩),
      h.runs_search hne hfit
      List.mem_cons_self (fun y hy => hmem (List.mem_cons_of_mem _ (List.mem_append_left _ hy)))
        ?_⟩
    rw [if_neg hcnull]
    exact h.runs_takeBlock hsize (by omega) List.mem_cons_self fun y hy => hmem hy

end

/-! ## Sequences of calls -/

theorem exec_withCtx_owned {α : Type} (p : M α) (s : Store) :
    exec (withCtx p) s.owned = exec p s.owned := by
  rw [exec, withCtx, ExceptT.run_mk, StateT.run]
  exact if_pos rfl

/-- What runs on a layout runs on a device between two calls. -/
theorem Runs.exec_fresh {α : Type} {p : M α} {r : Except Exception α}
    (h : Runs L [] v (Eeprom.withCtx p) r w) (hL : Layout L) : exec (Eeprom.withCtx p) (.fresh v) =
      some (r, .fresh w) := by
  obtain ⟨s, hexec, hs⟩ := h hL (List.nil_subset _) _ (Store.fresh_shows v)
  rw [exec_withCtx_owned] at hexec
  rw [exec_withCtx rfl hexec, hs.eq_fresh]
  rfl

/-- The store, under calls of `alloc`. -/
def cached (cfg : Config) (fuel : Nat) : Machine Store UInt32 Call where
  step s size :=
    match exec (cfg.alloc fuel size.toNat) s with
    | none => (s, [(size, none)])
    | some (r, s) => (s, [(size, some r)])

/-- A store between two calls, and a memory on which all requests have been served. -/
def Between (cfg : Config) (s : Store) (v : Nat → UInt8) : Prop :=
  s = .fresh v ∧ ∃ tr b alloc, Served cfg tr v b alloc

/-- A call takes the one to the other. -/
theorem Between.step {cfg : Config} {s : Store} {fuel : Nat} {request : UInt32}
    (h : Between cfg s v) (hdevice : cfg.deviceSize ≤ limit)
    (hexact : request.toNat + 6 < 4294967296) :
    Between cfg ((cached cfg (fuel + 1)).step s request).1
      ((machine cfg (fuel + 1)).step v request).1 ∧
    ((cached cfg (fuel + 1)).step s request).2 = ((machine cfg (fuel + 1)).step v request).2 := by
  have hlimit : limit = 2048 := rfl
  obtain ⟨rfl, tr, b, alloc, hserved⟩ := h
  obtain ⟨b', alloc', hserved'⟩ := hserved.step (Nat.succ_pos fuel) (by omega) (.inl hexact)
  obtain ⟨c, -, hfit⟩ := hserved.heap.exists_best (List.cons_ne_nil _ _) (Nat.succ_pos fuel)
    ((request.toNat + 6) % 4294967296)
  have halloc := hserved.heap.alloc_eq hfit
  generalize hrw : (if c = null then _ else _ : Except Exception Nat × (Nat → UInt8)) =
    rw at halloc
  obtain ⟨r, w⟩ := rw
  obtain ⟨L, hL, hruns⟩ :=
    hserved.heap.runs_alloc hdevice (List.cons_ne_nil _ _) (Nat.succ_pos fuel) halloc
    fun _ _ => hexact
  rw [machine_step halloc] at hserved' ⊢
  have hstep : (cached cfg (fuel + 1)).step (.fresh v) request =
      (.fresh w, [(request, some r)]) := by
    dsimp only [cached]
    rw [show exec (cfg.alloc (fuel + 1) request.toNat) (.fresh v) = _ from hruns.exec_fresh hL]
  rw [hstep]
  exact ⟨⟨rfl, _, b', alloc', hserved'⟩, rfl⟩

section
variable (cfg : Config) (content : Nat → UInt8)

end

end ChargingPile.Eeprom
