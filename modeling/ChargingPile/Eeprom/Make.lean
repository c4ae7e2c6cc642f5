import ChargingPile.Eeprom.Transparent
import Mathlib.Data.List.Pairwise

/-!
# The first object on a device

What `format` and the first `make` do to the flat memory that a store shows, step by step: the
lists are rings with one or two nodes, and the one idle block is divided twice, for the type and
for its object. So an object is made on every device that has been formatted. `make` is meant to
format a device without the magic number itself, but it reads the metadata before it tests it, and
that throws: `make_never_formats`.
-/

namespace ChargingPile.Eeprom

variable {L opened : List (Nat × Nat)} {u v w : Nat → UInt8}

/-! ## Lists -/

/-- Where the links of a node are. -/
structure Node.Links (T : Node) : Prop where
  prev : T.prev + 2 ≤ T.size
  next : T.next + 2 ≤ T.size

theorem heapNode_links : heapNode.Links := ⟨by decide, by decide⟩

theorem typeNode_links : typeNode.Links := ⟨by decide, by decide⟩

theorem objNode_links : objNode.Links := ⟨by decide, by decide⟩

/-- The memory with a node as the only one of a list. -/
def single (T : Node) (v : Nat → UInt8) (front node : Nat) : Nat → UInt8 :=
  poke (poke (poke v front 2 node) (node + T.next) 2 node) (node + T.prev) 2 node

/-- The memory with a node between the last and the first one of a list. -/
def linked (T : Node) (v : Nat → UInt8) (front rear node : Nat) : Nat → UInt8 :=
  poke (poke (poke (poke v (rear + T.next) 2 node) (node + T.prev) 2 rear) (front + T.prev) 2 node)
    (node + T.next) 2 front

section
variable {T : Node} {obj size off node front rear : Nat}

theorem Runs.add_nil (hT : T.Links) (hobj : (obj, size) ∈ opened) (hoff : off + 2 ≤ size)
    (hnode : (node, T.size) ∈ L) (hfront : peek v (obj + off) 2 = null) :
    Runs L opened v (add T obj off node) (.ok ()) (single T v (obj + off) node) := by
  have hobj' : (obj, size) ∈ (node, T.size) :: opened := List.mem_cons_of_mem _ hobj
  refine .hold hnode (.bind (.load hobj' hoff) ?_)
  rw [if_pos hfront]
  exact .bind (.store hobj' hoff node) (.bind (.store List.mem_cons_self hT.next node)
    (.store List.mem_cons_self hT.prev node))

theorem Runs.add_cons (hT : T.Links) (hobj : (obj, size) ∈ opened) (hoff : off + 2 ≤ size)
    (hnode : (node, T.size) ∈ L) (hfront : peek v (obj + off) 2 = front) (hne : front ≠ null)
    (hfrontL : (front, T.size) ∈ L) (hrear : peek v (front + T.prev) 2 = rear)
    (hrearL : (rear, T.size) ∈ L) :
    Runs L opened v (add T obj off node) (.ok ()) (linked T v front rear node) := by
  have hobj' : (obj, size) ∈ (node, T.size) :: opened := List.mem_cons_of_mem _ hobj
  refine .hold hnode (.bind (.load hobj' hoff) ?_)
  rw [hfront, if_neg hne]
  refine .hold hfrontL (.bind (.load List.mem_cons_self hT.prev) ?_)
  rw [hrear]
  refine .hold hrearL
    (.bind (.store List.mem_cons_self hT.next node) (.bind (.store ?_ hT.prev rear)
    (.bind (.store ?_ hT.prev node) (.store ?_ hT.next front))))
  · simp
  · simp
  · simp

/-- The only node of a list is removed. -/
theorem Runs.remove_single (hT : T.Links) (hobj : (obj, size) ∈ opened) (hoff : off + 2 ≤ size)
    (hnode : (node, T.size) ∈ L) (hfront : peek v (obj + off) 2 = node)
    (hnext : peek v (node + T.next) 2 = node) (hprev : peek v (node + T.prev) 2 = node)
    (hapart : Apart (obj, size) (node, T.size)) :
    Runs L opened v (remove T obj off node) (.ok ())
      (poke (poke (poke v (obj + off) 2 null) (node + T.next) 2 node) (node + T.prev) 2 node) := by
  have hobj' : (obj, size) ∈ (node, T.size) :: opened := List.mem_cons_of_mem _ hobj
  have hlinks := hT.prev
  have hlinks' := hT.next
  dsimp only [Apart] at hapart
  have hfrontRuns : Runs L ((node, T.size) :: opened) v (removeFront T obj off node) (.ok ())
      (poke v (obj + off) 2 null) := by
    refine .bind (.load hobj' hoff) ?_
    rw [hfront, if_pos rfl]
    refine .hold hnode (.bind (.load List.mem_cons_self hT.next) ?_)
    rw [hnext, if_pos rfl]
    exact .store (List.mem_cons_of_mem _ hobj') hoff null
  refine .hold hnode (.bind hfrontRuns (.bind (.load List.mem_cons_self hT.prev)
    (.bind (.load List.mem_cons_self hT.next) ?_)))
  rw [peek_poke_of_apart (by omega), peek_poke_of_apart (by omega), hprev, hnext]
  exact .hold hnode (.bind (.store List.mem_cons_self hT.next node)
    (.hold hnode (.store List.mem_cons_self hT.prev node)))

end

/-! ## Blocks -/

/-- The memory with the header of a block. -/
def header (v : Nat → UInt8) (node size : Nat) : Nat → UInt8 :=
  poke (poke (poke (poke v node 2 0) (node + 2) 2 null) (node + 4) 2 null) node 2 size

theorem Runs.createHeapNode {node : Nat} (hnode : (node, heapNode.size) ∈ opened) (size : Nat) :
    Runs L opened v (createHeapNode node size) (.ok ()) (header v node size) :=
  .bind (.store hnode (by decide) 0) (.bind (.store hnode (by decide) null)
    (.bind (.store hnode (by decide) null) (.store hnode (by decide) size)))

/-- There is one idle block, at `b` with `z` bytes, and the storage is formatted. -/
structure OneIdle (cfg : Config) (v : Nat → UInt8) (b z : Nat) : Prop where
  magic : peek v 0 4 = cfg.magic.toNat
  idle : peek v 4 2 = b
  size : peek v b 2 = z
  prev : peek v (b + 2) 2 = b
  next : peek v (b + 4) 2 = b

/-- The memory when a block has been taken from the list of idle ones. -/
def taken (v : Nat → UInt8) (b size : Nat) : Nat → UInt8 :=
  poke (poke (poke (poke v b 2 size) 4 2 null) (b + 4) 2 b) (b + 2) 2 b

/-- The memory with a new block as the only idle one. -/
def withIdle (v : Nat → UInt8) (b z : Nat) : Nat → UInt8 := single heapNode (header v b z) 4 b

section
variable {a k b : Nat} (hmeta : a + k ≤ 4 ∨ 6 ≤ a) (hb : a + k ≤ b ∨ b + 6 ≤ a)
include hmeta hb

/-- Only the header of the block and the list of idle blocks are changed, -/
theorem peek_taken (size : Nat) : peek (taken v b size) a k = peek v a k := by
  simp (disch := omega) only [taken, peek_poke_of_apart]

/-- and the same holds for a new idle block. -/
theorem peek_withIdle (z : Nat) : peek (withIdle v b z) a k = peek v a k := by
  simp (disch := omega) only [withIdle, single, header, heapNode, peek_poke_of_apart]

end

namespace OneIdle

variable {cfg : Config} {b z size : Nat} (h : OneIdle cfg v b z)
include h

theorem bestFit (hmeta : (0, metaSize) ∈ opened) (hb : (b, heapNode.size) ∈ L) {allocSize : Nat}
    (hz : allocSize ≤ z) (fuel : Nat) :
    Runs L opened v (Config.bestFit allocSize (fuel + 1) b null) (.ok b) v := by
  have hlookAt : Runs L opened v (Config.lookAt allocSize b null) (.ok (b, b)) v := by
    refine .hold hb (.bind (.load List.mem_cons_self (by decide)) ?_)
    rw [Nat.add_zero, h.size, Config.better, if_pos rfl, if_pos hz]
    refine .bind .pure (.bind (.load List.mem_cons_self (by decide)) ?_)
    rw [show peek v (b + heapNode.next) 2 = b from h.next]
    exact .pure
  refine .bind hlookAt (.bind (.load hmeta (by decide)) ?_)
  rw [h.idle, if_neg (not_not.2 rfl)]
  exact .pure

/-- The only idle block is divided. What this makes of the list of allocated blocks is given. -/
theorem takeBlock (hmeta : (0, metaSize) ∈ opened) (hb : (b, heapNode.size) ∈ L)
    (hrest : (b + heapNode.size + size, heapNode.size) ∈ L)
    (hlimit : b + heapNode.size + size < limit) (hapart : metaSize ≤ b)
    (hz : size + heapNode.size ≤ z) (hadd : ∀ opened, (0, metaSize) ∈ opened →
      Runs L opened (taken v b size) (add heapNode 0 6 b) (.ok ()) w) (hidle : peek w 4 2 = null) :
    Runs L opened v (Config.takeBlock size b) (.ok (b + heapNode.size))
      (withIdle w (b + heapNode.size + size) (z - size - heapNode.size)) := by
  have hlimit' : limit = 2048 := rfl
  have hmetaSize : metaSize = 12 := rfl
  have hmeta' : (0, metaSize) ∈ (b, heapNode.size) :: opened := List.mem_cons_of_mem _ hmeta
  have hremove : Runs L ((b, heapNode.size) :: opened) (poke v b 2 size) (remove heapNode 0 4 b)
      (.ok ()) (taken v b size) := by
    refine .remove_single heapNode_links hmeta' (by decide) hb ?_ ?_ ?_ (.inl ?_)
    · rw [peek_poke_of_apart (by omega)]
      exact h.idle
    · rw [peek_poke_of_apart (.inr (Nat.add_le_add_left (by decide) b))]
      exact h.next
    · rw [peek_poke_of_apart (.inr (Nat.add_le_add_left (by decide) b))]
      exact h.prev
    · simpa using hapart
  have hcreate : Runs L ((b, heapNode.size) :: opened) w
      (hold (b + heapNode.size + size) heapNode.size do
        createHeapNode (b + heapNode.size + size) (z - size - heapNode.size)
        add heapNode 0 4 (b + heapNode.size + size)) (.ok ())
      (withIdle w (b + heapNode.size + size) (z - size - heapNode.size)) := by
    refine .hold hrest (.bind (.createHeapNode List.mem_cons_self _)
      (.add_nil heapNode_links (List.mem_cons_of_mem _ hmeta') (by decide) hrest ?_))
    have hsize : heapNode.size = 6 := rfl
    rw [Nat.zero_add]
    simp (disch := omega) only [header, peek_poke_of_apart, hidle]
  refine .hold hb (.bind (.load List.mem_cons_self (by decide)) ?_)
  refine .bind (.store List.mem_cons_self (by decide) size)
    (.bind hremove (.bind (hadd _ hmeta') ?_))
  have hz' : (z + 8589934592 - size - heapNode.size) % 65536 = z - size - heapNode.size := by
    have hlt := h.size ▸ peek_lt v b 2
    omega
  rw [show peek v (b + 0) 2 = z from h.size, hz', Nat.mod_eq_of_lt (by omega),
    Nat.mod_eq_of_lt (by omega)]
  exact .bind hcreate .pure

theorem alloc (hmeta : (0, metaSize) ∈ L) (hb : (b, heapNode.size) ∈ L)
    (hrest : (b + heapNode.size + size, heapNode.size) ∈ L)
    (hlimit : b + heapNode.size + size < limit) (hapart : metaSize ≤ b)
    (hz : size + heapNode.size ≤ z) (hadd : ∀ opened, (0, metaSize) ∈ opened →
      Runs L opened (taken v b size) (add heapNode 0 6 b) (.ok ()) w)
    (hidle : peek w 4 2 = null) (fuel : Nat) :
    Runs L opened v (cfg.alloc (fuel + 1) size) (.ok (b + heapNode.size))
      (withIdle w (b + heapNode.size + size) (z - size - heapNode.size)) := by
  have hlimit' : limit = 2048 := rfl
  have hnull : b ≠ null := by
    rw [null]
    omega
  refine .withCtx (.hold hmeta (.bind (.load List.mem_cons_self (by decide)) ?_))
  rw [show peek v (0 + 0) 4 = _ from h.magic, if_neg (not_not.2 rfl)]
  refine .bind (.load List.mem_cons_self (by decide)) ?_
  rw [show peek v (0 + 4) 2 = _ from h.idle]
  rw [Nat.mod_eq_of_lt (by omega)]
  refine .bind (h.bestFit List.mem_cons_self hb hz fuel) ?_
  rw [if_neg hnull]
  exact h.takeBlock List.mem_cons_self hb hrest hlimit hapart hz hadd hidle

end OneIdle

/-- A new idle block, if the memory has the magic number. -/
theorem oneIdle_withIdle {cfg : Config} {b z : Nat} (hmagic : peek v 0 4 = cfg.magic.toNat)
    (hb : metaSize ≤ b) (hb' : b < limit) (hz : z < 65536) : OneIdle cfg (withIdle v b z) b z := by
  have hlimit : limit = 2048 := rfl
  have hmetaSize : metaSize = 12 := rfl
  refine ⟨?_, ?_, ?_, ?_, ?_⟩
  · rw [peek_withIdle (by omega) (by omega), hmagic]
  · simp (disch := omega) only [withIdle, single, header, heapNode, peek_poke_of_apart,
      peek_poke_self]
    exact Nat.mod_eq_of_lt (by omega)
  · simp (disch := omega) only [withIdle, single, header, heapNode, peek_poke_of_apart,
      peek_poke_self]
    exact Nat.mod_eq_of_lt hz
  · simp only [withIdle, single, header, heapNode, peek_poke_self]
    exact Nat.mod_eq_of_lt (by omega)
  · simp (disch := omega) only [withIdle, single, header, heapNode, peek_poke_of_apart,
      peek_poke_self]
    exact Nat.mod_eq_of_lt (by omega)

/-! ## Formatting -/

/-- The memory with a new `Meta`. -/
def blankMeta (cfg : Config) (v : Nat → UInt8) : Nat → UInt8 :=
  poke (poke (poke (poke v 0 4 cfg.magic.toNat) 4 2 null) 6 2 null) 8 2 null

theorem Runs.createMeta (cfg : Config) (hmeta : (0, metaSize) ∈ opened)
    (hb : (metaSize, heapNode.size) ∈ L) :
    Runs L opened v cfg.createMeta (.ok ()) (withIdle (blankMeta cfg v) metaSize
      ((cfg.deviceSize + 4294967296 - metaSize - heapNode.size) % 65536)) := by
  refine .bind (.store hmeta (by decide) _) (.bind (.store hmeta (by decide) _)
    (.bind (.store hmeta (by decide) _) (.bind (.store hmeta (by decide) _)
      (.hold hb (.bind (.createHeapNode List.mem_cons_self _)
        (.add_nil heapNode_links (List.mem_cons_of_mem _ hmeta) (by decide) hb ?_))))))
  have hmetaSize : metaSize = 12 := rfl
  rw [Nat.zero_add]
  simp (disch := omega) only [header, Nat.zero_add, peek_poke_of_apart, peek_poke_self]
  rfl

/-! ## The first object -/

/-- The objects after the first one of `n` bytes has been made: `Meta`, the blocks with the type
and the object, and what is idle behind them. -/
def layout (n : Nat) : List (Nat × Nat) :=
  [(0, metaSize), (12, heapNode.size), (18, typeNode.size), (30, heapNode.size),
    (36, objNode.size), (40, n), (40 + n, heapNode.size)]

theorem layout_layout {n : Nat} (hn : 0 < n) (hfit : 46 + n ≤ limit) : Layout (layout n) := by
  have hlimit : limit = 2048 := rfl
  have hsymm : Std.Symm Apart := ⟨fun _ _ h => h.symm⟩
  have hpair : (layout n).Pairwise Apart := by
    simp only [layout, metaSize, heapNode, typeNode, objNode, Apart, List.pairwise_cons,
      List.mem_cons, List.not_mem_nil, or_false, forall_eq_or_imp, forall_eq, List.Pairwise.nil,
      and_true, false_imp_iff,
      implies_true]
    omega
  refine ⟨?_, fun o ho o' ho' hne => hpair.forall ho ho' hne⟩
  simp only [layout, metaSize, heapNode, typeNode, objNode, List.mem_cons, List.not_mem_nil,
    or_false, forall_eq_or_imp, forall_eq]
  omega

/-- The memory with a new `TypeNode`. -/
def blankType (v : Nat → UInt8) (node : Nat) (hash : UInt32) : Nat → UInt8 :=
  poke (poke (poke (poke (poke v node 4 0) (node + 4) 2 null) (node + 6) 2 null) (node + 8) 2 null)
    node 4 hash.toNat

theorem Runs.createTypeNode {node : Nat} (hnode : (node, typeNode.size) ∈ opened) (hash : UInt32) :
    Runs L opened v (createTypeNode node hash) (.ok ()) (blankType v node hash) :=
  .bind (.store hnode (by decide) _)
    (.bind (.store hnode (by decide) _) (.bind (.store hnode (by decide) _)
    (.bind (.store hnode (by decide) _) (.store hnode (by decide) _))))

/-- The memory with a new `ObjNode`. -/
def blankObj (v : Nat → UInt8) (node : Nat) : Nat → UInt8 :=
  poke (poke v node 2 null) (node + 2) 2 null

theorem Runs.createObjNode {node : Nat} (hnode : (node, objNode.size) ∈ opened) :
    Runs L opened v (createObjNode node) (.ok ()) (blankObj v node) :=
  .bind (.store hnode (by decide) _) (.store hnode (by decide) _)

section
variable {cfg : Config} {z n : Nat}

/-- The memory after the block of the type has been allocated. -/
def typeBlock (v : Nat → UInt8) (z : Nat) : Nat → UInt8 :=
  withIdle (single heapNode (taken v 12 typeNode.size) 6 12) 30 (z - 18)

/-- The block of the type is the first one that is allocated. -/
theorem OneIdle.alloc_type (h : OneIdle cfg v 12 z) (hz : 18 ≤ z) (halloc : peek v 6 2 = null)
    (fuel : Nat) :
    Runs (layout n) opened v (cfg.alloc (fuel + 1) typeNode.size) (.ok 18) (typeBlock v z) := by
  refine h.alloc (by simp [layout]) (by simp [layout]) (by simp [layout, heapNode, typeNode])
    (by decide) (by decide) hz (fun opened hmeta => ?_) ?_ fuel
  · refine .add_nil heapNode_links hmeta (by decide) (by simp [layout]) ?_
    rw [Nat.zero_add, peek_taken (by omega) (by omega), halloc]
  · simp (disch := omega) only [single, taken, heapNode, peek_poke_of_apart, peek_poke_self]
    rfl

/-- The memory with a new type in the list of types. -/
def newType (v : Nat → UInt8) (hash : UInt32) : Nat → UInt8 :=
  single typeNode (blankType v 18 hash) 8 18

/-- What the second allocation finds: one idle block, and the block of the type as the only one
that is allocated. -/
structure Typed (cfg : Config) (v : Nat → UInt8) (z : Nat) : Prop where
  oneIdle : OneIdle cfg v 30 z
  front : peek v 6 2 = 12
  rear : peek v (12 + 2) 2 = 12
  obj : peek v (18 + 4) 2 = null

theorem OneIdle.typed (h : OneIdle cfg v 12 z) (hz : z < 65536) (hash : UInt32) :
    Typed cfg (newType (typeBlock v z) hash) (z - 18) := by
  have hmagic : peek (single heapNode (taken v 12 typeNode.size) 6 12) 0 4 = cfg.magic.toNat := by
    simp (disch := omega) only [single, heapNode, peek_poke_of_apart, peek_taken, h.magic]
  obtain ⟨hmagic, hidle, hsize, hprev, hnext⟩ :=
    oneIdle_withIdle hmagic (by decide : metaSize ≤ 30) (by decide) (by omega : z - 18 < 65536)
  have hkept {a k : Nat} (ha : a + k ≤ 8 ∨ 10 ≤ a ∧ a + k ≤ 18 ∨ 30 ≤ a) :
      peek (newType (typeBlock v z) hash) a k = peek (typeBlock v z) a k := by
    simp (disch := omega) only [newType, single, blankType, typeNode, peek_poke_of_apart]
  refine ⟨⟨?_, ?_, ?_, ?_, ?_⟩, ?_, ?_, ?_⟩
  · exact (hkept (by omega)).trans hmagic
  · exact (hkept (by omega)).trans hidle
  · exact (hkept (by omega)).trans hsize
  · exact (hkept (by omega)).trans hprev
  · exact (hkept (by omega)).trans hnext
  · rw [hkept (by omega), typeBlock, peek_withIdle (by omega) (by omega)]
    simp (disch := omega) only [single, heapNode, peek_poke_of_apart, peek_poke_self]
    rfl
  · rw [hkept (by omega), typeBlock, peek_withIdle (by omega) (by omega)]
    simp only [single, heapNode, peek_poke_self]
    rfl
  · simp (disch := omega) only [newType, single, blankType, typeNode, peek_poke_of_apart,
      peek_poke_self]
    rfl

/-- The memory after the block of the object has been allocated. -/
def objBlock (v : Nat → UInt8) (z size : Nat) : Nat → UInt8 :=
  withIdle (linked heapNode (taken v 30 size) 12 12 30) (30 + heapNode.size + size)
    (z - size - heapNode.size)

/-- The block of the object is the second one. -/
theorem Typed.makeObject (h : Typed cfg v z) (hz : 10 + n ≤ z) (hfit : 46 + n ≤ limit)
    (htype : (18, typeNode.size) ∈ opened) (fuel : Nat) :
    ∃ w, Runs (layout n) opened v (cfg.makeObject (fuel + 1) n 18) (.ok (false, 40)) w := by
  have hlimit : limit = 2048 := rfl
  have hheapSize : heapNode.size = 6 := rfl
  have hobjSize : objNode.size = 4 := rfl
  have halloc : Runs (layout n) opened v (cfg.alloc (fuel + 1) (objNode.size + n)) (.ok 36)
      (objBlock v z (objNode.size + n)) := by
    refine h.oneIdle.alloc (by simp [layout]) (by simp [layout]) ?_ ?_ (by decide) ?_
      (fun opened hmeta => ?_) ?_ fuel
    · have heq : 30 + heapNode.size + (objNode.size + n) = 40 + n := by omega
      simp [layout, heq]
    · omega
    · omega
    · refine .add_cons heapNode_links hmeta (by decide) (by simp [layout]) ?_ (by decide)
        (by simp [layout]) ?_ (by simp [layout])
      · rw [Nat.zero_add, peek_taken (by omega) (by omega), h.front]
      · have hrear : peek (taken v 30 (objNode.size + n)) (12 + 2) 2 = 12 := by
          rw [peek_taken (by omega) (by omega), h.rear]
        exact hrear
    · simp (disch := omega) only [linked, taken, heapNode, peek_poke_of_apart, peek_poke_self]
      rfl
  have hobj : peek (blankObj (objBlock v z (objNode.size + n)) 36) (18 + 4) 2 = null := by
    simp (disch := omega) only [blankObj, objBlock, linked, heapNode, objNode, peek_poke_of_apart,
      peek_withIdle, peek_taken, h.obj]
  refine ⟨single objNode (blankObj (objBlock v z (objNode.size + n)) 36) (18 + 4) 36,
    .bind (.load htype (by decide)) ?_⟩
  rw [h.obj, if_pos rfl]
  refine .bind halloc (.bind (.hold (by simp [layout]) (.bind (.createObjNode List.mem_cons_self)
    (.add_nil objNode_links (List.mem_cons_of_mem _ htype) (by decide) (by simp [layout]) hobj)))
      .pure)

/-- On a storage with one idle block and no types, the first object is made. -/
theorem OneIdle.makeInternal (h : OneIdle cfg v 12 z) (halloc : peek v 6 2 = null)
    (htype : peek v 8 2 = null) (hz : 28 + n ≤ z) (hz' : z < 65536) (hfit : 46 + n ≤ limit)
    (fuel : Nat) (hash : UInt32) :
    ∃ w, Runs (layout n) [] v (cfg.makeInternal (fuel + 1) hash n) (.ok (false, 40)) w := by
  have htyped := h.typed hz' hash
  have hnode : (18, typeNode.size) ∈ [(18, typeNode.size), (0, metaSize)] := List.mem_cons_self
  obtain ⟨w, hw⟩ := htyped.makeObject (by omega) hfit hnode fuel
  have hblank : peek (blankType (typeBlock v z) 18 hash) (0 + 8) 2 = null := by
    simp (disch := omega) only [blankType, typeBlock, single, heapNode, Nat.zero_add,
      peek_poke_of_apart, peek_withIdle, peek_taken, htype]
  have hmeta : (0, metaSize) ∈ [(18, typeNode.size), (0, metaSize)] := by simp
  refine ⟨w, .hold (by simp [layout]) (.bind (.load List.mem_cons_self (by decide)) ?_)⟩
  rw [show peek v (0 + 0) 4 = _ from h.magic, if_neg (not_not.2 rfl)]
  refine .bind (.load List.mem_cons_self (by decide)) ?_
  rw [show peek v (0 + 0) 4 = _ from h.magic, if_neg (not_not.2 rfl)]
  refine .bind .pure (.bind (.load List.mem_cons_self (by decide)) ?_)
  rw [show peek v (0 + 8) 2 = _ from htype, if_pos rfl]
  refine .bind .pure (.bind (h.alloc_type (by omega) halloc fuel) (.hold (by simp [layout])
    (.bind (.createTypeNode List.mem_cons_self hash)
      (.bind (.add_nil typeNode_links hmeta (by decide) (by simp [layout]) hblank) hw))))

end

/-! ## What becomes of a device -/

/-- The same store while the thread has the owner. -/
def Store.owned (s : Store) : Store := { s with ctx := true }

theorem exec_withCtx {α : Type} {p : M α} {s s' : Store} {r : Except Exception α}
    (hctx : s.ctx = false) (h : exec p s.owned = some (r, s')) :
    exec (withCtx p) s = some (r, { s' with ctx := false }) := by
  rw [exec, withCtx, ExceptT.run_mk, StateT.run, hctx, if_neg Bool.false_ne_true]
  change (exec p s.owned).map _ = _
  rw [h]
  rfl

theorem Store.fresh_shows (content : Nat → UInt8) : Shows (fresh content).owned content [] := by
  refine ⟨rfl,
    ⟨[⟨0, limit, 0⟩], ⟨rfl, ⟨rfl, by decide, rfl⟩, List.isChain_singleton _⟩, fun o => ?_⟩,
    fun o ho => ?_, fun _ _ => rfl, fun _ _ => rfl⟩
  · simp
  · cases ho

/-- A store in which no object is in use is as it was before the first access. -/
theorem Shows.eq_fresh {s : Store} (h : Shows s v []) : s = (Store.fresh v).owned := by
  obtain ⟨device, range, data, ctx⟩ := s
  obtain ⟨hctx, ⟨l, htiled, hheld⟩, -, hunused, hdevice⟩ := h
  have hctx' : ctx = true := hctx
  have hdevice' : device = v := funext fun i => hdevice i fun o ho => absurd ho List.not_mem_nil
  have hdata :
      data = fun _ => none := funext fun a => hunused a fun o ho => absurd ho List.not_mem_nil
  have hidle : ∀ i ∈ l, i.count = 0 := fun i hi => not_not.1 fun hcount =>
    absurd (Shows.mem_opened htiled hheld hi hcount) List.not_mem_nil
  have hrange : range = [⟨0, 0⟩] := by
    obtain ⟨hrange, hpath, hsep⟩ := htiled
    cases l with
    | nil => cases hpath
    | cons i l =>
      have hi := hidle i (.head _)
      cases l with
      | nil => rw [show range = _ from hrange, ranges, List.map_singleton, hpath.1, hi]
      | cons k l =>
        -- the second range would be in use
        have hk := (List.isChain_cons_cons.1 hsep).1
        exact absurd (hidle k (.tail _ (.head _))) (hk.resolve_left (not_not.2 hi))
  rw [hctx', hdevice', hdata, hrange]
  rfl

section
variable (cfg : Config) (content : Nat → UInt8) (fuel : Nat) (hash : UInt32) (initial : List UInt8)

/-- A device is formatted, whatever it contains. -/
theorem format_fresh {n : Nat} (hL : Layout (layout n)) (hsize : 18 ≤ cfg.deviceSize)
    (hsize' : cfg.deviceSize ≤ limit) :
    ∃ s v, exec cfg.format (.fresh content) = some (.ok (), { s with ctx := false }) ∧
    Shows s v [] ∧
      OneIdle cfg v 12 (cfg.deviceSize - 18) ∧ peek v 6 2 = null ∧ peek v 8 2 = null := by
  have hlimit : limit = 2048 := rfl
  have hz : (cfg.deviceSize + 4294967296 - metaSize - heapNode.size) % 65536 =
      cfg.deviceSize - 18 := by
    simp only [metaSize, heapNode]
    omega
  have hruns : Runs (layout n) [] content (hold 0 metaSize cfg.createMeta) (.ok ())
      (withIdle (blankMeta cfg content) 12 (cfg.deviceSize - 18)) := by
    rw [← hz]
    exact .hold (by simp [layout])
      (.createMeta cfg List.mem_cons_self (by simp [layout, metaSize]))
  obtain ⟨s, hexec, hs⟩ := hruns hL (List.nil_subset _) _ (Store.fresh_shows content)
  refine ⟨s, _, exec_withCtx rfl hexec, hs, oneIdle_withIdle ?_ (by decide) (by decide) (by omega),
    ?_, ?_⟩
  · simp (disch := omega) only [blankMeta, peek_poke_of_apart, peek_poke_self]
    exact Nat.mod_eq_of_lt cfg.magic.toNat_lt
  · rw [peek_withIdle (by omega) (by omega)]
    simp (disch := omega) only [blankMeta, peek_poke_of_apart, peek_poke_self]
    rfl
  · rw [peek_withIdle (by omega) (by omega)]
    simp only [blankMeta, peek_poke_self]
    rfl

/-- What `make` has returned is an object with its initial value. -/
def Returns (initial : List UInt8) (out : Option (Except Exception Nat × Store)) : Prop :=
  ∃ addr s d, out = some (.ok addr, s) ∧ s.data addr = some d ∧ d.current = initial

/-- After the device has been formatted, the first object has its initial value. -/
theorem make_formatted (hne : initial ≠ []) (hfit : 46 + initial.length ≤ cfg.deviceSize)
    (hsize : cfg.deviceSize ≤ limit) :
    ∃ s, exec cfg.format (.fresh content) = some (.ok (), s) ∧
      Returns initial (exec (cfg.make (fuel + 1) hash initial) s) := by
  have hlimit : limit = 2048 := rfl
  have hL := layout_layout (List.length_pos_of_ne_nil hne) (by omega)
  obtain ⟨s, v, hformat, hs, hidle, halloc, htype⟩ :=
    format_fresh cfg content hL (by omega) hsize
  obtain ⟨w, hw⟩ := hidle.makeInternal halloc htype (n := initial.length) (by omega) (by omega)
    (by omega) fuel hash
  have hobj : (40, initial.length) ∈ layout initial.length := by simp [layout]
  obtain ⟨s₁, h₁, hs₁⟩ := hw hL (List.nil_subset _) s hs
  obtain ⟨s₂, h₂, hs₂⟩ := hs₁.getPtr hL (List.nil_subset _) hobj
  have hstore : Runs (layout initial.length) [(40, initial.length)] w (storeBytes 40 0 initial)
      (.ok ()) (program w 40 initial) := .storeBytes List.mem_cons_self (by omega)
  obtain ⟨s₃, h₃, hs₃⟩ := hstore hL (List.cons_subset.2 ⟨hobj, List.nil_subset _⟩) s₂ hs₂
  have howned : ({ s with ctx := false } : Store).owned = s := by
    obtain ⟨device, range, data, ctx⟩ := s
    obtain rfl : ctx = true := hs.ctx
    rfl
  refine ⟨{ s with ctx := false }, hformat, 40, { s₃ with ctx := false }, _, exec_withCtx rfl ?_,
    hs₃.data _ List.mem_cons_self, slice_program_self w 40 initial⟩
  rw [howned, exec_bind_ok h₁]
  refine (exec_bind_ok (exec_access h₂)).trans ?_
  exact (exec_bind_ok h₃).trans rfl

/-- A device without the magic number is not formatted: the metadata is read first,
and that fails. -/
theorem make_unformatted (hmagic : peek content 0 4 ≠ cfg.magic.toNat) :
    exec (cfg.make fuel hash initial) (.fresh content) =
      some (.error (.runtimeError "invalid meta"), .fresh content) := by
  have hL : Layout [(0, metaSize)] := by
    refine ⟨by decide, fun o ho o' ho' hne => ?_⟩
    rw [List.mem_singleton.1 ho, List.mem_singleton.1 ho'] at hne
    exact absurd rfl hne
  have hruns : Runs [(0, metaSize)] [] content (cfg.makeInternal fuel hash initial.length)
      (.error (.runtimeError "invalid meta")) content := by
    refine .hold List.mem_cons_self (.bind (.load List.mem_cons_self (by decide)) ?_)
    rw [if_pos hmagic]
    exact .throw _
  obtain ⟨s, hexec, hs⟩ := hruns hL (List.nil_subset _) _ (Store.fresh_shows content)
  obtain rfl := hs.eq_fresh
  exact exec_withCtx rfl (exec_bind_error hexec)

/-- **The storage does not format itself.** On a device with an invalid magic number `make` throws
and leaves everything as it was, and so it never returns an object. After the device has been
formatted, whatever it contained, the first `make` returns an object with its initial value if the
device is large enough. -/
theorem make_never_formats :
    (peek content 0 4 ≠ cfg.magic.toNat →
      exec (cfg.make fuel hash initial) (.fresh content) =
          some (.error (.runtimeError "invalid meta"), .fresh content) ∧
        ¬ Returns initial (exec (cfg.make fuel hash initial) (.fresh content))) ∧
    (initial ≠ [] → 46 + initial.length ≤ cfg.deviceSize → cfg.deviceSize ≤ limit →
      ∃ s, exec cfg.format (.fresh content) = some (.ok (), s) ∧
        Returns initial (exec (cfg.make (fuel + 1) hash initial) s)) := by
  refine ⟨fun hmagic => ?_, make_formatted cfg content fuel hash initial⟩
  have hexec := make_unformatted cfg content fuel hash initial hmagic
  refine ⟨hexec, fun ⟨addr, s, d, hreturns, _⟩ => ?_⟩
  rw [hexec] at hreturns
  cases hreturns

end

/-- A byte on a blank device: `make` throws, but it returns the byte after `format`. -/
theorem make_never_formats_byte :
    ¬ Returns [42] (exec (Config.make ⟨0x4D657461, 2048⟩ 1 7 [42]) (.fresh fun _ => 0xff)) ∧
    ∃ s, exec (Config.format ⟨0x4D657461, 2048⟩) (.fresh fun _ => 0xff) = some (.ok (), s) ∧
      Returns [42] (exec (Config.make ⟨0x4D657461, 2048⟩ 2 7 [42]) s) := by
  obtain ⟨hthrows, hformat⟩ := make_never_formats ⟨0x4D657461, 2048⟩ (fun _ => 0xff) 1 7 [42]
  exact ⟨(hthrows (by decide)).2, hformat (List.cons_ne_nil _ _) (by decide) (by decide)⟩

/-- A blank device has an invalid magic number, but it is not formatted. -/
theorem make_blank :
    peek (fun _ => 0xff) 0 4 ≠ (0x4D657461 : UInt32).toNat ∧
    exec (Config.make ⟨0x4D657461, 2048⟩ 1 7 [42]) (.fresh fun _ => 0xff) =
      some (.error (.runtimeError "invalid meta"), .fresh fun _ => 0xff) ∧
    ¬ Returns [42] (exec (Config.make ⟨0x4D657461, 2048⟩ 1 7 [42]) (.fresh fun _ => 0xff)) := by
  have hmagic : peek (fun _ => 0xff) 0 4 ≠ (0x4D657461 : UInt32).toNat := by decide
  have hexec := make_unformatted ⟨0x4D657461, 2048⟩ (fun _ => 0xff) 1 7 [42] hmagic
  refine ⟨hmagic, hexec, fun ⟨addr, s, d, hreturns, _⟩ => ?_⟩
  rw [hexec] at hreturns
  cases hreturns

end ChargingPile.Eeprom
