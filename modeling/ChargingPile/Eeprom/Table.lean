import ChargingPile.Eeprom.Transparent
import ChargingPile.Idx.Asset

/-!
# The store as a table of `Idx`

The store has the functions of `IdxAsset` for `Idx` that are accessed once and then held. The model
of `Idx` itself (`Idx.Asset`) has them at the places of its two lists, and with buffers that
several `Idx` share. With the `Null` and the `Max` of the storage, the store is what can be seen of
such an asset (`Store.of`): every sequence of accesses, writes and disposals does the same to both
and throws the same.
-/

namespace ChargingPile.Eeprom

open Intervals
open Idx (Asset Rep Object Owned)

/-- `Null` and `Max` of the `Idx` of the storage. -/
def space : Idx.Space := ⟨null, limit - 1⟩

/-- What can be seen of an asset: the ranges with their counts, and the content of the buffers. -/
def Store.of (ctx : Bool) (a : Asset) : Store where
  device := a.device
  range := List.zipWith Range.mk a.range a.count
  data addr := (a.data addr).map fun d => ⟨a.buffers.getD d.current [], d.backup⟩
  ctx := ctx

/-- The uses of objects: an `Idx` is accessed for the first time, an object in memory is written
to, and an `Idx` goes that was accessed. -/
inductive Use
  | getPtr (addr size : Nat) (size_pos : 0 < size)
  | write (addr off : Nat) (bytes : List UInt8)
  | dispose (o : Object space)

/-- The uses on an asset. -/
def assetUses (ctx : Bool) : Machine Asset Use Exception where
  step a
    | .getPtr addr size _ => let r := a.getPtr space ctx none addr size; (r.2, Idx.thrown r.1)
    | .write addr off bytes =>
      (match a.data addr with
        | none => a
        | some d => a.write d.current off bytes, [])
    | .dispose o => ((a.dispose o.addr o.size).2, [])

/-- The uses on a store. -/
def storeUses : Machine Store Use Exception where
  step s
    | .getPtr addr size _ =>
      match s.getPtr addr size with
      | .error e => (s, [e])
      | .ok s => (s, [])
    | .write addr off bytes =>
      match exec (storeBytes addr off bytes) s with
      | none => (s, [])
      | some (_, s) => (s, [])
    | .dispose o => (s.dispose o.addr o.size, [])

/-! ## One use -/

section
variable {l l₁ l₂ : List Interval} {i : Interval} {a : Asset} {addr size : Nat} {ctx : Bool}

theorem zipWith_bounds (l : List Interval) (q : Nat) :
    List.zipWith Range.mk (bounds l q) (l.map Interval.count) = ranges l := by
  induction l with
  | nil => rfl
  | cons i l ih => exact congrArg (⟨i.start, i.count⟩ :: ·) ih

theorem of_withTable (ctx : Bool) (a : Asset) (l : List Interval) :
    Store.of ctx (a.withTable l limit) = { Store.of ctx a with range := ranges l } := by
  simp only [Store.of, Asset.withTable, zipWith_bounds]

theorem range_of (h : Rep limit l a) : (Store.of ctx a).range = ranges l := by
  rw [← h.table, of_withTable]

theorem data_of (ctx : Bool) (a : Asset) (addr : Nat) :
    (Store.of ctx a).data addr =
      (a.data addr).map fun d => ⟨a.buffers.getD d.current [], d.backup⟩ := rfl

/-- What an access to an asset shows. -/
def Store.result (ctx : Bool) : Except Exception Nat × Asset → Except Exception Store
  | (.error e, _) => .error e
  | (.ok _, a) => .ok (.of ctx a)

/-- An object is read. -/
theorem of_read (h : Owned a) (ctx : Bool) (addr size : Nat) :
    Store.of ctx (a.read addr size).2 =
      { Store.of ctx a with
        data := Function.update (Store.of ctx a).data addr
          (some ⟨slice a.device addr size, slice a.device addr size⟩) } := by
  simp only [Store.of, Asset.read, Store.mk.injEq, true_and, and_true]
  funext x
  rcases eq_or_ne x addr with rfl | hne
  · simp
  · rw [Function.update_of_ne hne, Function.update_of_ne hne]
    cases hd : a.data x with
    | none => rfl
    | some d =>
      simp [List.getD_eq_getElem?_getD, List.getElem?_append_left (h.ptr_lt x d hd)]

theorem createNode_of (h : Rep limit l a) (hown : Owned a) (ctx : Bool) (haddr : addr < limit)
    (size : Nat) :
    (Store.of ctx a).createNode addr size = Store.result ctx (a.createNode addr size) := by
  obtain ⟨l₁, i, l₂, rfl, hstart, hstop⟩ := h.path.exists_mem (Nat.zero_le addr) haddr
  have heq := Idx.createNode_eq a size h.path hstart hstop
  rw [h.table] at heq
  rw [Store.createNode, range_of h, split_ranges h.path hstart hstop, heq]
  rcases Classical.em (i.stop < addr + size ∨ i.count ≠ 0) with hcross | hfree
  · rw [if_pos hcross, if_pos hcross]
    rfl
  · have hread :=
      of_read (hown.withTable (l₁ ++ (cut i addr (addr + size) ++ l₂)) limit) ctx addr size
    rw [of_withTable] at hread
    rw [if_neg hfree, if_neg hfree]
    exact congrArg Except.ok hread.symm

/-- An object in memory gets one more user. -/
theorem retain_of (h : Rep limit l a) {d : Idx.Data} (hd : a.data addr = some d) (ctx : Bool)
    (size : Nat) :
    (retain addr size (Store.of ctx a).range).map (fun range => { Store.of ctx a with range }) =
      Store.result ctx (a.access none addr size) := by
  obtain ⟨l₁, i, l₂, rfl, rfl, hcount⟩ := h.busy hd
  have hchecked := h.checked hcount size
  rw [range_of h, retain_ranges h.path]
  simp only [Asset.access, hd, hchecked, hcount, if_false]
  rcases eq_or_ne i.stop (i.start + size) with hstop | hstop
  · rw [if_neg (not_not.2 hstop), if_pos hstop]
    dsimp only
    rw [h.modify_eq, Store.result, of_withTable]
    rfl
  · rw [if_pos hstop, if_neg hstop]
    rfl

/-- **The first access** through an `Idx`. -/
theorem getPtr_of (h : Rep limit l a) (hown : Owned a) (ctx : Bool) (addr : Nat)
    (hsize : 0 < size) :
    (Store.of ctx a).getPtr addr size =
      Store.result ctx (a.getPtr space ctx none addr size) := by
  have hmax : space.max < addr + size - 1 ↔ limit ≤ addr + size - 1 := by
    simp only [space, limit]
    omega
  have hnull : space.null = null := rfl
  simp only [Store.getPtr, Asset.getPtr, hmax, hnull]
  rcases eq_or_ne addr null with hnull | hnull
  · rw [if_pos hnull, if_pos hnull]
    rfl
  · rw [if_neg hnull, if_neg hnull]
    rcases Nat.lt_or_ge (addr + size - 1) limit with hlt | hge
    · rw [if_neg (Nat.not_le.2 hlt), if_neg (Nat.not_le.2 hlt)]
      cases ctx with
      | false => rfl
      | true =>
        have haddr : addr < limit := by omega
        cases hd : a.data addr with
        | none =>
          rw [Idx.access_new size hd]
          simpa [data_of, hd, Store.of] using createNode_of h hown true haddr size
        | some d => simpa [data_of, hd, Store.of] using retain_of h hd true size
    · rw [if_pos hge, if_pos hge]
      rfl

/-- An object is written back. -/
theorem of_writeBack {d : Idx.Data} (hd : a.data addr = some d) (ctx : Bool) :
    Store.of ctx (a.writeBack addr).2 =
      let bytes := a.buffers.getD d.current []
      { Store.of ctx a with
        device := if bytes ≠ d.backup then program a.device addr bytes else a.device
        data := Function.update (Store.of ctx a).data addr none } := by
  simp only [Store.of, Asset.writeBack, hd, Store.mk.injEq, true_and, and_true]
  funext x
  rcases eq_or_ne x addr with rfl | hne
  · simp
  · rw [Function.update_of_ne hne, Function.update_of_ne hne]

/-- **An `Idx` goes** that was accessed. -/
theorem dispose_of (h : Rep limit l a) (ctx : Bool) (haddr : addr < limit)
    (size : Nat) :
    (Store.of ctx a).dispose addr size = Store.of ctx (a.dispose addr size).2 := by
  rw [Store.dispose, range_of h]
  rcases h.find haddr with ⟨l₁, i, l₂, rfl, rfl⟩ | ⟨hfound, hno⟩
  · obtain ⟨-, hlt, -⟩ := path_split.1 h.path
    rw [lookup_ranges h.path]
    dsimp only
    rcases Classical.em (i.count = 0 ∨ i.stop - i.start ≠ size) with hignored | hused
    · rw [if_pos hignored, h.dispose_ignored (hignored.imp_right fun hne heq => hne (by omega))]
    · obtain ⟨hcount, hlen⟩ := not_or.1 hused
      have hstop : i.stop = i.start + size := by omega
      rw [if_neg hused]
      rcases Nat.lt_or_ge 1 i.count with hlt' | hle
      · rw [if_pos (Nat.ne_of_gt hlt'), h.dispose_shared hstop hlt', of_withTable,
          setCount_ranges h.path]
      · have hone : i.count = 1 := by omega
        have hpath : Path 0 (l₁ ++ ⟨i.start, i.stop, 0⟩ :: l₂) limit := by
          obtain ⟨h₁, -, h₂⟩ := path_split.1 h.path
          exact path_split.2 ⟨h₁, hlt, h₂⟩
        have hjoin : join i.start (ranges (l₁ ++ ⟨i.start, i.stop, 0⟩ :: l₂)) = _ :=
          join_ranges hpath rfl
        have hsome : (a.data i.start).isSome :=
          (h.keys i.start).2 ⟨i, List.mem_append_right _ (.head _), rfl, hcount⟩
        obtain ⟨d, hd⟩ := Option.isSome_iff_exists.1 hsome
        have hd' : (a.withTable (merge l₁ ⟨i.start, i.stop, 0⟩ l₂) limit).data i.start = some d :=
          hd
        rw [if_neg (not_not.2 hone), setCount_ranges h.path, hjoin, h.dispose_last hstop hone,
          of_writeBack hd', of_withTable, data_of, hd]
        rfl
  · rw [lookup_ranges_none hno, Asset.dispose, if_pos hfound]

/-- **A write** to an object in memory. No other object has its buffer. -/
theorem write_of (hown : Owned a) {d : Idx.Data} (hd : a.data addr = some d) (ctx : Bool)
    (off : Nat) (bytes : List UInt8) :
    exec (storeBytes addr off bytes) (.of ctx a) =
      some (.ok (), .of ctx (a.write d.current off bytes)) := by
  have hdata : (Store.of ctx a).data addr = some ⟨a.buffers.getD d.current [], d.backup⟩ := by
    rw [data_of, hd]
    rfl
  rw [exec_storeBytes hdata]
  simp only [Store.of, Asset.write, Option.some.injEq, Prod.mk.injEq, Store.mk.injEq, true_and,
    and_true]
  funext x
  rcases eq_or_ne x addr with rfl | hne
  · have hlt := hown.ptr_lt x d hd
    simp [hd, List.getD_eq_getElem?_getD, hlt, Idx.splice]
  · rw [Function.update_of_ne hne]
    cases hx : a.data x with
    | none => rfl
    | some d' =>
      have hptr : d.current ≠ d'.current :=
        fun heq => hne (hown.ptr_inj x d' addr d hx hd heq.symm)
      simp [List.getD_eq_getElem?_getD, List.getElem?_modify_ne _ _ hptr]

/-! ## Sequences of uses -/

/-- The store is what can be seen of a valid asset. -/
def Seen (ctx : Bool) (s : Store) (a : Asset) : Prop :=
  s = .of ctx a ∧ Owned a ∧ ∃ l, Rep limit l a

theorem Seen.getPtr {s : Store} (h : Seen ctx s a) (addr : Nat) (hsize : 0 < size) :
    Seen ctx (storeUses.step s (.getPtr addr size hsize)).1
        ((assetUses ctx).step a (.getPtr addr size hsize)).1 ∧
      (storeUses.step s (.getPtr addr size hsize)).2 =
        ((assetUses ctx).step a (.getPtr addr size hsize)).2 := by
  obtain ⟨rfl, hown, l, hrep⟩ := h
  have hget := getPtr_of hrep hown ctx addr hsize
  have hrep₀ : Rep (space.max + 1) l a := hrep
  simp only [storeUses, assetUses, hget]
  rcases hrep₀.getPtr ctx none addr hsize with ⟨e, heq⟩ |
    ⟨-, ⟨ptr, hno, -⟩ | ⟨l', -, hrep', ⟨-, heq⟩ | ⟨d, -, -, heq⟩⟩⟩
  · rw [heq]
    exact ⟨⟨rfl, hown, l, hrep⟩, rfl⟩
  · cases hno
  · rw [heq] at hrep' ⊢
    exact ⟨⟨rfl, (hown.withTable l' _).read addr size, l', hrep'⟩, rfl⟩
  · rw [heq] at hrep' ⊢
    exact ⟨⟨rfl, hown.withTable l' _, l', hrep'⟩, rfl⟩

theorem Seen.dispose {s : Store} (h : Seen ctx s a) (o : Object space) :
    Seen ctx (storeUses.step s (.dispose o)).1 ((assetUses ctx).step a (.dispose o)).1 := by
  obtain ⟨rfl, hown, l, hrep⟩ := h
  have haddr : o.addr < limit := Nat.lt_of_lt_of_le (Nat.lt_add_of_pos_right o.size_pos) o.fits
  refine ⟨dispose_of hrep ctx haddr o.size, ?_⟩
  simp only [assetUses]
  rcases hrep.dispose haddr o.size with ⟨-, heq⟩ | ⟨l', hrep', -, ⟨-, heq⟩ | ⟨hheld, heq⟩⟩
  · rw [heq]
    exact ⟨hown, l, hrep⟩
  · rw [heq] at hrep' ⊢
    exact ⟨hown.withTable l' limit, l', hrep'⟩
  · obtain ⟨i, hi, hstart, -, hcount⟩ := exists_of_held (hheld ▸ Nat.one_ne_zero)
    obtain ⟨d, hd⟩ := Option.isSome_iff_exists.1 ((hrep.keys _).2 ⟨i, hi, hstart, hcount⟩)
    rw [heq] at hrep' ⊢
    exact ⟨(hown.withTable l' limit).writeBack hd, l', hrep'⟩

theorem Seen.write {s : Store} (h : Seen ctx s a) (addr off : Nat) (bytes : List UInt8) :
    Seen ctx (storeUses.step s (.write addr off bytes)).1
        ((assetUses ctx).step a (.write addr off bytes)).1 ∧
      (storeUses.step s (.write addr off bytes)).2 = [] := by
  obtain ⟨rfl, hown, l, hrep⟩ := h
  simp only [storeUses, assetUses]
  cases hd : a.data addr with
  | none =>
    have hnone : exec (storeBytes addr off bytes) (.of ctx a) = none := by
      rw [exec, storeBytes, ExceptT.run_mk, StateT.run, data_of, hd]
      rfl
    rw [hnone]
    exact ⟨⟨rfl, hown, l, hrep⟩, rfl⟩
  | some d =>
    rw [write_of hown hd]
    exact ⟨⟨rfl, hown.write d.current off bytes, l, hrep.write d.current off bytes⟩, rfl⟩

/-- One use keeps what can be seen, and throws the same. -/
theorem Seen.step {s : Store} (h : Seen ctx s a) (u : Use) :
    Seen ctx (storeUses.step s u).1 ((assetUses ctx).step a u).1 ∧
      (storeUses.step s u).2 = ((assetUses ctx).step a u).2 := by
  cases u with
  | getPtr addr size hsize => exact h.getPtr addr hsize
  | write addr off bytes => exact h.write addr off bytes
  | dispose o => exact ⟨h.dispose o, rfl⟩

/-- **The store is the table of `Idx`.** After every sequence of uses of a device the store is what
can be seen of the asset, and it has thrown the same. -/
theorem store_refines (ctx : Bool) (device : Nat → UInt8) (us : List Use) :
    storeUses.run { Store.fresh device with ctx } us =
        .of ctx ((assetUses ctx).run (Asset.init space device) us) ∧
      storeUses.trace { Store.fresh device with ctx } us =
        (assetUses ctx).trace (Asset.init space device) us := by
  have hinit : Seen ctx { Store.fresh device with ctx } (Asset.init space device) :=
    ⟨rfl, ⟨nofun, nofun⟩, _, Idx.rep_init space device⟩
  have halong : (assetUses ctx).Along (fun _ _ => True) (Asset.init space device) us :=
    Machine.along_of_mem fun _ _ _ => trivial
  obtain ⟨⟨hrun, -⟩, htrace⟩ := Machine.simulate (M := storeUses) (R := Seen ctx)
    (fun _ _ u hseen _ => hseen.step u) halong hinit
  exact ⟨hrun, htrace⟩

end

end ChargingPile.Eeprom
