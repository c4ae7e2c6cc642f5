import ChargingPile.Serializer.Reachable
import Mathlib.Data.List.Forall2

/-!
# The round trip of an object graph

Serializer and deserializer number the objects of a graph in the same order, so the objects that
the serializer has met and those that the deserializer has made correspond to each other by
their places in two lists. `Sim` relates a piece of the serializer to a piece of the
deserializer: what the one writes is read by the other, and the objects keep corresponding.
There is a rule for each way of putting pieces together, and one case for each type
(`sim_value`). A pointer is a piece of its own, by induction on the fuel (`sim_pointer`): while
a body is on its way, its object is open at both ends.
-/

namespace ChargingPile

namespace Graph

variable {N : Type} {S : Schema N} {α : Type}

/-- The same value, except that pointers are related by `R`. -/
def PTy.Same (R : Addr → Addr → Prop) {k : Kind} {α : Type} : PTy N k α → α → α → Prop
  | .plain _, a, a' => a = a'
  | .shared _, a, a' => R a a'
  | .weak _, a, a' => R a a'
  | .nil, _, _ => True
  | .field t ts, (a, b), (a', b') => Same R t a a' ∧ Same R ts b b'
  | .aggregate tie _ ts, a, a' => Same R ts (tie a) (tie a')
  | .cont t, l, l' => List.Forall₂ (Same R t) l l'
  | .optional t, o, o' => Option.Rel (Same R t) o o'
  | .map _ _ mapped, m, m' =>
    List.Forall₂ (fun e e' => e.1 = e'.1 ∧ Same R mapped e.2 e'.2) m.entries m'.entries

/-- A new deserializer parses the value. -/
def deserialize [DecidableEq N] (G : Graph S α) (A : Allocator) (fuel : Nat) :
    Reader UInt8 (Option (α × Deserializer S)) :=
  Deserializer.parseWith (Deserializer.parsePtr A fuel) G.ty {}

/-- The deserializer has made an isomorphic graph: `R` is a one-to-one correspondence between the
objects of the graph and those that the deserializer has made and holds, it relates null to null
only, and up to it the values and the bodies are the same. -/
structure Isomorphic (G : Graph S α) (R : Addr → Addr → Prop) (root : α) (d : Deserializer S) :
    Prop where
  null : R 0 0
  ne_zero : ∀ a b, R a b → (a = 0 ↔ b = 0)
  left_unique : ∀ a a' b, R a b → R a' b → a = a'
  right_unique : ∀ a b b', R a b → R a b' → b = b'
  same : G.ty.Same R G.root root
  total : ∀ n a, G.Reachable n a → ∃ b, R a b
  body : ∀ n a b v, G.Reachable n a → G.heap n a = some v → R a b →
    ∃ v', d.heap n b = some v' ∧ (S.ty n).Same R v v'
  onto : ∀ n b v, d.heap n b = some v → ∃ a, G.Reachable n a ∧ R a b
  held : ∀ n b v, d.heap n b = some v → ∃ idx : UInt8, d.ptrs[idx]? = some b

/-! ## Simulation -/

/-- The values stay the same when more objects are related. -/
theorem PTy.Same.mono {R R' : Addr → Addr → Prop} (hR : ∀ a b, R a b → R' a b) {k : Kind}
    {β : Type} {t : PTy N k β} {v v' : β} (h : t.Same R v v') : t.Same R' v v' := by
  induction t with
  | plain => exact h
  | shared | weak => exact hR v v' h
  | nil => trivial
  | field t ts ih ihs => exact ⟨ih h.1, ihs h.2⟩
  | aggregate tie init ts ih => exact ih h
  | cont t ih => exact List.Forall₂.imp (fun _ _ => ih) h
  | optional t ih =>
    cases h with
    | some h => exact .some (ih h)
    | none => exact .none
  | map c key mapped ih => exact List.Forall₂.imp (fun _ _ h => ⟨h.1, ih h.2⟩) h

/-- Corresponding objects: those at the same place in the order of the two ends, and null. -/
def Matched (s : Serializer) (d : Deserializer S) (a b : Addr) : Prop :=
  a = 0 ∧ b = 0 ∨ ∃ i : Nat, s.bodies[i]? = some a ∧ d.allocated[i]? = some b

theorem getElem?_of_prefix {β : Type} {l l' : List β} (h : l <+: l') {i : Nat} {x : β}
    (hi : l[i]? = some x) : l'[i]? = some x := by
  obtain ⟨t, rfl⟩ := h
  rw [List.getElem?_append_left (List.getElem?_eq_some_iff.1 hi).1, hi]

theorem Matched.mono {s s' : Serializer} {d d' : Deserializer S} (hs : s.bodies <+: s'.bodies)
    (hd : d.allocated <+: d'.allocated) (a b : Addr) (h : Matched s d a b) : Matched s' d' a b :=
  h.imp_right fun ⟨i, ha, hb⟩ => ⟨i, getElem?_of_prefix hs ha, getElem?_of_prefix hd hb⟩

/-- The two ends correspond: the deserializer has made an object for each one that the serializer
has met, with the same number. The bodies are in place, except those of `opn`. -/
structure Corr (G : Graph S α) (opn : List Addr) (s : Serializer) (d : Deserializer S) : Prop
    extends Inside G s where
  length_eq : d.allocated.length = s.bodies.length
  allocated_nodup : d.allocated.Nodup
  null_notAllocated : 0 ∉ d.allocated
  ptrs : ∀ (idx : UInt8) (b : Addr), d.ptrs[idx]? = some b ↔
    ∃ i, d.allocated[i]? = some b ∧ idx = UInt8.ofNat (i + 1)
  body : ∀ a b, a ≠ 0 → a ∉ opn → Matched s d a b → ∀ n v, G.Reachable n a → G.heap n a = some v →
    ∃ v', d.heap n b = some v' ∧ (S.ty n).Same (Matched s d) v v'
  onto : ∀ n b v, d.heap n b = some v → ∃ a, a ≠ 0 ∧ Matched s d a b ∧ G.Reachable n a

theorem Corr.write {G : Graph S α} {opn : List Addr} {s : Serializer} {d : Deserializer S}
    (h : Corr G opn s d) (l : List UInt8) : Corr G opn (s.write l) d :=
  ⟨h.toInside.write l, h.length_eq, h.allocated_nodup, h.null_notAllocated, h.ptrs, h.body, h.onto⟩

/-- What `act` writes is read by `p`, with any amount of fuel, and the result is related to what
was written by `rel` under the correspondence of the objects. -/
def Sim (G : Graph S α) (opn : List Addr) {β : Type} (act : Serializer → Option Serializer)
    (p : Nat → Deserializer.Parse S β) (rel : (Addr → Addr → Prop) → β → Prop) : Prop :=
  ∀ s d s', Corr G opn s d → act s = some s' → ∃ l v d',
    s'.bytes = s.bytes ++ l ∧ (∀ fuel, (p fuel).Reads d l v d') ∧ rel (Matched s' d') v ∧
    Corr G opn s' d' ∧ s.bodies <+: s'.bodies ∧ d.allocated <+: d'.allocated

namespace Sim

variable {G : Graph S α} {opn : List Addr} {β γ : Type} {act act' : Serializer → Option Serializer}
  {p : Nat → Deserializer.Parse S β} {rel rel' : (Addr → Addr → Prop) → β → Prop}

theorem imp (h : Sim G opn act p rel) (hrel : ∀ R v, rel R v → rel' R v) :
    Sim G opn act p rel' := by
  intro s d s' hs hact
  obtain ⟨l, v, d', hbytes, hread, hv, hs', hgrow⟩ := h s d s' hs hact
  exact ⟨l, v, d', hbytes, hread, hrel _ v hv, hs', hgrow⟩

theorem pure (v : β) : Sim G opn some (fun _ => .pure v) fun _ w => w = v := by
  rintro s d _ hs ⟨⟩
  exact ⟨[], v, d, (List.append_nil _).symm, fun _ => .pure v d, rfl, hs, List.prefix_rfl,
    List.prefix_rfl⟩

theorem bytes {l : List UInt8} {r : Reader UInt8 β} {v : β}
    (h : ∀ rest, r.run (l ++ rest) = some (v, rest)) :
    Sim G opn (fun s => some (s.write l)) (fun _ => .lift r) fun _ w => w = v := by
  rintro s d _ hs ⟨⟩
  exact ⟨l, v, d, rfl, fun _ => .lift h d, rfl, hs.write l, List.prefix_rfl, List.prefix_rfl⟩

/-- After bytes that are read as `v`. -/
theorem after {l : List UInt8} {r : Reader UInt8 γ} {v : γ}
    (h : ∀ rest, r.run (l ++ rest) = some (v, rest)) {f : Nat → γ → Deserializer.Parse S β}
    (hf : Sim G opn act (fun fuel => f fuel v) rel) :
    Sim G opn (fun s => act (s.write l)) (fun fuel => (StateReader.lift r).bind (f fuel)) rel := by
  intro s d s' hs hact
  obtain ⟨l', w, d', hbytes, hread, hw, hs', hgrow⟩ := hf (s.write l) d s' (hs.write l) hact
  refine ⟨l ++ l', w, d', ?_, fun fuel => (StateReader.Reads.lift h d).bind (hread fuel), hw, hs',
    hgrow⟩
  rw [hbytes, Serializer.write, List.append_assoc]

theorem bind {f : Nat → β → Deserializer.Parse S γ} {rel' : β → (Addr → Addr → Prop) → γ → Prop}
    (h : Sim G opn act p rel)
    (hmono : ∀ R R' : Addr → Addr → Prop, (∀ a b, R a b → R' a b) → ∀ v, rel R v → rel R' v)
    (hf : ∀ v, (∃ R, rel R v) → Sim G opn act' (fun fuel => f fuel v) (rel' v)) :
    Sim G opn (fun s => (act s).bind act') (fun fuel => (p fuel).bind (f fuel))
      fun R w => ∃ v, rel R v ∧ rel' v R w := by
  intro s d s₂ hs hact
  obtain ⟨s₁, hact₁, hact₂⟩ := Option.bind_eq_some_iff.1 hact
  obtain ⟨l₁, v, d₁, hbytes₁, hread₁, hv, hs₁, hgrow₁, halloc₁⟩ := h s d s₁ hs hact₁
  obtain ⟨l₂, w, d₂, hbytes₂, hread₂, hw, hs₂, hgrow₂, halloc₂⟩ := hf v ⟨_, hv⟩ s₁ d₁ s₂ hs₁ hact₂
  refine ⟨l₁ ++ l₂, w, d₂, ?_, fun fuel => (hread₁ fuel).bind (hread₂ fuel), ⟨v, ?_, hw⟩, hs₂,
    hgrow₁.trans hgrow₂, halloc₁.trans halloc₂⟩
  · rw [hbytes₂, hbytes₁, List.append_assoc]
  · exact hmono _ _ (Matched.mono hgrow₂ halloc₂) v hv

/-- What is read is turned into a value. -/
theorem map (h : Sim G opn act p rel) (f : β → γ) :
    Sim G opn act (fun fuel => (p fuel).bind fun v => .pure (f v))
      fun R w => ∃ v, rel R v ∧ w = f v := by
  intro s d s' hs hact
  obtain ⟨l, v, d', hbytes, hread, hv, hs', hgrow⟩ := h s d s' hs hact
  refine ⟨l, f v, d', hbytes, fun fuel => ?_, ⟨v, hv, rfl⟩, hs', hgrow⟩
  have hbind := (hread fuel).bind (f := fun v => .pure (f v)) (.pure (f v) d')
  rwa [List.append_nil] at hbind

/-- The stream is valid. -/
theorem check (init : β) (h : Sim G opn act p rel) :
    Sim G opn act (fun fuel => Deserializer.check init (p fuel)) rel := h

/-- A list is written element by element, and read by a loop. -/
theorem loop {δ : Type} {f : δ → Serializer → Option Serializer}
    {rel : δ → (Addr → Addr → Prop) → β → Prop}
    {l : List δ} (h : ∀ x ∈ l, Sim G opn (f x) p (rel x))
    (hmono : ∀ x, ∀ R R' : Addr → Addr → Prop, (∀ a b, R a b → R' a b) → ∀ v, rel x R v →
      rel x R' v)
    (act : γ → β → γ) (c : γ) :
    Sim G opn (fun s => l.foldlM (fun s x => f x s) s)
      (fun fuel => (p fuel).loop act l.length c)
      fun R w => ∃ vs, List.Forall₂ (fun x v => rel x R v) l vs ∧ w = vs.foldl act c := by
  induction l generalizing c with
  | nil => exact (pure c).imp fun R w hw => ⟨[], .nil, hw⟩
  | cons x l ih =>
    refine Sim.imp ((h x List.mem_cons_self).bind (hmono x) fun v _ =>
      ih (fun y hy => h y (List.mem_cons_of_mem _ hy)) (act c v)) ?_
    rintro R w ⟨v, hv, vs, hvs, rfl⟩
    exact ⟨v :: vs, .cons hv hvs, rfl⟩

/-- A list is written with its size first. -/
theorem sized {δ : Type} {f : δ → Serializer → Option Serializer}
    {rel : δ → (Addr → Addr → Prop) → β → Prop}
    {l : List δ} (hlen : l.length ≤ 65535) (h : ∀ x ∈ l, Sim G opn (f x) p (rel x))
    (hmono : ∀ x, ∀ R R' : Addr → Addr → Prop, (∀ a b, R a b → R' a b) → ∀ v, rel x R v →
      rel x R' v)
    (act : γ → β → γ) (c : γ) :
    Sim G opn
      (fun s => l.foldlM (fun s x => f x s)
        (s.write (ChargingPile.Serializer.buildSize l.length)))
      (fun fuel => (StateReader.lift ChargingPile.Deserializer.parseSize).bind fun size =>
        (p fuel).loop act size c)
      fun R w => ∃ vs, List.Forall₂ (fun x v => rel x R v) l vs ∧ w = vs.foldl act c := by
  exact after (ChargingPile.Deserializer.run_parseSize hlen)
    (f := fun fuel size => (p fuel).loop act size c) (loop h hmono act c)

end Sim

/-- A value is read back up to its pointers if its pointers are. -/
theorem sim_value {G : Graph S α} {opn : List Addr}
    {node : N → Addr → Serializer → Option Serializer}
    {node' : Nat → N → Deserializer.Parse S Addr} (hnode : ∀ n a, (a = 0 ∨ G.Reachable n a) →
      Sim G opn (node n a) (fun fuel => node' fuel n) fun R b => R a b)
    {k : Kind} {β : Type} (t : PTy N k β) {v : β} (hfits : t.Fits v)
    (hitems : ∀ n a, .ptr n a ∈ t.items v → a = 0 ∨ G.Reachable n a) :
    Sim G opn (Serializer.buildWith node t v) (fun fuel => Deserializer.parseWith (node' fuel) t)
      fun R => t.Same R v := by
  induction t with
  | plain t =>
    exact (Sim.bytes fun rest => ChargingPile.Deserializer.run_parse t hfits rest).imp
      fun _ _ h => h.symm
  | shared n => exact hnode n v (hitems n v List.mem_cons_self)
  | weak n => exact hnode n v (hitems n v List.mem_cons_self)
  | nil => exact (Sim.pure ()).imp fun _ _ _ => trivial
  | field t ts ih ihs =>
    obtain ⟨a, b⟩ := v
    have ha := ih hfits.1 fun n c hc => hitems n c (List.mem_append_left _ hc)
    have hb := ihs hfits.2 fun n c hc => hitems n c (List.mem_append_right _ hc)
    refine Sim.imp (ha.bind (fun _ _ hR _ => PTy.Same.mono hR) fun x _ => hb.map (x, ·)) ?_
    rintro R _ ⟨x, hx, y, hy, rfl⟩
    exact ⟨hx, hy⟩
  | aggregate tie init ts ih =>
    refine Sim.check init (((ih hfits hitems).map tie.symm).imp ?_)
    rintro R _ ⟨x, hx, rfl⟩
    show ts.Same R (tie v) (tie (tie.symm x))
    rwa [tie.apply_symm_apply]
  | cont t ih =>
    have helem : ∀ a ∈ v, Sim G opn (Serializer.buildWith node t a)
        (fun fuel => Deserializer.parseWith (node' fuel) t) fun R => t.Same R a := by
      intro a ha
      refine ih (hfits.2 a ha) fun n c hc => hitems n c ?_
      exact List.mem_cons_of_mem _ (List.mem_flatMap.2 ⟨a, ha, hc⟩)
    refine Sim.check [] (Sim.imp
      (Sim.sized hfits.1 helem (fun _ _ _ hR _ => PTy.Same.mono hR) (fun l a => l ++ [a]) []) ?_)
    rintro R _ ⟨vs, hvs, rfl⟩
    rw [List.foldl_append_eq_append, ← List.flatMap_def, List.flatMap_singleton', List.nil_append]
    exact hvs
  | optional t ih =>
    cases v with
    | none =>
      have hread := ChargingPile.Deserializer.run_parseScalar .bool false
      refine Sim.check none (Sim.imp (Sim.after hread (Sim.pure none)) ?_)
      rintro R _ rfl
      exact .none
    | some a =>
      have ha := ih (hfits a rfl) fun n c hc => hitems n c (List.mem_cons_of_mem _ hc)
      have hread := ChargingPile.Deserializer.run_parseScalar .bool true
      refine Sim.check none (Sim.imp (Sim.after hread (ha.map some)) ?_)
      rintro R _ ⟨x, hx, rfl⟩
      exact .some hx
  | map c key mapped ih =>
    have helem : ∀ e ∈ v.entries, Sim G opn
        (fun s => Serializer.buildWith node mapped e.2
          (s.write (ChargingPile.Serializer.build key e.1)))
        (fun fuel => (StateReader.lift (ChargingPile.Deserializer.parse key)).bind fun k =>
          (Deserializer.parseWith (node' fuel) mapped).bind fun v => .pure (k, v))
        fun R e' => e.1 = e'.1 ∧ mapped.Same R e.2 e'.2 := by
      intro e he
      have hread := ChargingPile.Deserializer.run_parse key (hfits.2 e he).1
      have hmapped := ih (hfits.2 e he).2 fun n c hc => hitems n c <|
        List.mem_cons_of_mem _ (List.mem_flatMap.2 ⟨e, he, List.mem_cons_of_mem _ hc⟩)
      refine Sim.imp (Sim.after hread (hmapped.map (e.1, ·))) ?_
      rintro R _ ⟨x, hx, rfl⟩
      exact ⟨rfl, hx⟩
    refine Sim.check SortedMap.empty (Sim.imp
      (Sim.sized hfits.1 helem (fun _ _ _ hR _ h => ⟨h.1, h.2.mono hR⟩)
        (fun (m : SortedMap c _) e => m.assign e.1 e.2) .empty) ?_)
    rintro R _ ⟨vs, hvs, rfl⟩
    -- the keys are those of the map, and so in order
    have hkeys : vs.map Prod.fst = v.entries.map Prod.fst := by
      clear helem hfits hitems
      generalize v.entries = l at hvs
      induction hvs with
      | nil => rfl
      | cons h _ ih => rw [List.map_cons, List.map_cons, ih, h.1]
    rw [PTy.Same, SortedMap.entries_foldl_assign_of_keys v hkeys]
    exact hvs

/-! ## Pointers -/

/-- Numbers of a byte are told apart. -/
theorem number_inj {i j : Nat} (hi : i < 255) (hj : j < 255)
    (h : UInt8.ofNat (i + 1) = UInt8.ofNat (j + 1)) : i = j := by
  have hnat := congrArg UInt8.toNat h
  rw [UInt8.toNat_ofNat_of_lt' (Nat.succ_lt_succ hi),
    UInt8.toNat_ofNat_of_lt' (Nat.succ_lt_succ hj)] at hnat
  exact Nat.succ.inj hnat

theorem number_ne_zero {i : Nat} (hi : i < 255) : UInt8.ofNat (i + 1) ≠ 0 := by
  intro h
  have hnat := congrArg UInt8.toNat h
  rw [UInt8.toNat_ofNat_of_lt' (Nat.succ_lt_succ hi)] at hnat
  cases hnat

theorem place_unique {l : List Addr} (h : l.Nodup) {i j : Nat} {a : Addr} (hi : l[i]? = some a)
    (hj : l[j]? = some a) : i = j :=
  (List.getElem?_inj (List.getElem?_eq_some_iff.1 hi).1 h).1 (hi.trans hj.symm)

namespace Corr

variable {G : Graph S α} {opn : List Addr} {s : Serializer} {d : Deserializer S} {a a' b b' : Addr}

theorem ne_zero (h : Corr G opn s d) (hab : Matched s d a b) : a = 0 ↔ b = 0 := by
  rcases hab with ⟨rfl, rfl⟩ | ⟨i, ha, hb⟩
  · exact Iff.rfl
  · refine iff_of_false ?_ ?_
    · rintro rfl
      exact h.null_notMem (List.mem_of_getElem? ha)
    · rintro rfl
      exact h.null_notAllocated (List.mem_of_getElem? hb)

theorem right_unique (h : Corr G opn s d) (hab : Matched s d a b) (hab' : Matched s d a b') :
    b = b' := by
  rcases hab with ⟨rfl, rfl⟩ | ⟨i, ha, hb⟩
  · exact ((h.ne_zero hab').1 rfl).symm
  · rcases hab' with ⟨rfl, -⟩ | ⟨j, ha', hb'⟩
    · exact absurd (List.mem_of_getElem? ha) h.null_notMem
    · obtain rfl := place_unique h.nodup ha ha'
      exact Option.some.inj (hb.symm.trans hb')

theorem left_unique (h : Corr G opn s d) (hab : Matched s d a b) (hab' : Matched s d a' b) :
    a = a' := by
  rcases hab with ⟨rfl, rfl⟩ | ⟨i, ha, hb⟩
  · exact ((h.ne_zero hab').2 rfl).symm
  · rcases hab' with ⟨-, rfl⟩ | ⟨j, ha', hb'⟩
    · exact absurd (List.mem_of_getElem? hb) h.null_notAllocated
    · obtain rfl := place_unique h.allocated_nodup hb hb'
      exact Option.some.inj (ha.symm.trans ha')

/-- The number of an object, once it is in the table of the serializer, is that of its object in
the table of the deserializer. -/
theorem lookup (h : Corr G opn s d) (hlen : s.bodies.length ≤ 255) {idx : UInt8} (hne : a ≠ 0)
    (hidx : s.storedPtr[a]? = some idx) : idx ≠ 0 ∧ ∃ b, d.ptrs[idx]? = some b ∧
    Matched s d a b := by
  rcases (h.stored a idx).1 hidx with ⟨rfl, -⟩ | ⟨i, hi, rfl⟩
  · exact absurd rfl hne
  · have hlt : i < s.bodies.length := (List.getElem?_eq_some_iff.1 hi).1
    have hb := List.getElem?_eq_getElem (h.length_eq.symm ▸ hlt)
    exact ⟨number_ne_zero (Nat.lt_of_lt_of_le hlt hlen), _, (h.ptrs _ _).2 ⟨i, hb, rfl⟩,
      .inr ⟨i, hi, hb⟩⟩

/-- The next number is not in the table of the deserializer. -/
theorem lookup_next (h : Corr G opn s d) (hlen : s.bodies.length < 255) :
    s.next ≠ 0 ∧ d.ptrs[s.next]? = none := by
  rw [h.next]
  refine ⟨number_ne_zero hlen, Option.eq_none_iff_forall_ne_some.2 ?_⟩
  intro b hb
  obtain ⟨i, hi, hnum⟩ := (h.ptrs _ b).1 hb
  have hlt : i < s.bodies.length := h.length_eq ▸ (List.getElem?_eq_some_iff.1 hi).1
  exact absurd (number_inj (Nat.lt_trans hlt hlen) hlen hnum.symm) (Nat.ne_of_lt hlt)

/-- The objects that correspond to each other after one has come in at either end. -/
theorem matched_enter {d' : Deserializer S} (h : Corr G opn s d)
    (hd : d'.allocated = d.allocated ++ [b]) {c e : Addr} (hce : Matched (s.enter a) d' c e) :
    Matched s d c e ∨ c = a ∧ e = b := by
  rcases hce with hnull | ⟨i, hc, he⟩
  · exact .inl (.inl hnull)
  · rw [hd, getElem?_concat] at he
    rw [Serializer.enter, getElem?_concat] at hc
    rcases hc with hc | ⟨rfl, rfl⟩
    · have hlt : i < s.bodies.length := (List.getElem?_eq_some_iff.1 hc).1
      rcases he with he | ⟨rfl, -⟩
      · exact .inl (.inr ⟨i, hc, he⟩)
      · exact absurd hlt (h.length_eq ▸ Nat.lt_irrefl _)
    · rcases he with he | ⟨-, rfl⟩
      · exact absurd (List.getElem?_eq_some_iff.1 he).1 (h.length_eq ▸ Nat.lt_irrefl _)
      · exact .inr ⟨rfl, rfl⟩

end Corr

section
variable [DecidableEq N] {d : Deserializer S} {n m : N} {b c : Addr} {v : S.Body n}

theorem store_self : (d.store n b v).heap n b = some v := by simp [Deserializer.store]

theorem store_other (h : c ≠ b) : (d.store n b v).heap m c = d.heap m c := by
  rcases eq_or_ne m n with rfl | hm
  · simp [Deserializer.store, h]
  · simp [Deserializer.store, hm]

/-- What is stored is at its place only. -/
theorem of_store {w : S.Body m} (h : (d.store n b v).heap m c = some w) :
    m = n ∧ c = b ∨ d.heap m c = some w := by
  rcases eq_or_ne m n with rfl | hm
  · rcases eq_or_ne c b with rfl | hc
    · exact .inl ⟨rfl, rfl⟩
    · rw [store_other hc] at h
      exact .inr h
  · simp only [Deserializer.store, Function.update_of_ne hm] at h
    exact .inr h

end

namespace Corr

variable [DecidableEq N] {G : Graph S α} {opn : List Addr} {s : Serializer} {d : Deserializer S}
  {n : N} {a b : Addr}

/-- An object comes in at both ends, and is open. -/
theorem enter (h : Corr G opn s d) (hlen : s.bodies.length < 255) (hreach : G.Reachable n a)
    (ha : s.storedPtr[a]? = none) (hb : b ∉ d.allocated) (hzero : b ≠ 0) :
    Corr G (a :: opn) (s.enter a) (d.register s.next n b) := by
  have hgrow : s.bodies <+: (s.enter a).bodies := List.prefix_append _ _
  have halloc : d.allocated <+: (d.register s.next n b).allocated := List.prefix_append _ _
  refine ⟨h.toInside.enter hreach ha, ?_, ?_, ?_, ?_, ?_, ?_⟩
  · simp [Deserializer.register, Deserializer.store, Serializer.enter, h.length_eq]
  · rw [Deserializer.register, Deserializer.store, ← List.concat_eq_append]
    exact List.Nodup.concat hb h.allocated_nodup
  · intro hmem
    rcases List.mem_append.1 hmem with hmem | hmem
    · exact h.null_notAllocated hmem
    · exact hzero (List.mem_singleton.1 hmem).symm
  · intro idx c
    simp only [Deserializer.register, Deserializer.store, Table.getElem?_assign, getElem?_concat,
      h.ptrs, h.next, h.length_eq]
    constructor
    · rintro (⟨rfl, rfl⟩ | ⟨-, i, hi, rfl⟩)
      · exact ⟨_, .inr ⟨rfl, rfl⟩, rfl⟩
      · exact ⟨i, .inl hi, rfl⟩
    · rintro ⟨i, hi | ⟨rfl, rfl⟩, rfl⟩
      · refine .inr ⟨?_, i, hi, rfl⟩
        intro hnum
        have hlt : i < s.bodies.length := h.length_eq ▸ (List.getElem?_eq_some_iff.1 hi).1
        exact absurd (number_inj (Nat.lt_trans hlt hlen) hlen hnum) (Nat.ne_of_lt hlt)
      · exact .inl ⟨rfl, rfl⟩
  · intro a' b' hne hopn hab m v hm hv
    rw [List.mem_cons, not_or] at hopn
    rcases h.matched_enter rfl hab with hold | ⟨rfl, -⟩
    · obtain ⟨v', hv', hsame⟩ := h.body a' b' hne hopn.2 hold m v hm hv
      refine ⟨v', ?_, hsame.mono (Matched.mono hgrow halloc)⟩
      rcases hold with ⟨rfl, -⟩ | ⟨i, -, hi⟩
      · exact absurd rfl hne
      · have hbb : b' ≠ b := by
          rintro rfl
          exact hb (List.mem_of_getElem? hi)
        exact (store_other hbb).trans hv'
    · exact absurd rfl hopn.1
  · intro m c w hw
    rcases of_store hw with ⟨rfl, rfl⟩ | hold
    · refine ⟨a, (h.of_none ha).1, .inr ⟨s.bodies.length, ?_, ?_⟩, hreach⟩
      · exact getElem?_concat.2 (.inr ⟨rfl, rfl⟩)
      · exact getElem?_concat.2 (.inr ⟨h.length_eq.symm, rfl⟩)
    · obtain ⟨a', hne, hab, hm⟩ := h.onto m c w hold
      exact ⟨a', hne, Matched.mono hgrow halloc a' c hab, hm⟩

/-- The body of an open object is put in place. -/
theorem leave {v v' : S.Body n} (h : Corr G (a :: opn) s d) (hab : Matched s d a b) (hne : a ≠ 0)
    (hreach : G.Reachable n a) (hv : G.heap n a = some v)
    (hsame : (S.ty n).Same (Matched s d) v v') : Corr G opn s (d.store n b v') where
  toInside := h.toInside
  length_eq := h.length_eq
  allocated_nodup := h.allocated_nodup
  null_notAllocated := h.null_notAllocated
  ptrs := h.ptrs
  body a' b' hne' hopn hab' m w hm hw := by
    rcases eq_or_ne a' a with rfl | haa
    · obtain rfl := h.right_unique hab hab'
      obtain rfl := G.distinct n m a' hreach hm
      obtain rfl := Option.some.inj (hv.symm.trans hw)
      exact ⟨v', store_self, hsame⟩
    · obtain ⟨w', hw', hsame'⟩ :=
        h.body a' b' hne' (List.not_mem_cons_of_ne_of_not_mem haa hopn) hab'
        m w hm hw
      have hbb : b' ≠ b := by
        rintro rfl
        exact haa (h.left_unique hab' hab)
      exact ⟨w', (store_other hbb).trans hw', hsame'⟩
  onto m c w hw := by
    rcases of_store hw with ⟨rfl, rfl⟩ | hold
    · exact ⟨a, hne, hab, hreach⟩
    · exact h.onto m c w hold

end Corr

section
variable [DecidableEq N] {A : Allocator} {content : (n : N) → Deserializer.Parse S (S.Body n)}
  {d d' : Deserializer S} {idx : UInt8}

/-- A pointer is its number and what is read after that. -/
theorem pointer_reads {n : N} {l : List UInt8} {b : Addr}
    (h : (Deserializer.follow A content n idx).Reads d l b d') :
    (Deserializer.pointer A content n).Reads d (Scalar.uint8.write idx ++ l) b d' :=
  (StateReader.Reads.lift (ChargingPile.Deserializer.run_parseScalar .uint8 idx) d).bind h

theorem pointer_reads_null (n : N) (d : Deserializer S) :
    (Deserializer.pointer A content n).Reads d (Scalar.uint8.write 0) 0 d := fun _ => rfl

theorem pointer_reads_known {b : Addr} (n : N) (hne : idx ≠ 0) (hb : d.ptrs[idx]? = some b) :
    (Deserializer.pointer A content n).Reads d (Scalar.uint8.write idx) b d := by
  rw [← List.append_nil (Scalar.uint8.write idx)]
  refine pointer_reads fun rest => ?_
  rw [Deserializer.follow, if_neg hne, hb]
  rfl

theorem pointer_reads_new {n : N} {v : S.Body n} {l : List UInt8} (hne : idx ≠ 0)
    (hnone : d.ptrs[idx]? = none)
    (hread : (content n).Reads (d.register idx n (A.make d.allocated)) l v d') :
    (Deserializer.pointer A content n).Reads d (Scalar.uint8.write idx ++ l) (A.make d.allocated)
      (d'.store n (A.make d.allocated) v) := by
  refine pointer_reads fun rest => ?_
  rw [Deserializer.follow, if_neg hne, hnone, ← List.append_nil l]
  have hstore : StateReader.Reads (β := UInt8)
      (fun d' => StateReader.pure (A.make d.allocated) (d'.store n (A.make d.allocated) v)) d' []
      (A.make d.allocated) (d'.store n (A.make d.allocated) v) := fun _ => rfl
  exact hread.bind (f := fun v d' =>
    StateReader.pure (A.make d.allocated) (d'.store n (A.make d.allocated) v)) hstore rest

/-- What is found in the tables is read with any amount of fuel. -/
theorem parsePtr_reads {n : N} {l : List UInt8} {b : Addr}
    (h : ∀ content, (Deserializer.pointer A content n).Reads d l b d') (fuel : Nat) :
    (Deserializer.parsePtr A fuel n).Reads d l b d' := by
  cases fuel with
  | zero => exact h _
  | succ fuel => exact h _

/-- A pointer to null, or to an object that was met, is read back. -/
theorem Corr.sim_known {G : Graph S α} {opn : List Addr} {s s' : Serializer} {n : N} {a : Addr}
    {fuel : Nat} (h : Corr G opn s d) (hlen : s.bodies.length ≤ 255)
    (hidx : s.storedPtr[a]? = some idx) (A : Allocator)
    (hact : Serializer.buildPtr G.heap fuel n a s = some s') : ∃ l b d',
      s'.bytes = s.bytes ++ l ∧
      (∀ more, (Deserializer.parsePtr A (fuel + more) n).Reads d l b d') ∧
      Matched s' d' a b ∧ Corr G opn s' d' ∧ s.bodies <+: s'.bodies ∧
      d.allocated <+: d'.allocated := by
  obtain ⟨b, hab, hread⟩ : ∃ b, Matched s d a b ∧
      ∀ fuel, (Deserializer.parsePtr A fuel n).Reads d (Scalar.uint8.write idx) b d := by
    rcases eq_or_ne a 0 with rfl | hne
    · obtain rfl := Option.some.inj (hidx.symm.trans ((h.stored 0 0).2 (.inl ⟨rfl, rfl⟩)))
      exact ⟨0, .inl ⟨rfl, rfl⟩, parsePtr_reads fun _ => pointer_reads_null n d⟩
    · obtain ⟨hidx₀, b, hb, hab⟩ := h.lookup hlen hne hidx
      exact ⟨b, hab, parsePtr_reads fun _ => pointer_reads_known n hidx₀ hb⟩
  rw [buildPtr_known hidx] at hact
  obtain rfl := Option.some.inj hact
  exact ⟨_, b, d, rfl, fun _ => hread _, hab, h.write _, List.prefix_rfl, List.prefix_rfl⟩

/-- A pointer is read back. -/
theorem sim_pointer {G : Graph S α} (hnodes : G.nodes.length ≤ 255) (hfits : G.Fits)
    (A : Allocator) (fuel : Nat) (opn : List Addr) (n : N) (a : Addr)
    (ha : a = 0 ∨ G.Reachable n a) :
    Sim G opn (Serializer.buildPtr G.heap fuel n a)
      (fun more => Deserializer.parsePtr A (fuel + more) n) fun R b => R a b := by
  induction fuel generalizing opn n a with
  | zero =>
    intro s d s' hs hact
    cases hidx : s.storedPtr[a]? with
    | some idx => exact hs.sim_known (Nat.le_trans hs.length_le hnodes) hidx A hact
    | none =>
      rw [Serializer.buildPtr, Serializer.pointer, hidx] at hact
      cases hact
  | succ fuel ih =>
    intro s d s' hs hact
    cases hidx : s.storedPtr[a]? with
    | some idx => exact hs.sim_known (Nat.le_trans hs.length_le hnodes) hidx A hact
    | none =>
      have hne := (hs.of_none hidx).1
      have hreach := ha.resolve_left hne
      obtain ⟨v, hv⟩ := Option.isSome_iff_exists.1 (G.alive n a hreach)
      have hlen : s.bodies.length < 255 := by
        have hle := Nat.le_trans (hs.toInside.enter hreach hidx).length_le hnodes
        rwa [Serializer.enter, List.length_append] at hle
      obtain ⟨hnext, hnone⟩ := hs.lookup_next hlen
      rw [buildPtr_new hidx hv] at hact
      -- the body is read while the object is open
      have hbody := sim_value (ih (a :: opn)) (S.ty n) (hfits.2 n a v hreach hv) fun m c hitem =>
        Classical.or_iff_not_imp_left.2 fun hc => .body hreach hv hitem hc
      have henter := hs.enter hlen hreach hidx (A.make_notMem _) (A.make_ne_zero _)
      obtain ⟨l, v', d', hbytes, hread, hsame, hs', hgrow, halloc⟩ := hbody _ _ _ henter hact
      have hab : Matched s' d' a (A.make d.allocated) := by
        refine Matched.mono hgrow halloc _ _ (.inr ⟨s.bodies.length, ?_, ?_⟩)
        · exact getElem?_concat.2 (.inr ⟨rfl, rfl⟩)
        · exact getElem?_concat.2 (.inr ⟨hs.length_eq.symm, rfl⟩)
      refine ⟨Scalar.uint8.write s.next ++ l, A.make d.allocated,
        d'.store n (A.make d.allocated) v', ?_, ?_, hab, hs'.leave hab hne hreach hv hsame,
        (List.prefix_append _ _).trans hgrow, (List.prefix_append _ _).trans halloc⟩
      · rw [hbytes, Serializer.enter, List.append_assoc]
      · intro more
        dsimp only
        rw [Nat.add_right_comm]
        exact pointer_reads_new hnext hnone (hread more)

end

/-! ## The round trip -/

theorem Corr.initial {G : Graph S α} : Corr G [] {} {} where
  toTables := .initial
  reachable := List.forall_mem_nil _
  length_eq := rfl
  allocated_nodup := List.nodup_nil
  null_notAllocated := List.not_mem_nil
  ptrs idx b := by simp
  body a b hne _ hab := by
    rcases hab with ⟨rfl, -⟩ | ⟨i, hi, -⟩
    · exact absurd rfl hne
    · cases hi
  onto n b v hv := by cases hv

/-- Two ends that correspond, with no object open and all objects in the tables, have isomorphic
graphs. -/
theorem Corr.isomorphic {G : Graph S α} {s : Serializer} {d : Deserializer S} {root : α}
    (h : Corr G [] s d) (hsame : G.ty.Same (Matched s d) G.root root)
    (hall : ∀ n a, G.Reachable n a → a ∈ s.bodies) : Isomorphic G (Matched s d) root d where
  null := .inl ⟨rfl, rfl⟩
  ne_zero a b := h.ne_zero
  left_unique a a' b := h.left_unique
  right_unique a b b' := h.right_unique
  same := hsame
  total n a hn := by
    obtain ⟨i, hi⟩ := List.getElem?_of_mem (hall n a hn)
    have hlt : i < d.allocated.length := h.length_eq ▸ (List.getElem?_eq_some_iff.1 hi).1
    exact ⟨_, .inr ⟨i, hi, List.getElem?_eq_getElem hlt⟩⟩
  body n a b v hn hv hab := by
    have hne : a ≠ 0 := by
      rintro rfl
      exact h.null_notMem (hall n 0 hn)
    exact h.body a b hne List.not_mem_nil hab n v hn hv
  onto n b v hv := by
    obtain ⟨a, -, hab, hn⟩ := h.onto n b v hv
    exact ⟨a, hn, hab⟩
  held n b v hv := by
    obtain ⟨a, hne, ⟨rfl, -⟩ | ⟨i, -, hb⟩, -⟩ := h.onto n b v hv
    · exact absurd rfl hne
    · exact ⟨_, (h.ptrs _ b).2 ⟨i, hb, rfl⟩⟩

/-- **The round trip of an object graph.** With fuel for each of at most 255 objects, a graph
is serialized, and the body of each reachable object is written once. If no container has more
than 65535 elements, an isomorphic graph is read back, and the reader stops right behind the
bytes of the graph. -/
theorem round_trip [DecidableEq N] (G : Graph S α) (A : Allocator)
    (hnodes : G.nodes.length ≤ 255) :
    ∃ s : Serializer, (∀ fuel, G.nodes.length ≤ fuel → G.serialize fuel = some s) ∧
      s.bodies.Nodup ∧ (∀ a, a ∈ s.bodies ↔ ∃ n, G.Reachable n a) ∧
      (G.Fits → ∃ root d R, Isomorphic G R root d ∧
        ∀ fuel, G.nodes.length ≤ fuel → ∀ rest,
          (G.deserialize A fuel).run (s.bytes ++ rest) = some (some (root, d), rest)) := by
  have hroot : ∀ n a, .ptr n a ∈ G.ty.items G.root → a = 0 ∨ G.Reachable n a := fun n a hitem =>
    Classical.or_iff_not_imp_left.2 fun ha => .root hitem ha
  obtain ⟨s, hrun, hbuilt, hitems⟩ :=
    total_items (total G G.nodes.length []) (G.ty.items G.root) hroot
    Covered.initial (Nat.le_add_left _ _)
  have hcovered := hbuilt.covered
  have hall : ∀ n a, G.Reachable n a → a ∈ s.bodies := by
    intro n a hn
    induction hn with
    | root hitem ha => exact (hitems _ _ hitem).resolve_left ha
    | body hreach hv hitem hb ih =>
      exact (hcovered.closed _ ih List.not_mem_nil _ _ hreach hv _ _ hitem).resolve_left hb
  refine ⟨s, ?_, hcovered.nodup, fun a => ⟨hcovered.reachable a, fun ⟨n, hn⟩ => hall n a hn⟩, ?_⟩
  · intro fuel hfuel
    obtain ⟨more, rfl⟩ := Nat.exists_eq_add_of_le hfuel
    rw [serialize, buildWith_eq]
    exact hrun more
  · intro hfits
    have hact : Serializer.buildWith (Serializer.buildPtr G.heap G.nodes.length) G.ty G.root {} =
        some s := by
      rw [buildWith_eq]
      exact hrun 0
    obtain ⟨l, root, d, hbytes, hread, hsame, hcorr, -⟩ :=
      sim_value (sim_pointer hnodes hfits A G.nodes.length []) G.ty hfits.1 hroot {}
        {} s Corr.initial hact
    rw [List.nil_append] at hbytes
    refine ⟨root, d, Matched s d, hcorr.isomorphic hsame hall, ?_⟩
    intro fuel hfuel rest
    obtain ⟨more, rfl⟩ := Nat.exists_eq_add_of_le hfuel
    rw [hbytes]
    exact hread more rest

/-! ## Vertices -/

/-- `Vertex`, of the tests. -/
structure Vertex where
  value : UInt8
  outs : List Addr

namespace Vertex

/-- The fields of a vertex. -/
def tie : Vertex ≃ UInt8 × List Addr × Unit where
  toFun v := (v.value, v.outs, ())
  invFun p := ⟨p.1, p.2.1⟩

def schema : Schema Unit where
  Body _ := Vertex
  init _ := ⟨0, []⟩
  ty _ :=
    .aggregate tie ⟨0, []⟩ (.field (.plain (.scalar .uint8)) (.field (.cont (.weak ())) .nil))

/-- A vertex points to its `outs`. -/
theorem mem_outs {v : Vertex} {m : Unit} {b : Addr} (h : .ptr m b ∈ (schema.ty ()).items v) :
    b ∈ v.outs := by
  simpa [schema, tie, PTy.items] using h

/-- The vertices of `nodes` point to each other, or to null. -/
structure Closed (H : Heap schema) (nodes : List Addr) (root : Addr) : Prop where
  root_mem : root ∈ nodes
  outs : ∀ a ∈ nodes, ∃ v, H () a = some v ∧ ∀ b ∈ v.outs, b = 0 ∨ b ∈ nodes

theorem Closed.mem_nodes {H : Heap schema} {nodes : List Addr} {root : Addr}
    (h : Closed H nodes root) (n : Unit) (a : Addr) (hreach : Reach H (.shared ()) root n a) :
    a ∈ nodes := by
  induction hreach with
  | root hitem =>
    cases List.mem_singleton.1 hitem
    exact h.root_mem
  | @body n m a b v _ hv hitem hb ih =>
    obtain ⟨w, hw, houts⟩ := h.outs a ih
    obtain rfl := Option.some.inj (hv.symm.trans hw)
    exact (houts b (mem_outs hitem)).resolve_left hb

theorem Closed.alive {H : Heap schema} {nodes : List Addr} {root : Addr} (h : Closed H nodes root)
    (n : Unit) (a : Addr) (hreach : Reach H (.shared ()) root n a) : (H n a).isSome := by
  obtain ⟨v, hv, -⟩ := h.outs a (h.mem_nodes n a hreach)
  exact Option.isSome_iff_exists.2 ⟨v, hv⟩

theorem Closed.distinct {H : Heap schema} {nodes : List Addr} {root : Addr}
    (_ : Closed H nodes root) (n m : Unit) (a : Addr) (_ : Reach H (.shared ()) root n a)
    (_ : Reach H (.shared ()) root m a) :
    n = m := rfl

/-- The graph of a vertex. -/
def graph {H : Heap schema} {nodes : List Addr} {root : Addr} (h : Closed H nodes root) :
    Graph schema Addr where
  ty := .shared ()
  root := root
  heap := H
  nodes := nodes
  alive := h.alive
  distinct := h.distinct
  finite := h.mem_nodes

/-- The four vertices of the test. -/
def four : Heap schema := fun _ a =>
  [(8, Vertex.mk 1 [16, 24, 32]), (16, ⟨2, [8, 32, 24]⟩), (24, ⟨3, [8, 16, 32]⟩),
    (32, ⟨4, [8, 16, 32]⟩)].lookup a

theorem four_closed : Closed four [8, 16, 24, 32] 8 where
  root_mem := List.mem_cons_self
  outs a ha := by
    simp only [List.mem_cons, List.not_mem_nil, or_false] at ha
    rcases ha with rfl | rfl | rfl | rfl
    all_goals exact ⟨_, rfl, by decide⟩

theorem four_fits : (graph four_closed).Fits := by
  refine ⟨trivial, ?_⟩
  intro n a v hreach hv
  have hmem := four_closed.mem_nodes n a hreach
  simp only [List.mem_cons, List.not_mem_nil, or_false] at hmem
  rcases hmem with rfl | rfl | rfl | rfl
  all_goals
    cases hv
    simp [schema, tie, PTy.Fits, Ty.Fits]

end Vertex

/-- The graph of the test, read into fresh memory. -/
theorem round_trip_four : ∃ s : Serializer,
    (Vertex.graph Vertex.four_closed).serialize 4 = some s ∧ ∃ root d R,
      Isomorphic (Vertex.graph Vertex.four_closed) R root d ∧
      ((Vertex.graph Vertex.four_closed).deserialize .above 4).run s.bytes =
        some (some (root, d), []) := by
  obtain ⟨s, hrun, -, -, hread⟩ := round_trip (Vertex.graph Vertex.four_closed) .above (by decide)
  obtain ⟨root, d, R, hiso, hread⟩ := hread Vertex.four_fits
  refine ⟨s, hrun 4 (Nat.le_refl 4), root, d, R, hiso, ?_⟩
  rw [← List.append_nil s.bytes]
  exact hread 4 (Nat.le_refl 4) []

namespace Vertex

/-- A vertex with `k` edges to itself. -/
def looped (k : Nat) : Heap schema := fun _ a => if a = 8 then some ⟨7, List.replicate k 8⟩
    else none

theorem looped_closed (k : Nat) : Closed (looped k) [8] 8 where
  root_mem := List.mem_cons_self
  outs a ha := by
    obtain rfl := List.mem_singleton.1 ha
    refine ⟨_, rfl, fun b hb => .inr ?_⟩
    rw [List.eq_of_mem_replicate hb]
    exact List.mem_cons_self

theorem build_loops {H : Heap schema} {s : Serializer} (h : s.storedPtr[(8 : Addr)]? = some 1)
    (k : Nat) :
    (List.replicate k 8).foldlM (fun s a => Serializer.buildPtr H 0 () a s) s =
      some (s.write (List.replicate k 1)) := by
  induction k generalizing s with
  | zero => simp [Serializer.write]
  | succ k ih =>
    rw [List.replicate_succ, List.foldlM_cons, buildPtr_known h]
    refine (ih (s := s.write _) h).trans ?_
    simp only [Serializer.write, List.append_assoc]
    rfl

/-- What a vertex with edges to itself is written as. -/
theorem looped_bytes (k : Nat) : ∃ s : Serializer, (graph (looped_closed k)).serialize 1 = some s ∧
    s.bytes = [1, 7] ++ ChargingPile.Serializer.buildSize k ++ List.replicate k 1 := by
  have hnew : ({} : Serializer).storedPtr[(8 : Addr)]? = none := rfl
  have hmet : (({} : Serializer).enter 8).storedPtr[(8 : Addr)]? = some 1 := rfl
  refine ⟨(((({} : Serializer).enter 8).write [7]).write
    (ChargingPile.Serializer.buildSize k)).write (List.replicate k 1), ?_, rfl⟩
  refine (buildPtr_new (H := looped k) hnew rfl 0).trans ?_
  have hloop := build_loops (H := looped k)
    (s := ((({} : Serializer).enter 8).write [7]).write (ChargingPile.Serializer.buildSize k)) hmet
      k
  simp only [schema, Serializer.buildWith, tie, Equiv.coe_fn_mk, List.length_replicate]
  exact congrArg (fun o => o.bind some) hloop

/-- The sizes 0 and 65536 are written alike. -/
theorem read_loops (A : Allocator) (rest : List UInt8) : ∃ d : Deserializer schema,
    d.heap () (A.make []) = some ⟨7, []⟩ ∧
    ((graph (looped_closed 65536)).deserialize A 1).run
        ([1, 7] ++ ChargingPile.Serializer.buildSize 65536 ++ rest) =
      some (some (A.make [], d), rest) := by
  refine ⟨_, ?_, rfl⟩
  exact store_self.trans rfl

end Vertex

/-- A vertex with 65536 edges is read back without edges, and all of its edges are left unread. -/
theorem edges_lost : ∃ s : Serializer,
    (Vertex.graph (Vertex.looped_closed 65536)).serialize 1 = some s ∧ ∀ A : Allocator, ∃ root d,
      ((Vertex.graph (Vertex.looped_closed 65536)).deserialize A 1).run s.bytes =
        some (some (root, d), List.replicate 65536 1) ∧
      ∀ R, ¬ Isomorphic (Vertex.graph (Vertex.looped_closed 65536)) R root d := by
  obtain ⟨s, hs, hbytes⟩ := Vertex.looped_bytes 65536
  refine ⟨s, hs, fun A => ?_⟩
  obtain ⟨d, hd, hread⟩ := Vertex.read_loops A (List.replicate 65536 1)
  refine ⟨A.make [], d, ?_, ?_⟩
  · rw [hbytes]
    exact hread
  · intro R hiso
    have hreach : (Vertex.graph (Vertex.looped_closed 65536)).Reachable () 8 :=
      .root List.mem_cons_self (by decide)
    obtain ⟨v, hv, hsame⟩ := hiso.body () 8 (A.make []) _ hreach rfl hiso.same
    obtain rfl := Option.some.inj (hd.symm.trans hv)
    have hlen : (List.replicate 65536 8).length = 0 := List.Forall₂.length_eq hsame.2.1
    rw [List.length_replicate] at hlen
    exact absurd hlen (by decide)

end Graph

end ChargingPile
