import ChargingPile.Json.Basic

/-!
# Splitting a string

`split` (`utilities/string.cxx`) looks for the next separator from the position behind the last one
and takes what is between the two. The position of the last separator is `npos` at first, so that
the position behind it is 0: the arithmetic is the one of `size_t`, which wraps.
`StringView.splitLoop_eq` is the invariant of the loop: what it still has to do is to split the
part of the string that it has not passed.
-/

namespace ChargingPile

/-- `string::npos`, the largest `size_t`. -/
def npos : Nat := 4294967295

/-- `pos + 1`. -/
def sizeSucc (pos : Nat) : Nat := (pos + 1) % 4294967296

/-- `a - b`. -/
def sizeSub (a b : Nat) : Nat := (a + 4294967296 - b) % 4294967296

/-- `std::string_view`, whose size is below `npos`. -/
structure StringView where
  chars : Text
  size_lt : chars.length < npos

/-- `std::out_of_range`. -/
inductive OutOfRange
  | outOfRange

namespace StringView

variable (s : StringView) (c : Char)

/-- `string_view::find`. -/
def find (pos : Nat) : Nat :=
  if c ∈ s.chars.drop pos then pos + (s.chars.drop pos).idxOf c else npos

/-- `string_view::substr`. -/
def substr (pos n : Nat) : Except OutOfRange Text :=
  if s.chars.length < pos then .error .outOfRange else .ok ((s.chars.drop pos).take n)

variable {s c} in
/-- A separator is found at the position from which it is looked for or behind it. -/
theorem find_bounds {pos : Nat} (h : s.find c pos ≠ npos) :
    pos ≤ s.find c pos ∧ s.find c pos < s.chars.length := by
  unfold find at h ⊢
  split
  next hmem =>
    have hlt := List.idxOf_lt_length_of_mem hmem
    rw [List.length_drop] at hlt
    omega
  next hmem => exact absurd (if_neg hmem) h

/-- The loop of `split`. -/
def splitLoop (pos : Nat) (result : List Text) : Except OutOfRange (List Text) :=
  let nextPos := s.find c (sizeSucc pos)
  if nextPos ≠ npos then do
    let piece ← s.substr (sizeSucc pos) (sizeSub (sizeSub nextPos pos) 1)
    splitLoop nextPos (result ++ [piece])
  else do
    let piece ← s.substr (sizeSucc pos) (sizeSub (sizeSub s.chars.length pos) 1)
    return result ++ [piece]
termination_by s.chars.length - sizeSucc pos
decreasing_by
  rename_i hfound
  obtain ⟨hle, hlt⟩ := find_bounds hfound
  have hnpos : npos = 4294967295 := rfl
  have hsize := s.size_lt
  have hsucc : sizeSucc (s.find c (sizeSucc pos)) = s.find c (sizeSucc pos) + 1 :=
    Nat.mod_eq_of_lt (by omega)
  omega

/-- `split`. -/
def split : Except OutOfRange (List Text) := s.splitLoop c npos []

variable {s c}

/-- What is between two separators, or between the last one and the end. -/
theorem substr_between {pos nextPos : Nat} (hpos : pos ≤ npos) (hle : sizeSucc pos ≤ nextPos)
    (hnext : nextPos ≤ s.chars.length) :
    s.substr (sizeSucc pos) (sizeSub (sizeSub nextPos pos) 1) =
      .ok ((s.chars.drop (sizeSucc pos)).take (nextPos - sizeSucc pos)) := by
  have hnpos : npos = 4294967295 := rfl
  have hsize := s.size_lt
  have hlength : sizeSub (sizeSub nextPos pos) 1 = nextPos - sizeSucc pos := by
    unfold sizeSub sizeSucc at *
    omega
  rw [substr, if_neg (by omega), hlength]

/-- The loop splits what is behind the last separator. -/
theorem splitLoop_eq {pos : Nat} (hpos : pos ≤ npos) (hle : sizeSucc pos ≤ s.chars.length)
    (result : List Text) :
    s.splitLoop c pos result = .ok (result ++ (s.chars.drop (sizeSucc pos)).splitOn c) := by
  have hnpos : npos = 4294967295 := rfl
  have hsize := s.size_lt
  fun_induction splitLoop s c pos result with
  | case1 pos result nextPos hfound ih =>
    obtain ⟨hstart, hlt⟩ := find_bounds hfound
    have hsucc : sizeSucc nextPos = nextPos + 1 := Nat.mod_eq_of_lt (by omega)
    have hmem : c ∈ s.chars.drop (sizeSucc pos) := by
      by_contra hno
      exact hfound (if_neg hno)
    -- the part of the string up to the separator, and the part behind it
    obtain ⟨piece, rest, hparts, hpiece⟩ := List.eq_append_cons_of_mem hmem
    have hnext : nextPos = sizeSucc pos + piece.length := by
      change s.find c (sizeSucc pos) = _
      rw [find, if_pos hmem, hparts, List.idxOf_append_of_notMem hpiece, List.idxOf_cons_self]
      rfl
    have hrest : s.chars.drop (sizeSucc nextPos) = rest := by
      rw [hsucc, hnext, Nat.add_assoc, ← List.drop_drop, hparts, ← List.drop_drop, List.drop_left]
      rfl
    have htake : (s.chars.drop (sizeSucc pos)).take (nextPos - sizeSucc pos) = piece := by
      rw [hparts, hnext, Nat.add_sub_cancel_left, List.take_left]
    rw [substr_between hpos hstart (Nat.le_of_lt hlt), htake, hparts]
    refine (ih piece (by omega) (by omega)).trans ?_
    rw [hrest, List.splitOn_append_cons_self_of_not_mem hpiece, List.append_assoc]
    rfl
  | case2 pos result nextPos hnone =>
    have hno : c ∉ s.chars.drop (sizeSucc pos) := by
      intro hmem
      have hlt := List.idxOf_lt_length_of_mem hmem
      rw [List.length_drop] at hlt
      refine hnone ?_
      change s.find c (sizeSucc pos) ≠ _
      rw [find, if_pos hmem]
      omega
    rw [substr_between hpos hle (Nat.le_refl _), List.splitOn_eq_singleton hno, ← List.length_drop,
      List.take_length]
    rfl

theorem split_eq : s.split c = .ok (s.chars.splitOn c) := by
  have hle : sizeSucc npos ≤ s.chars.length := Nat.zero_le _
  exact splitLoop_eq (Nat.le_refl _) hle []

end StringView

section
variable {c : Char} {l : Text}

/-- There is one piece more than there are separators. -/
theorem length_splitOn : (l.splitOn c).length = l.count c + 1 := by
  induction l with
  | nil => rfl
  | cons d l ih =>
    rw [List.splitOn_cons_eq_if_modifyHead, List.count_cons]
    split
    next => rw [List.length_cons, ih]
    next => rw [List.length_modifyHead, ih, Nat.add_zero]

/-- No piece has a separator. -/
theorem notMem_of_mem_splitOn {piece : Text} (h : piece ∈ l.splitOn c) : c ∉ piece := by
  induction l generalizing piece with
  | nil =>
    rw [List.splitOn_nil, List.mem_singleton] at h
    rw [h]
    exact List.not_mem_nil
  | cons d l ih =>
    rw [List.splitOn_cons_eq_if_modifyHead] at h
    split at h
    next =>
      rcases List.mem_cons.1 h with rfl | h
      · exact List.not_mem_nil
      · exact ih h
    next hd =>
      cases hl : l.splitOn c with
      | nil =>
        rw [hl] at h
        cases h
      | cons first rest =>
        rw [hl] at h
        rcases List.mem_cons.1 h with rfl | h
        · rw [List.mem_cons, not_or]
          refine ⟨fun heq => hd (beq_iff_eq.2 heq.symm), ih ?_⟩
          rw [hl]
          exact List.mem_cons_self
        · refine ih ?_
          rw [hl]
          exact List.mem_cons_of_mem _ h

end

/-- `split` gives one piece more than the string has separators, none of which is in a piece, and
joined by the separator the pieces are the string. -/
theorem StringView.split_pieces (s : StringView) (c : Char) :
    ∃ pieces, s.split c = .ok pieces ∧ pieces.length = s.chars.count c + 1 ∧
      (∀ piece ∈ pieces, c ∉ piece) ∧ [c].intercalate pieces = s.chars :=
  ⟨s.chars.splitOn c, split_eq, length_splitOn, fun _ h => notMem_of_mem_splitOn h,
    List.intercalate_splitOn c⟩

end ChargingPile
