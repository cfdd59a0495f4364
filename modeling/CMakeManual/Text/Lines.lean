/-! Texts cut into lines and pieces, and the search for a mark. -/
namespace CMakeManual.Text

/-- The lines of a text. A line ends at a newline, with one carriage return directly in front of
it dropped; a last line without newline is kept as it is, and no empty last line is counted. -/
def lines : List Char → List (List Char)
  | [] => []
  | '\n' :: r => [] :: lines r
  | '\r' :: '\n' :: r => [] :: lines r
  | c :: r =>
      match lines r with
      | [] => [[c]]
      | l :: ls => (c :: l) :: ls

/-- Lines joined by single newlines. -/
def joinLines (ls : List (List Char)) : List Char := ['\n'].intercalate ls

/-- The pieces between separators; there is always one more than there are separators. -/
def pieces (separator : Char) : List Char → List (List Char)
  | [] => [[]]
  | c :: r =>
      if c = separator then [] :: pieces separator r
      else
        match pieces separator r with
        | [] => [[c]]
        | p :: ps => (c :: p) :: ps

/-- Cuts a text behind the first occurrence of `mark`. -/
def cutAfter (mark : List Char) : List Char → Option (List Char × List Char)
  | [] => if mark = [] then some ([], []) else none
  | c :: r =>
      if mark.isPrefixOf (c :: r) then some (mark, (c :: r).drop mark.length)
      else (cutAfter mark r).map fun cut => (c :: cut.1, cut.2)

/-- The size of a text in bytes of UTF-8. -/
def byteLength : List Char → Nat
  | [] => 0
  | c :: cs => c.utf8Size + byteLength cs

@[simp] theorem byteLength_nil : byteLength [] = 0 := rfl

@[simp] theorem byteLength_cons (c : Char) (cs : List Char) :
    byteLength (c :: cs) = c.utf8Size + byteLength cs := rfl

@[simp] theorem byteLength_append (cs ds : List Char) :
    byteLength (cs ++ ds) = byteLength cs + byteLength ds := by
  induction cs with
  | nil => simp
  | cons c cs ih => simp [ih, Nat.add_assoc]

theorem pieces_ne_nil (separator : Char) (cs : List Char) : pieces separator cs ≠ [] := by
  cases cs with
  | nil => simp [pieces]
  | cons c r =>
      simp only [pieces]
      split
      · simp
      · split <;> simp

/-- A cut loses nothing. -/
theorem cutAfter_append {mark cs front rest : List Char}
    (h : cutAfter mark cs = some (front, rest)) : front ++ rest = cs := by
  induction cs generalizing front rest with
  | nil =>
      simp only [cutAfter] at h
      split at h
      · simp only [Option.some.injEq, Prod.mk.injEq] at h
        simp [← h.1, ← h.2]
      · simp at h
  | cons c r ih =>
      simp only [cutAfter] at h
      split at h
      next found =>
        simp only [Option.some.injEq, Prod.mk.injEq] at h
        rw [← h.1, ← h.2]
        exact List.prefix_iff_eq_append.1 (List.isPrefixOf_iff_prefix.1 found)
      next =>
        obtain ⟨cut, hc, he⟩ := Option.map_eq_some_iff.1 h
        simp only [Prod.mk.injEq] at he
        rw [← he.1, ← he.2, List.cons_append, ih hc]

end CMakeManual.Text
