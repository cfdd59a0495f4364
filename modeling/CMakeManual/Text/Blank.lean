/-! Blank characters and trimming. Texts are handled as lists of characters. -/
namespace CMakeManual.Text

/-- Unicode's `White_Space` property. The separators U+001C to U+001F, the zero width space and
the byte order mark do not have it. -/
def isBlank (c : Char) : Bool :=
  let n := c.toNat
  (9 ≤ n && n ≤ 13) || n == 0x20 || n == 0x85 || n == 0xA0 || n == 0x1680 ||
    (0x2000 ≤ n && n ≤ 0x200A) || n == 0x2028 || n == 0x2029 || n == 0x202F ||
    n == 0x205F || n == 0x3000

/-- Drops the longest suffix of elements that satisfy `p`. -/
def dropEndWhile {α : Type} (p : α → Bool) (xs : List α) : List α :=
  (xs.reverse.dropWhile p).reverse

def trimStart (cs : List Char) : List Char := cs.dropWhile isBlank

def trimEnd (cs : List Char) : List Char := dropEndWhile isBlank cs

def trim (cs : List Char) : List Char := trimEnd (trimStart cs)

/-- No character but blanks. -/
def allBlank (cs : List Char) : Bool := cs.all isBlank

@[simp] theorem dropEndWhile_nil {α : Type} (p : α → Bool) : dropEndWhile p [] = [] := rfl

/-- What is kept is a front part, and only elements with `p` are dropped. -/
theorem dropEndWhile_append {α : Type} (p : α → Bool) (xs : List α) :
    dropEndWhile p xs ++ (xs.reverse.takeWhile p).reverse = xs := by
  rw [dropEndWhile, ← List.reverse_append, List.takeWhile_append_dropWhile, List.reverse_reverse]

end CMakeManual.Text
