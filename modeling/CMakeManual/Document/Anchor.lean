import CMakeManual.Text.Blank
import CMakeManual.Text.Decimal
import CMakeManual.Text.Letters

/-! Anchors of headings: lower case ASCII letters, digits and single dashes between them. -/
namespace CMakeManual.Document
open Text

def isAnchorWord (c : Char) : Bool := c.isLower || c.isDigit

/-- Becomes a dash in an anchor. -/
def isAnchorGap (c : Char) : Bool := c == '-' || c == '_' || isBlank c

/-- Keeps letters and digits, writes one dash for each run of gaps and drops everything else;
`dashed` says that the last character written is a dash. -/
def anchorChars (dashed : Bool) : List Char → List Char
  | [] => []
  | c :: r =>
      if isAnchorWord c then c :: anchorChars false r
      else if isAnchorGap c then
        if dashed then anchorChars true r else '-' :: anchorChars true r
      else anchorChars dashed r

def withoutEdgeDashes (cs : List Char) : List Char :=
  dropEndWhile (· == '-') (cs.dropWhile (· == '-'))

/-- The anchor of a name nothing of which can stay. -/
def unnamedAnchor : String := "section"

def anchor (name : String) : String :=
  match withoutEdgeDashes (anchorChars false ((trim name.toList).flatMap lowerForAnchor)) with
  | [] => unnamedAnchor
  | cs => String.ofList cs

/-- The `k`-th use of an anchor, counted from one, carries its number from the second on. -/
def numberedAnchor (base : String) (k : Nat) : String :=
  if k ≤ 1 then base else base ++ "-" ++ decimal k

/-- Anchors for names that follow on names with the anchors `used`. -/
def anchorsAfter (used : List String) : List String → List String
  | [] => []
  | name :: names =>
      let base := anchor name
      numberedAnchor base (used.count base + 1) :: anchorsAfter (base :: used) names

/-- The anchors of the headings of one document, in order. -/
def anchors (names : List String) : List String := anchorsAfter [] names

@[simp] theorem anchorsAfter_length (used names : List String) :
    (anchorsAfter used names).length = names.length := by
  induction names generalizing used with
  | nil => rfl
  | cons name names ih => simp [anchorsAfter, ih]

end CMakeManual.Document
