/-! Letter case. Command names are compared without regard to the case of the letters A to Z;
all other characters are compared as they are. -/
namespace CMakeManual.Text

/-- Lower case for the letters A to Z only. -/
def lowerAscii (s : String) : List Char := s.toList.map Char.toLower

def sameIgnoringCase (s t : String) : Bool := lowerAscii s == lowerAscii t

/-- The lower case of a character as far as an anchor can show it: the letters A to Z and the two
other characters whose lower case holds such a letter. Every other character is left alone, since
its lower case is neither blank nor one of `a`-`z`, `0`-`9`, `-`, `_`. -/
def lowerForAnchor (c : Char) : List Char :=
  if c = '\u0130' then ['i', '\u0307']
  else if c = '\u212a' then ['k']
  else [c.toLower]

@[simp] theorem sameIgnoringCase_self (s : String) : sameIgnoringCase s s = true := by
  simp [sameIgnoringCase]

theorem sameIgnoringCase_iff {s t : String} :
    sameIgnoringCase s t = true ↔ lowerAscii s = lowerAscii t := by
  simp [sameIgnoringCase]

end CMakeManual.Text
