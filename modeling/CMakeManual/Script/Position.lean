import CMakeManual.Text.Lines

/-! Places in a script: byte offsets, lines counted from one, and the spans between offsets. -/
namespace CMakeManual.Script
open Text

/-- The bytes from `start` up to, but not including, `stop`. -/
structure Span where
  start : Nat
  stop : Nat
  deriving DecidableEq

/-- The least span that holds both. -/
def Span.join (s t : Span) : Span := ⟨min s.start t.start, max s.stop t.stop⟩

/-- Zero for a span that ends before it starts. -/
def Span.length (s : Span) : Nat := s.stop - s.start

structure Position where
  offset : Nat
  line : Nat
  deriving DecidableEq

def Position.first : Position := ⟨0, 1⟩

/-- The position behind a text that starts here. -/
def Position.after (p : Position) (text : List Char) : Position :=
  ⟨p.offset + byteLength text, p.line + text.count '\n'⟩

def Position.span (p : Position) (text : List Char) : Span := ⟨p.offset, (p.after text).offset⟩

@[simp] theorem Position.after_nil (p : Position) : p.after [] = p := rfl

@[simp] theorem Position.after_append (p : Position) (s t : List Char) :
    p.after (s ++ t) = (p.after s).after t := by
  simp [Position.after, Nat.add_assoc]

@[simp] theorem Position.span_length (p : Position) (text : List Char) :
    (p.span text).length = byteLength text := by
  simp [Position.span, Position.after, Span.length]

end CMakeManual.Script
