import CMakeManual.Script.Lexeme

/-! The tokens of a script: its lexemes, each put at its place, without the gaps. -/
namespace CMakeManual.Script
open Text

structure Placed where
  lexeme : Lexeme
  position : Position
  deriving DecidableEq

/-- Lexemes that stand one behind the other from `p` on. -/
def place (p : Position) : List Lexeme → List Placed
  | [] => []
  | l :: ls => ⟨l, p⟩ :: place (p.after l.text) ls

/-- The token a lexeme stands for; a gap or a fault stands for none. -/
def Lexeme.kind? (l : Lexeme) : Option TokenKind :=
  let text := String.ofList l.text
  match l.form with
  | .newline => some .newline
  | .leftParen => some .leftParen
  | .rightParen => some .rightParen
  | .ident => some (.ident text)
  | .unquoted => some (.unquoted text)
  | .quoted => some (.quoted text)
  | .bracket => some (.bracket text)
  | .lineComment => some (.lineComment text)
  | .bracketComment => some (.bracketComment text)
  | .gap | .stray | .openQuote | .openBracket _ => none

/-- What is wrong with a lexeme. -/
def Lexeme.cause? (l : Lexeme) : Option Cause :=
  match l.form with
  | .stray => l.text.head?.map .unexpectedCharacter
  | .openQuote => some .unterminatedQuote
  | .openBracket level => some (.unterminatedBracket level)
  | _ => none

def Placed.span (p : Placed) : Span := p.position.span p.lexeme.text

def Placed.token? (p : Placed) : Option Token :=
  p.lexeme.kind?.map fun kind => ⟨kind, p.span, p.position.line⟩

def Placed.fault? (p : Placed) : Option Fault :=
  p.lexeme.cause?.map fun cause => ⟨cause, p.span, p.position.line⟩

/-- The token that ends every script. -/
def endToken (p : Position) : Token := ⟨.endOfFile, p.span [], p.line⟩

/-- The tokens of a script, or everything in it that is no lexeme of the language. -/
def scan (source : String) : Except (List Fault) (List Token) :=
  let placed := place .first (lexemes source.toList)
  match placed.filterMap Placed.fault? with
  | [] => .ok (placed.filterMap Placed.token? ++ [endToken (Position.first.after source.toList)])
  | faults => .error faults

@[simp] theorem place_append (p : Position) (ls ms : List Lexeme) :
    place p (ls ++ ms) = place p ls ++ place (p.after (ls.flatMap Lexeme.text)) ms := by
  induction ls generalizing p with
  | nil => simp [place]
  | cons l ls ih => simp [place, ih]

@[simp] theorem place_lexeme (p : Position) (ls : List Lexeme) :
    (place p ls).map Placed.lexeme = ls := by
  induction ls generalizing p with
  | nil => rfl
  | cons l ls ih => simp [place, ih]

end CMakeManual.Script
