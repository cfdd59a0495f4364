import CMakeManual.Script.Position

/-! Tokens of a script. Arguments and comments keep their spelling, with quotes, brackets and
escapes. -/
namespace CMakeManual.Script

inductive TokenKind where
  | ident (name : String)
  | leftParen
  | rightParen
  | unquoted (text : String)
  | quoted (text : String)
  | bracket (text : String)
  | lineComment (text : String)
  | bracketComment (text : String)
  | newline
  | endOfFile
  deriving DecidableEq

structure Token where
  kind : TokenKind
  span : Span
  line : Nat
  deriving DecidableEq

/-- The text a token carries; the others are spelled by their kind alone. -/
def TokenKind.text? : TokenKind → Option String
  | .ident s | .unquoted s | .quoted s | .bracket s | .lineComment s | .bracketComment s => some s
  | .leftParen | .rightParen | .newline | .endOfFile => none

/-- A token in the words of a message. -/
def TokenKind.described : TokenKind → String
  | .ident name => "identifier '" ++ name ++ "'"
  | .leftParen => "'('"
  | .rightParen => "')'"
  | .unquoted text | .quoted text | .bracket text => "argument " ++ text
  | .lineComment _ | .bracketComment _ => "comment"
  | .newline => "newline"
  | .endOfFile => "end of file"

end CMakeManual.Script
