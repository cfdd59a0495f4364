import CMakeManual.Script.Token
import CMakeManual.Text.Escape

/-! What can be wrong with a script, and how it is put into words. -/
namespace CMakeManual.Script
open Text

inductive Cause where
  | unexpectedCharacter (c : Char)
  | unterminatedQuote
  | unterminatedBracket (level : Nat)
  | missingOpenParen (name : String)
  | unterminatedInvocation (name : String)
  | unexpectedToken (found : TokenKind)
  deriving DecidableEq

structure Fault where
  cause : Cause
  span : Span
  line : Nat
  deriving DecidableEq

/-- `[`, as many `=` as the level says, `[`. -/
def bracketOpener (level : Nat) : List Char := '[' :: (List.replicate level '=' ++ ['['])

/-- `]`, as many `=` as the level says, `]`. -/
def bracketCloser (level : Nat) : List Char := ']' :: (List.replicate level '=' ++ [']'])

/-- The short name of a cause. -/
def Cause.label : Cause → String
  | .unexpectedCharacter _ => "unexpected character"
  | .unterminatedQuote => "unterminated quoted argument"
  | .unterminatedBracket _ => "unterminated bracket"
  | .missingOpenParen _ => "missing '('"
  | .unterminatedInvocation _ => "unterminated command invocation"
  | .unexpectedToken _ => "unexpected token"

def Cause.message : Cause → String
  | .unexpectedCharacter c => "Unexpected character '" ++ String.ofList (spelled c) ++ "'"
  | .unterminatedQuote => "Unterminated quoted argument"
  | .unterminatedBracket level =>
      "Unterminated bracket, expected '" ++ String.ofList (bracketCloser level) ++ "'"
  | .missingOpenParen name => "Expected '(' after command name '" ++ name ++ "'"
  | .unterminatedInvocation name => "Missing ')' to close command '" ++ name ++ "'"
  | .unexpectedToken found => "Expected a command, found " ++ found.described

/-- Advice that goes with a message. -/
def Cause.hint? : Cause → Option String
  | .unterminatedQuote => some "Add a closing '\x22'"
  | .missingOpenParen _ => some "CMake commands are written as `name(arguments...)`"
  | _ => none

end CMakeManual.Script
