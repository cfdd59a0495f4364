import CMakeManual.Vocabulary.Role

/-! The reference entry of each recognised command. -/
namespace CMakeManual.Vocabulary

inductive Stability where
  | stable
  deriving DecidableEq

def Stability.word : Stability → String
  | .stable => "Stable"

structure Example where
  code : String
  note : Option String
  deriving DecidableEq

/-- `since` is the first release with the command built in, where that is known. -/
structure Entry where
  identifier : String
  description : String
  since : Option String
  stability : Stability
  examples : List Example
  deriving DecidableEq

def Role.entry : Role → Entry
  | .opens .functionBlock =>
      { identifier := "Function"
        description := "Start recording a function; the body runs in a new variable scope."
        since := none
        stability := .stable
        examples :=
          [⟨"function(add_tool name)",
            some "The first argument names the function; the rest are positional parameters."⟩] }
  | .closes .functionBlock =>
      { identifier := "EndFunction"
        description := "End a function block."
        since := none
        stability := .stable
        examples := [] }
  | .opens .macroBlock =>
      { identifier := "Macro"
        description := "Start recording a macro; the body runs in the caller's variable scope."
        since := none
        stability := .stable
        examples := [] }
  | .closes .macroBlock =>
      { identifier := "EndMacro"
        description := "End a macro block."
        since := none
        stability := .stable
        examples := [] }
  | .assigns =>
      { identifier := "Set"
        description := "Assign a value list to a variable."
        since := none
        stability := .stable
        examples :=
          [⟨"set(options QUIET VERBOSE)",
            some "Later `$\x7boptions\x7d` references resolve to `QUIET;VERBOSE`."⟩] }
  | .parsesArguments =>
      { identifier := "CmakeParseArguments"
        description := "Declare options, one-value and multi-value keywords and parse them into " ++
          "`<prefix>_<KEY>`."
        since := some "3.5"
        stability := .stable
        examples :=
          [⟨"cmake_parse_arguments(ARG \x22QUIET\x22 \x22DESTINATION\x22 \x22FILES\x22 " ++
              "$\x7bARGN\x7d)", none⟩,
            ⟨"cmake_parse_arguments(PARSE_ARGV 1 ARG \x22QUIET\x22 \x22DESTINATION\x22 " ++
              "\x22FILES\x22)",
            some ("The `PARSE_ARGV` signature (CMake 3.7) reads arguments starting at the " ++
              "given index.")⟩] }

/-- The block that a command opens or closes. -/
def Role.block? : Role → Option BlockKind
  | .opens kind | .closes kind => some kind
  | .assigns | .parsesArguments => none

end CMakeManual.Vocabulary
