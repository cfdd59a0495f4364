import CMakeManual.Manual.Event
import CMakeManual.Text.Decimal
import CMakeManual.Text.Escape
import CMakeManual.Text.Letters

/-! Log lines. A record shows its level, where it comes from, its message and its values. -/
namespace CMakeManual.Run
open Text Manual

inductive LogLevel where
  | error
  | warn
  | info
  | debug
  | trace
  deriving DecidableEq

def LogLevel.word : LogLevel → String
  | .error => "ERROR"
  | .warn => "WARN"
  | .info => "INFO"
  | .debug => "DEBUG"
  | .trace => "TRACE"

/-- Zero for the most severe. -/
def LogLevel.rank : LogLevel → Nat
  | .error => 0
  | .warn => 1
  | .info => 2
  | .debug => 3
  | .trace => 4

/-- The level that a word in any letter case names. -/
def LogLevel.ofWord? (word : String) : Option LogLevel :=
  [LogLevel.error, .warn, .info, .debug, .trace].find? fun l => sameIgnoringCase l.word word

structure LogRecord where
  level : LogLevel
  context : String
  origin : String
  message : String
  fields : List (String × FieldValue)
  deriving DecidableEq

def shownValue : FieldValue → String
  | .number n => decimal n
  | .word s => s
  | .quoted s => listed s

def LogRecord.line (r : LogRecord) : String :=
  r.level.word ++ " " ++ r.context ++ r.origin ++ ": " ++ r.message ++
    String.join (r.fields.map fun f => " " ++ f.1 ++ "=" ++ shownValue f.2)

/-- The lines of the records at most as detailed as `threshold`; without one, none. -/
def logLines (threshold : Option LogLevel) (records : List LogRecord) : List String :=
  match threshold with
  | none => []
  | some level => (records.filter fun r => r.level.rank ≤ level.rank).map LogRecord.line

/-- The part of the program that reports an event. -/
def eventOrigin : Event → String
  | .unnamedBlock .. | .found .. | .strayCloser .. | .leftOpen _ => "cmakedoc::analysis::registry"
  | .discarded .. => "cmakedoc::analysis::scope"
  | .shortCall _ | .unknownList _ => "cmakedoc::analysis::keyword_args"

def eventRecord (nodeCount : Nat) (event : Event) : LogRecord :=
  { level := .debug
    context := "analyze_with_config\x7bnode_count=" ++ decimal nodeCount ++ "\x7d: "
    origin := eventOrigin event
    message := event.message
    fields := event.fields }

/-- A record of the run itself, about its input. -/
def inputRecord (level : LogLevel) (message input : String) : LogRecord :=
  { level
    context := ""
    origin := "cmakedoc::cli::commands"
    message
    fields := [("input", .word input)] }

end CMakeManual.Run
