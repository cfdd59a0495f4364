import CMakeManual.Script.Token

/-! A script as a flat list of nodes: invocations, comments and blank lines in source order. -/
namespace CMakeManual.Script

inductive ArgumentKind where
  | unquoted
  | quoted
  | bracket
  deriving DecidableEq

/-- An argument as written, quotes and brackets included. -/
structure Argument where
  kind : ArgumentKind
  text : String
  deriving DecidableEq

structure Invocation where
  name : String
  arguments : List Argument
  span : Span
  line : Nat
  deriving DecidableEq

inductive CommentKind where
  | line
  | bracket
  deriving DecidableEq

/-- A comment with its `#`. -/
structure Comment where
  kind : CommentKind
  text : String
  line : Nat
  deriving DecidableEq

inductive Node where
  | invocation (command : Invocation)
  | comment (text : Comment)
  | blankLine (line : Nat)
  deriving DecidableEq

namespace Node

def invocation? : Node → Option Invocation
  | .invocation command => some command
  | _ => none

def comment? : Node → Option Comment
  | .comment text => some text
  | _ => none

theorem invocation?_eq_some_iff {n : Node} {command : Invocation} :
    n.invocation? = some command ↔ n = .invocation command := by
  cases n <;> simp [invocation?]

/-- The line a node starts on. -/
def line : Node → Nat
  | .invocation command => command.line
  | .comment text => text.line
  | .blankLine number => number

end Node

/-- The commands among the nodes, in order. -/
def invocations (nodes : List Node) : List Invocation := nodes.filterMap Node.invocation?

@[simp] theorem invocations_append (ns ms : List Node) :
    invocations (ns ++ ms) = invocations ns ++ invocations ms := by
  simp [invocations]

end CMakeManual.Script
