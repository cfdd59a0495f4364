import CMakeManual.Manual.Callable
import CMakeManual.Manual.Event
import CMakeManual.Script.Node
import CMakeManual.Text.Blank
import CMakeManual.Text.Lines
import CMakeManual.Vocabulary.Naming

/-! Keyword arguments of a body. The assignments of the body are replayed in order, and each
parsing call is resolved against those before it. -/
namespace CMakeManual.Manual
open Text Script Vocabulary

/-- Removes one layer of matching double or single quotes. -/
def unquoteOnce (cs : List Char) : List Char :=
  match cs with
  | c :: r => if (c == '\x22' || c == '\x27') && r.getLast? == some c then r.dropLast else cs
  | [] => []

/-- The non-empty elements of a list. -/
def listParts (cs : List Char) : List (List Char) :=
  (pieces listSeparator cs).filter fun piece => !piece.isEmpty

/-- The name in a text that is one variable reference and nothing else. -/
def referenceName? : List Char → Option (List Char)
  | '$' :: '\x7b' :: r =>
      if r.getLast? == some '\x7d' && !r.dropLast.isEmpty && !r.dropLast.contains '\x7d' then
        some r.dropLast
      else none
  | _ => none

def unquote (s : String) : String := String.ofList (unquoteOnce s.toList)

/-- The list that a value stands for. -/
def listElements (value : String) : List String :=
  (listParts (unquoteOnce value.toList)).map String.ofList

/-- How a body shows that it demands a key. -/
inductive Requiredness where
  | byValidationCall
  | never
  deriving DecidableEq

/-- The variables that a body has validated so far. -/
structure Evidence where
  validated : List String
  deriving DecidableEq

def Evidence.empty : Evidence := ⟨[]⟩

/-- The evidence after a command that counts as evidence; no answer for any other command. -/
def Requiredness.observe (policy : Requiredness) (evidence : Evidence) (command : Invocation) :
    Option Evidence :=
  match policy, command.arguments with
  | .byValidationCall, argument :: _ =>
      if isValidation command.name then some ⟨unquote argument.text :: evidence.validated⟩
      else none
  | _, _ => none

/-- The key is demanded, judged by the evidence so far. -/
def Requiredness.requires (policy : Requiredness) (evidence : Evidence)
    (variablePrefix key : String) : Bool :=
  match policy with
  | .byValidationCall => evidence.validated.contains (keyVariable variablePrefix key)
  | .never => false

/-- Variables with their latest values, latest first, and the evidence so far. -/
structure Context where
  assigned : List (String × List String)
  evidence : Evidence
  deriving DecidableEq

def Context.empty : Context := ⟨[], .empty⟩

/-- The first argument names the variable, the others give its elements. -/
def Context.assign (context : Context) (command : Invocation) : Context :=
  match command.arguments with
  | [] => context
  | target :: values =>
      { context with
        assigned := (target.text, values.flatMap fun v => listElements v.text) ::
          context.assigned }

/-- Keys and source of a list argument. -/
def Context.keys (context : Context) (argument : String) : List String × ListSource :=
  let text := unquoteOnce (trim argument.toList)
  if text = [] ∨ text = ['\x22', '\x22'] ∨ text = ['\x27', '\x27'] then ([], .emptyLiteral)
  else
    match referenceName? text with
    | some name =>
        match context.assigned.lookup (String.ofList name) with
        | some keys => (keys, .reference (String.ofList name) true)
        | none => ([], .reference (String.ofList name) false)
    | none => ((listParts text).map String.ofList, .literal)

/-- A list argument with the keys that are demanded. -/
def Context.keyList (context : Context) (policy : Requiredness)
    (variablePrefix argument : String) : KeyList :=
  let found := context.keys argument
  { keys := found.1
    required := found.1.filter (policy.requires context.evidence variablePrefix)
    source := found.2 }

/-- The arguments from the prefix on. -/
def callArguments (command : Invocation) : List String :=
  match command.arguments.map Argument.text with
  | first :: rest => if first = parseArgvWord then rest.drop 1 else first :: rest
  | [] => []

/-- What a parsing call declares; no answer for one too short to carry its three lists. -/
def Context.spec? (context : Context) (policy : Requiredness) (command : Invocation) :
    Option KeywordSpec :=
  match callArguments command with
  | first :: options :: single :: multi :: _ =>
      let variablePrefix := unquote first
      some
        { variablePrefix
          options := context.keyList policy variablePrefix options
          singleValue := context.keyList policy variablePrefix single
          multiValue := context.keyList policy variablePrefix multi }
  | _ => none

/-- What parsing calls declare, and what is reported about them, in order. -/
structure Resolution where
  specs : List KeywordSpec
  events : List Event
  deriving DecidableEq

def Resolution.empty : Resolution := ⟨[], []⟩

def Resolution.append (r t : Resolution) : Resolution := ⟨r.specs ++ t.specs, r.events ++ t.events⟩

/-- What a parsing call declares. Lists that refer to unknown variables are reported. -/
def Context.resolveCall (context : Context) (policy : Requiredness) (command : Invocation) :
    Resolution :=
  match context.spec? policy command with
  | some spec => ⟨[spec], spec.unresolved.map .unknownList⟩
  | none => ⟨[], [.shortCall command.line]⟩

/-- What one command declares. Evidence is not interpreted further. -/
def Context.resolve (context : Context) (policy : Requiredness) (command : Invocation) :
    Resolution :=
  if (policy.observe context.evidence command).isSome then .empty
  else if Role.ofName? command.name = some .parsesArguments then
    context.resolveCall policy command
  else .empty

/-- The context behind one command. -/
def Context.next (context : Context) (policy : Requiredness) (command : Invocation) : Context :=
  match policy.observe context.evidence command with
  | some evidence => { context with evidence }
  | none =>
      if Role.ofName? command.name = some .assigns then context.assign command else context

/-- Resolves the parsing calls among commands, in order. -/
def resolveFrom (policy : Requiredness) (context : Context) : List Invocation → Resolution
  | [] => .empty
  | command :: rest =>
      (context.resolve policy command).append
        (resolveFrom policy (context.next policy command) rest)

/-- The context behind commands. -/
def contextAfter (policy : Requiredness) (context : Context) (commands : List Invocation) :
    Context :=
  commands.foldl (fun c command => c.next policy command) context

/-- The keyword arguments of a body, nested blocks included. -/
def resolveBody (policy : Requiredness) (body : List Node) : Resolution :=
  resolveFrom policy .empty (invocations body)

@[simp] theorem Resolution.empty_append (r : Resolution) : Resolution.empty.append r = r := rfl

@[simp] theorem Resolution.append_empty (r : Resolution) : r.append .empty = r := by
  simp [append, empty]

theorem Resolution.append_assoc (r t u : Resolution) :
    (r.append t).append u = r.append (t.append u) := by
  simp [append]

/-- Later commands do not change what earlier ones declare. -/
theorem resolveFrom_append (policy : Requiredness) (context : Context) (cs ds : List Invocation) :
    resolveFrom policy context (cs ++ ds) =
      (resolveFrom policy context cs).append
        (resolveFrom policy (contextAfter policy context cs) ds) := by
  induction cs generalizing context with
  | nil => rfl
  | cons c cs ih => simp [resolveFrom, contextAfter, ih, Resolution.append_assoc]

end CMakeManual.Manual
