import CMakeManual.Script.Node
import CMakeManual.Script.Scan

/-! Nodes from tokens. A faulty statement is reported and reading goes on at the next line, so one
pass reports every faulty line. Any list of tokens can be read, also one that no script yields. -/
namespace CMakeManual.Script

/-- The arguments of an invocation up to its closing parenthesis. -/
inductive ArgumentList where
  | closed (arguments : List Argument) (close : Token) (rest : List Token)
  | unclosed (stop : Option Token) (rest : List Token)

def ArgumentList.push (a : Argument) : ArgumentList → ArgumentList
  | .closed arguments close rest => .closed (a :: arguments) close rest
  | .unclosed stop rest => .unclosed stop rest

def ArgumentList.rest : ArgumentList → List Token
  | .closed _ _ rest | .unclosed _ rest => rest

/-- The argument that a token is inside an invocation. Parentheses stand for themselves. -/
def TokenKind.argument? : TokenKind → Option Argument
  | .leftParen => some ⟨.unquoted, "("⟩
  | .rightParen => some ⟨.unquoted, ")"⟩
  | .unquoted text | .ident text => some ⟨.unquoted, text⟩
  | .quoted text => some ⟨.quoted, text⟩
  | .bracket text => some ⟨.bracket, text⟩
  | .lineComment _ | .bracketComment _ | .newline | .endOfFile => none

/-- Reads arguments inside `depth` further parentheses. Comments and newlines are passed over. -/
def argumentList (depth : Nat) : List Token → ArgumentList
  | [] => .unclosed none []
  | t :: ts =>
      match t.kind with
      | .endOfFile => .unclosed (some t) ts
      | .leftParen => (argumentList (depth + 1) ts).push ⟨.unquoted, "("⟩
      | .rightParen =>
          if depth = 0 then .closed [] t ts
          else (argumentList (depth - 1) ts).push ⟨.unquoted, ")"⟩
      | kind =>
          match kind.argument? with
          | some a => (argumentList depth ts).push a
          | none => argumentList depth ts

def endsStatement (t : Token) : Bool := t.kind = .newline || t.kind = .endOfFile

/-- What follows a faulty statement: the tokens from the next line end on. -/
def nextLine (ts : List Token) : List Token := ts.dropWhile fun t => !endsStatement t

/-- An invocation, or what is wrong with it, and the tokens to go on with. -/
def statement (name : String) (t : Token) : List Token → Except Fault Invocation × List Token
  | paren :: ts =>
      if paren.kind = .leftParen then
        match argumentList 0 ts with
        | .closed arguments close rest =>
            (.ok ⟨name, arguments, t.span.join close.span, t.line⟩, rest)
        | .unclosed stop rest =>
            let span := (stop.map fun s => t.span.join s.span).getD t.span
            (.error ⟨.unterminatedInvocation name, span, t.line⟩, nextLine rest)
      else (.error ⟨.missingOpenParen name, t.span, t.line⟩, nextLine (paren :: ts))
  | [] => (.error ⟨.missingOpenParen name, t.span, t.line⟩, [])

/-- Nodes and faults in source order. -/
structure Reading where
  nodes : List Node
  faults : List Fault

def Reading.withNode (n : Node) (r : Reading) : Reading := { r with nodes := n :: r.nodes }

def Reading.withFault (f : Fault) (r : Reading) : Reading := { r with faults := f :: r.faults }

theorem ArgumentList.rest_push (a : Argument) (l : ArgumentList) : (l.push a).rest = l.rest := by
  cases l <;> rfl

theorem argumentList_rest_length (depth : Nat) (ts : List Token) :
    (argumentList depth ts).rest.length ≤ ts.length := by
  induction ts generalizing depth with
  | nil => simp [argumentList, ArgumentList.rest]
  | cons t ts ih =>
      unfold argumentList
      split
      · simp [ArgumentList.rest]
      · simpa [ArgumentList.rest_push] using Nat.le_succ_of_le (ih _)
      · split
        · simp [ArgumentList.rest]
        · simpa [ArgumentList.rest_push] using Nat.le_succ_of_le (ih _)
      · split
        · simpa [ArgumentList.rest_push] using Nat.le_succ_of_le (ih _)
        · simpa using Nat.le_succ_of_le (ih _)

theorem nextLine_length (ts : List Token) : (nextLine ts).length ≤ ts.length :=
  (List.dropWhile_sublist _).length_le

theorem statement_rest_length (name : String) (t : Token) (ts : List Token) :
    (statement name t ts).2.length ≤ ts.length := by
  unfold statement
  split
  next paren ts =>
    have hr := argumentList_rest_length 0 ts
    split
    · split
      next h => simp [h, ArgumentList.rest] at hr ⊢; omega
      next stop rest h =>
        simp [h, ArgumentList.rest] at hr ⊢
        have := nextLine_length rest
        omega
    · exact nextLine_length _
  next => simp

/-- Reads nodes; `started` says whether the current line holds anything yet. -/
def readFrom (started : Bool) : List Token → Reading
  | [] => ⟨[], []⟩
  | t :: ts =>
      match t.kind with
      | .endOfFile => ⟨[], []⟩
      | .newline =>
          if started then readFrom false ts
          else (readFrom false ts).withNode (.blankLine t.line)
      | .lineComment text => (readFrom true ts).withNode (.comment ⟨.line, text, t.line⟩)
      | .bracketComment text => (readFrom true ts).withNode (.comment ⟨.bracket, text, t.line⟩)
      | .ident name =>
          let read := statement name t ts
          match read.1 with
          | .ok command => (readFrom true read.2).withNode (.invocation command)
          | .error fault => (readFrom true read.2).withFault fault
      | found => (readFrom true (nextLine ts)).withFault ⟨.unexpectedToken found, t.span, t.line⟩
termination_by ts => ts.length
decreasing_by
  all_goals
    have := statement_rest_length
    have := nextLine_length ts
    grind

/-- A token that starts no statement is a fault. -/
theorem readFrom_unexpected {t : Token} (he : t.kind = .endOfFile → False)
    (hn : t.kind = .newline → False) (hl : ∀ text, t.kind = .lineComment text → False)
    (hb : ∀ text, t.kind = .bracketComment text → False)
    (hi : ∀ name, t.kind = .ident name → False) (started : Bool) (ts : List Token) :
    readFrom started (t :: ts) =
      (readFrom true (nextLine ts)).withFault ⟨.unexpectedToken t.kind, t.span, t.line⟩ := by
  rw [readFrom]
  split <;> simp_all

/-- The nodes that tokens spell, or everything that is wrong with their order. -/
def parse (tokens : List Token) : Except (List Fault) (List Node) :=
  let reading := readFrom false tokens
  match reading.faults with
  | [] => .ok reading.nodes
  | faults => .error faults

/-- The nodes of a script. Tokens are read only if the script has no faulty lexeme. -/
def readScript (source : String) : Except (List Fault) (List Node) :=
  (scan source).bind parse

end CMakeManual.Script
