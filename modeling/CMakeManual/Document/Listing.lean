import CMakeManual.Script.Node
import CMakeManual.Text.Decimal
import CMakeManual.Text.Escape

/-! Listings of tokens and nodes for inspection, on one line or spread over several. -/
namespace CMakeManual.Document
open Text Script

/-- A value laid open: what it is called and what it holds. -/
inductive Listing where
  | atom (text : String)
  | wrapped (name : String) (item : Listing)
  | record (name : String) (fields : List (String × Listing))
  | list (items : List Listing)

namespace Listing

mutual

/-- Everything on one line. -/
def line : Listing → String
  | .atom text => text
  | .wrapped name item => name ++ "(" ++ line item ++ ")"
  | .record name [] => name
  | .record name ((key, value) :: fields) =>
      name ++ " \x7b " ++ key ++ ": " ++ line value ++ lineFields fields ++ " \x7d"
  | .list [] => "[]"
  | .list (item :: items) => "[" ++ line item ++ lineItems items ++ "]"

def lineFields : List (String × Listing) → String
  | [] => ""
  | (key, value) :: fields => ", " ++ key ++ ": " ++ line value ++ lineFields fields

def lineItems : List Listing → String
  | [] => ""
  | item :: items => ", " ++ line item ++ lineItems items

end

def pad (indent : Nat) : String := String.ofList (List.replicate (4 * indent) ' ')

mutual

/-- One field or item a line, four spaces further in than what holds it. -/
def spread (indent : Nat) : Listing → String
  | .atom text => text
  | .wrapped name item =>
      name ++ "(\n" ++ pad (indent + 1) ++ spread (indent + 1) item ++ ",\n" ++ pad indent ++ ")"
  | .record name [] => name
  | .record name (field :: fields) =>
      name ++ " \x7b\n" ++ spreadFields (indent + 1) (field :: fields) ++ pad indent ++ "\x7d"
  | .list [] => "[]"
  | .list (item :: items) =>
      "[\n" ++ spreadItems (indent + 1) (item :: items) ++ pad indent ++ "]"

def spreadFields (indent : Nat) : List (String × Listing) → String
  | [] => ""
  | (key, value) :: fields =>
      pad indent ++ key ++ ": " ++ spread indent value ++ ",\n" ++ spreadFields indent fields

def spreadItems (indent : Nat) : List Listing → String
  | [] => ""
  | item :: items => pad indent ++ spread indent item ++ ",\n" ++ spreadItems indent items

end

def ofText (s : String) : Listing := .atom (listed s)

def ofNat (n : Nat) : Listing := .atom (decimal n)

def ofSpan (span : Span) : Listing :=
  .record "Span" [("start", ofNat span.start), ("end", ofNat span.stop)]

def ofTokenKind : TokenKind → Listing
  | .ident name => .wrapped "Ident" (ofText name)
  | .leftParen => .atom "LParen"
  | .rightParen => .atom "RParen"
  | .unquoted text => .wrapped "Unquoted" (ofText text)
  | .quoted text => .wrapped "Quoted" (ofText text)
  | .bracket text => .wrapped "Bracket" (ofText text)
  | .lineComment text => .wrapped "LineComment" (ofText text)
  | .bracketComment text => .wrapped "BracketComment" (ofText text)
  | .newline => .atom "Newline"
  | .endOfFile => .atom "Eof"

def ofToken (t : Token) : Listing :=
  .record "Token" [("kind", ofTokenKind t.kind), ("span", ofSpan t.span), ("line", ofNat t.line)]

def ofArgument (a : Argument) : Listing :=
  let kind := match a.kind with
    | .unquoted => "Unquoted"
    | .quoted => "Quoted"
    | .bracket => "Bracket"
  .record "Argument" [("value", ofText a.text), ("kind", .atom kind)]

def ofInvocation (c : Invocation) : Listing :=
  .record "CommandInvocation"
    [("name", ofText c.name), ("arguments", .list (c.arguments.map ofArgument)),
      ("span", ofSpan c.span), ("line", ofNat c.line)]

def ofComment (c : Comment) : Listing :=
  let kind := match c.kind with
    | .line => "Line"
    | .bracket => "Bracket"
  .record "Comment" [("text", ofText c.text), ("kind", .atom kind), ("line", ofNat c.line)]

def ofNode : Node → Listing
  | .invocation c => .wrapped "Command" (ofInvocation c)
  | .comment c => .wrapped "Comment" (ofComment c)
  | .blankLine n => .record "BlankLine" [("line", ofNat n)]

def ofScript (nodes : List Node) : Listing :=
  .record "Script" [("nodes", .list (nodes.map ofNode))]

end Listing

/-- Each token on a line. -/
def tokenListing (tokens : List Token) : String :=
  String.join (tokens.map fun t => (Listing.ofToken t).line ++ "\n")

def nodeListing (nodes : List Node) : String := (Listing.ofScript nodes).spread 0 ++ "\n"

end CMakeManual.Document
