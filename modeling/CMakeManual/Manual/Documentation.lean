import CMakeManual.Script.Lexeme
import CMakeManual.Script.Node

/-! The documentation of a block: the run of comments directly above its opener. Anything else, a
blank line included, ends the run. -/
namespace CMakeManual.Manual
open Text Script

/-- A comment line without trailing blanks and without its first space. -/
def proseLine (cs : List Char) : List Char :=
  match trimEnd cs with
  | ' ' :: r => r
  | r => r

/-- Drops `mark` from the end of a text that ends with it. -/
def withoutEnd (mark cs : List Char) : List Char :=
  if mark.isSuffixOf cs then cs.take (cs.length - mark.length) else cs

/-- The text inside the brackets of a bracket comment. A text that has no opener is kept, and so
is the end of one that has no closer. -/
def insideBrackets (cs : List Char) : List Char :=
  let body := match cs with
    | '#' :: r => r
    | r => r
  match bracketOpen? body with
  | some (level, inside) => withoutEnd (bracketCloser level) inside
  | none => body

/-- The lines that a comment contributes. -/
def commentProse (comment : Comment) : List (List Char) :=
  match comment.kind with
  | .line => [proseLine (comment.text.toList.dropWhile (· == '#'))]
  | .bracket => (lines (insideBrackets comment.text.toList)).map proseLine

/-- The comments at the end of a list of nodes, in order. -/
def commentRun (above : List Node) : List Comment :=
  ((above.reverse.takeWhile fun n => n.comment?.isSome).filterMap Node.comment?).reverse

/-- Drops blank lines at both ends. -/
def withoutBlankEdges (ls : List (List Char)) : List (List Char) :=
  dropEndWhile allBlank (ls.dropWhile allBlank)

/-- The documentation that the nodes above an opener give. -/
def documentationAbove (above : List Node) : String :=
  String.ofList (joinLines (withoutBlankEdges ((commentRun above).flatMap commentProse)))

/-- The documentation of the node at `index`; an index behind the last node means the end. -/
def documentationAt (nodes : List Node) (index : Nat) : String :=
  documentationAbove (nodes.take index)

end CMakeManual.Manual
