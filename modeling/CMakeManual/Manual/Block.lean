import CMakeManual.Manual.Event
import CMakeManual.Script.Node

/-! Blocks. Openers and closers are matched with a stack: a closer ends the innermost open block
of its kind, and blocks of the other kind opened since are given up. A closer that finds no open
block of its kind gives up every block that is open. A block that is given up or never closed is
kept, and runs to the end of the nodes. -/
namespace CMakeManual.Manual
open Script Vocabulary

/-- An opener that has not met its closer, by its place among the nodes. -/
structure OpenBlock where
  kind : BlockKind
  start : Nat
  deriving DecidableEq

/-- A named block. Its body lies strictly between the nodes `start` and `stop`. -/
structure Block where
  kind : BlockKind
  name : String
  parameters : List String
  line : Nat
  start : Nat
  stop : Nat
  deriving DecidableEq

/-- `closings` pairs the place of each matched opener with that of its closer, in the order of the
closers; `stillOpen` holds the blocks open at the end, innermost first. -/
structure Outline where
  closings : List (Nat × Nat)
  stillOpen : List OpenBlock
  events : List Event
  deriving DecidableEq

/-- The blocks that a closer of this kind gives up, innermost first. -/
def givenUp (kind : BlockKind) (stack : List OpenBlock) : List OpenBlock :=
  stack.takeWhile fun b => b.kind != kind

/-- The blocks from the one that a closer of this kind ends. -/
def fromClosed (kind : BlockKind) (stack : List OpenBlock) : List OpenBlock :=
  stack.dropWhile fun b => b.kind != kind

/-- The effect of a closer at `index`. One that ends no block empties the stack. -/
def closeBlock (index line : Nat) (kind : BlockKind) (stack : List OpenBlock) : Outline :=
  let lost := (givenUp kind stack).map fun b => Event.discarded b.kind kind
  match fromClosed kind stack with
  | closed :: outer => ⟨[(closed.start, index)], outer, lost⟩
  | [] => ⟨[], [], lost ++ [.strayCloser line kind]⟩

/-- The effect of one command at `index`. An opener without a name opens nothing. -/
def commandOutline (index : Nat) (stack : List OpenBlock) (command : Invocation) : Outline :=
  match Role.ofName? command.name with
  | some (.opens kind) =>
      match command.arguments with
      | [] => ⟨[], stack, [.unnamedBlock command.line kind]⟩
      | name :: _ => ⟨[], ⟨kind, index⟩ :: stack, [.found name.text command.line kind]⟩
  | some (.closes kind) => closeBlock index command.line kind stack
  | _ => ⟨[], stack, []⟩

def nodeOutline (index : Nat) (stack : List OpenBlock) (n : Node) : Outline :=
  match n.invocation? with
  | some command => commandOutline index stack command
  | none => ⟨[], stack, []⟩

/-- Matches the blocks of nodes that stand at `index` and behind, inside the open blocks
`stack`. -/
def outlineFrom (index : Nat) (stack : List OpenBlock) : List Node → Outline
  | [] => ⟨[], stack, []⟩
  | n :: nodes =>
      let first := nodeOutline index stack n
      let rest := outlineFrom (index + 1) first.stillOpen nodes
      ⟨first.closings ++ rest.closings, rest.stillOpen, first.events ++ rest.events⟩

def outline (nodes : List Node) : Outline := outlineFrom 0 [] nodes

/-- What is reported while blocks are matched. Blocks left open at the end are counted. -/
def blockEvents (nodes : List Node) : List Event :=
  let o := outline nodes
  o.events ++ if o.stillOpen.isEmpty then [] else [.leftOpen o.stillOpen.length]

/-- Where the block that opens at `start` ends: at its closer, or behind the last node. -/
def blockStop (nodes : List Node) (start : Nat) : Nat :=
  ((outline nodes).closings.lookup start).getD nodes.length

/-- The block that a node opens, if it stands at `start` and its block ends at `stop`. -/
def openedBlock? (start stop : Nat) (n : Node) : Option Block :=
  match n with
  | .invocation command =>
      match Role.ofName? command.name, command.arguments with
      | some (.opens kind), name :: parameters =>
          some ⟨kind, name.text, parameters.map Argument.text, command.line, start, stop⟩
      | _, _ => none
  | _ => none

/-- Every named block in source order, closed or not. -/
def blocks (nodes : List Node) : List Block :=
  nodes.zipIdx.filterMap fun n => openedBlock? n.2 (blockStop nodes n.2) n.1

def Block.body (b : Block) (nodes : List Node) : List Node := (nodes.take b.stop).drop (b.start + 1)

/-- Matching goes on behind the first nodes with the blocks that they leave open. -/
theorem outlineFrom_append (index : Nat) (stack : List OpenBlock) (ns ms : List Node) :
    outlineFrom index stack (ns ++ ms) =
      let first := outlineFrom index stack ns
      let rest := outlineFrom (index + ns.length) first.stillOpen ms
      ⟨first.closings ++ rest.closings, rest.stillOpen, first.events ++ rest.events⟩ := by
  induction ns generalizing index stack with
  | nil => simp [outlineFrom]
  | cons n ns ih => simp [outlineFrom, ih, Nat.add_assoc, Nat.add_comm 1]

end CMakeManual.Manual
