import CMakeManual.Manual.Block
import CMakeManual.Manual.Documentation
import CMakeManual.Manual.Keyword
import CMakeManual.Script.Parse

/-! The callables of a script. Analysis never fails: unbalanced blocks, unknown variables and
short calls are reported as events and leave the rest as it is. -/
namespace CMakeManual.Manual
open Text Script

def Block.resolution (b : Block) (policy : Requiredness) (nodes : List Node) : Resolution :=
  resolveBody policy (b.body nodes)

def Block.callable (b : Block) (policy : Requiredness) (nodes : List Node) : Callable :=
  { kind := b.kind
    name := b.name
    parameters := b.parameters
    documentation := documentationAt nodes b.start
    line := b.line
    specs := (b.resolution policy nodes).specs }

/-- The callables among nodes, in source order. -/
def callables (policy : Requiredness) (nodes : List Node) : List Callable :=
  (blocks nodes).map fun b => b.callable policy nodes

/-- Everything reported on the way: first the matching of blocks, then each body in turn. -/
def events (policy : Requiredness) (nodes : List Node) : List Event :=
  blockEvents nodes ++ (blocks nodes).flatMap fun b => (b.resolution policy nodes).events

/-- The callables of a script text. -/
def callablesOf (policy : Requiredness) (source : String) : Except (List Fault) (List Callable) :=
  (readScript source).map (callables policy)

/-- A step of the work on a script, as an observer sees it. -/
inductive Step where
  | scanning (bytes : Nat)
  | parsing (tokens : Nat)
  | analysing (nodes : Nat)
  | reported (event : Event)
  deriving DecidableEq

def stepsOfNodes (policy : Requiredness) (nodes : List Node) : List Step :=
  .analysing nodes.length :: (events policy nodes).map .reported

/-- The steps taken on a script text. A stage that fails is the last. -/
def stepsOf (policy : Requiredness) (source : String) : List Step :=
  let scanning := Step.scanning (byteLength source.toList)
  match scan source with
  | .error _ => [scanning]
  | .ok tokens =>
      match parse tokens with
      | .error _ => [scanning, .parsing tokens.length]
      | .ok nodes => scanning :: .parsing tokens.length :: stepsOfNodes policy nodes

end CMakeManual.Manual
