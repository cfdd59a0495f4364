import CMakeManual.Vocabulary.Role

/-! What a manual says about a function or macro. -/
namespace CMakeManual.Manual
open Vocabulary

/-- How a key list was written in the parsing call. -/
inductive ListSource where
  | emptyLiteral
  | literal
  | reference (name : String) (resolved : Bool)
  deriving DecidableEq

/-- The keys of one category, those among them that the callable demands, and their source. -/
structure KeyList where
  keys : List String
  required : List String
  source : ListSource
  deriving DecidableEq

/-- The keyword arguments that one parsing call declares. -/
structure KeywordSpec where
  variablePrefix : String
  options : KeyList
  singleValue : KeyList
  multiValue : KeyList
  deriving DecidableEq

/-- A function or macro as its callers see it. -/
structure Callable where
  kind : BlockKind
  name : String
  parameters : List String
  documentation : String
  line : Nat
  specs : List KeywordSpec
  deriving DecidableEq

/-- The three lists in the order in which a call writes them. -/
def KeywordSpec.lists (spec : KeywordSpec) : List KeyList :=
  [spec.options, spec.singleValue, spec.multiValue]

/-- The variable that a list refers to without a value for it. -/
def ListSource.unresolved? : ListSource → Option String
  | .reference name false => some name
  | _ => none

def KeywordSpec.unresolved (spec : KeywordSpec) : List String :=
  spec.lists.filterMap fun list => list.source.unresolved?

end CMakeManual.Manual
