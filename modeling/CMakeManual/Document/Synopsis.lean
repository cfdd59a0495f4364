import CMakeManual.Manual.Callable
import CMakeManual.Text.Blank

/-! The call synopsis of a callable. The keywords of all its parsing calls are merged and sorted
by category; options are always bracketed, keys with values unless they are required. -/
namespace CMakeManual.Document
open Text Manual

/-- The parameter that takes a target's visibility. -/
def visibilityParameter : String := "visibility"

/-- The placeholder of a positional parameter. -/
def placeholder (name : String) : String :=
  let cs := trim name.toList
  let trimmed := String.ofList cs
  if cs.isEmpty then "<>"
  else if sameIgnoringCase trimmed visibilityParameter then "<PRIVATE|PUBLIC|INTERFACE>"
  else if cs.head? == some '<' && cs.getLast? == some '>' then trimmed
  else "<" ++ trimmed ++ ">"

/-- Puts a key into a strictly increasing list of keys. -/
def insertKey (key : String) : List String → List String
  | [] => [key]
  | k :: ks =>
      if key < k then key :: k :: ks
      else if key = k then k :: ks
      else k :: insertKey key ks

/-- The distinct keys in increasing order of code points. -/
def sortKeys (keys : List String) : List String := keys.foldr insertKey []

/-- The distinct keys that the specs list in one place, sorted. -/
def mergedKeys (specs : List KeywordSpec) (pick : KeywordSpec → List String) : List String :=
  sortKeys (specs.flatMap pick)

def bracketed (s : String) : String := "[" ++ s ++ "]"

/-- The line of a key with a value. -/
def valueLine (required : List String) (value key : String) : String :=
  let core := key ++ " " ++ value
  if required.contains key then core else bracketed core

/-- The line of every keyword: options, then keys with one value, then keys with several. -/
def keywordLines (specs : List KeywordSpec) : List String :=
  let merged := mergedKeys specs
  (merged fun s => s.options.keys).map bracketed ++
    (merged fun s => s.singleValue.keys).map
      (valueLine (merged fun s => s.singleValue.required) "<value>") ++
    (merged fun s => s.multiValue.keys).map
      (valueLine (merged fun s => s.multiValue.required) "<item>...")

/-- One line without keywords; otherwise a line for each keyword, `indent` spaces in. -/
def synopsis (indent : Nat) (callable : Callable) : List String :=
  let head := callable.name ++ "(" ++ " ".intercalate (callable.parameters.map placeholder)
  match keywordLines callable.specs with
  | [] => [head ++ ")"]
  | keywords =>
      let pad := String.ofList (List.replicate indent ' ')
      String.ofList (trimEnd head.toList) :: (keywords.map (pad ++ ·) ++ [")"])

end CMakeManual.Document
