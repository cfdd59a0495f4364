import CMakeManual.Text.Letters

/-! The commands that matter for documentation. Every other command is ordinary. -/
namespace CMakeManual.Vocabulary
open Text

/-- The two kinds of callable block. -/
inductive BlockKind where
  | functionBlock
  | macroBlock
  deriving DecidableEq

def BlockKind.word : BlockKind → String
  | .functionBlock => "function"
  | .macroBlock => "macro"

/-- A function body has a variable scope of its own, a macro body runs in its caller's. -/
def BlockKind.isScoped : BlockKind → Bool
  | .functionBlock => true
  | .macroBlock => false

/-- What a recognised command does. -/
inductive Role where
  | opens (kind : BlockKind)
  | closes (kind : BlockKind)
  | assigns
  | parsesArguments
  deriving DecidableEq

/-- Every role, in the order in which they are listed. -/
def Role.all : List Role :=
  [.opens .functionBlock, .closes .functionBlock, .opens .macroBlock, .closes .macroBlock,
    .assigns, .parsesArguments]

/-- The documented spelling of the command with this role. -/
def Role.canonical : Role → String
  | .opens .functionBlock => "function"
  | .closes .functionBlock => "endfunction"
  | .opens .macroBlock => "macro"
  | .closes .macroBlock => "endmacro"
  | .assigns => "set"
  | .parsesArguments => "cmake_parse_arguments"

/-- The role of a command name in any letter case. -/
def Role.ofName? (name : String) : Option Role :=
  Role.all.find? fun role => sameIgnoringCase role.canonical name

theorem Role.ofName?_congr {s t : String} (h : sameIgnoringCase s t = true) :
    Role.ofName? s = Role.ofName? t := by
  simp only [ofName?, sameIgnoringCase, sameIgnoringCase_iff.1 h]

/-- A command has a role exactly if its name is the documented spelling in some letter case. -/
theorem Role.ofName?_eq_some_iff (name : String) (role : Role) :
    ofName? name = some role ↔ lowerAscii name = role.canonical.toList := by
  have hlower : lowerAscii role.canonical = role.canonical.toList := by
    rcases role with (_ | _) | (_ | _) | _ | _ <;> decide
  have hown : ofName? role.canonical = some role := by
    rcases role with (_ | _) | (_ | _) | _ | _ <;> decide
  constructor
  · intro h
    have hsame := List.find?_some h
    rw [← sameIgnoringCase_iff.mp hsame, hlower]
  · intro h
    have hsame : sameIgnoringCase name role.canonical = true := by
      rw [sameIgnoringCase_iff, h, hlower]
    rw [ofName?_congr hsame, hown]

end CMakeManual.Vocabulary
