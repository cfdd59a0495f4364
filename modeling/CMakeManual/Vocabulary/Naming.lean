import CMakeManual.Text.Letters

/-! Naming conventions of scripts that are not part of any command. -/
namespace CMakeManual.Vocabulary
open Text

/-- Names of commands that check that a variable is defined end like this. -/
def validationEnding : String := "check_var_defined"

/-- The word that selects the signature with an argument index. -/
def parseArgvWord : String := "PARSE_ARGV"

/-- Separates the elements of a list. -/
def listSeparator : Char := ';'

/-- A naming convention, not a proof: any command with that ending, in any letter case, counts. -/
def isValidation (name : String) : Bool :=
  validationEnding.toList.isSuffixOf (lowerAscii name)

/-- Internal helpers have a name that starts with an underscore. -/
def isInternalName (name : String) : Bool := name.toList.head? == some '_'

/-- The variable that a parsed keyword is written into. -/
def keyVariable (variablePrefix key : String) : String := variablePrefix ++ "_" ++ key

end CMakeManual.Vocabulary
