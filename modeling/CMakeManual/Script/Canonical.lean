import CMakeManual.Script.Node

/-! The canonical text of a script: one node a line, arguments between single spaces. -/
namespace CMakeManual.Script

def Invocation.chars (command : Invocation) : List Char :=
  let arguments := command.arguments.map fun a => a.text.toList
  command.name.toList ++ '(' :: ([' '].intercalate arguments ++ [')'])

/-- A node as its line shows it. A blank line shows nothing. -/
def Node.chars : Node → List Char
  | .invocation command => command.chars
  | .comment text => text.text.toList
  | .blankLine _ => []

def canonicalChars (nodes : List Node) : List Char := nodes.flatMap fun n => n.chars ++ ['\n']

def canonicalText (nodes : List Node) : String := String.ofList (canonicalChars nodes)

@[simp] theorem canonicalChars_nil : canonicalChars [] = [] := rfl

@[simp] theorem canonicalChars_cons (n : Node) (ns : List Node) :
    canonicalChars (n :: ns) = n.chars ++ '\n' :: canonicalChars ns := by
  simp [canonicalChars]

end CMakeManual.Script
