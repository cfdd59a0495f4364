import CMakeManual.Text.Blank
import CMakeManual.Text.Lines

/-! A tree of files as a run meets it. Paths are followed component by component from the working
directory; `.` and `..` are directories like any other, and what lies outside the working
directory is taken to be empty directories. -/
namespace CMakeManual.Run
open Text

inductive Entry where
  | directory
  | file (content : ByteArray)

def Entry.isDirectory : Entry → Bool
  | .directory => true
  | .file _ => false

/-- The content of a file. -/
def Entry.content? : Entry → Option ByteArray
  | .directory => none
  | .file content => some content

/-- Where an entry stands: the names on the way from the working directory, `..` for each step
out of it, or `/` and the names from the root. -/
abbrev Place := List String

structure FileTree where
  entries : List (Place × Entry)

inductive PathFault where
  | notFound
  | notADirectory
  | isADirectory
  deriving DecidableEq

def PathFault.message : PathFault → String
  | .notFound => "No such file or directory (os error 2)"
  | .notADirectory => "Not a directory (os error 20)"
  | .isADirectory => "Is a directory (os error 21)"

/-- The components of a path. An empty one stands between two slashes and behind a last one. -/
def components (path : String) : List String := (pieces '/' path.toList).map String.ofList

/-- The root, the working directory and the directories above it. -/
def isFrame (place : Place) : Bool := place == ["/"] || place.all (· == "..")

def FileTree.get? (tree : FileTree) (place : Place) : Option Entry :=
  if isFrame place then some .directory else tree.entries.lookup place

def parentOf (place : Place) : Place :=
  if place == ["/"] then place
  else if isFrame place then ".." :: place
  else place.dropLast

/-- Follows components from a place; all but the last entry met must be a directory. -/
def FileTree.follow (tree : FileTree) (place : Place) : List String → Except PathFault Place
  | [] => .ok place
  | name :: names =>
      match tree.get? place with
      | none => .error .notFound
      | some (.file _) => .error .notADirectory
      | some .directory =>
          if name == "" || name == "." then tree.follow place names
          else if name == ".." then tree.follow (parentOf place) names
          else if (tree.get? (place ++ [name])).isSome then tree.follow (place ++ [name]) names
          else .error .notFound

/-- Where a path starts, and the components to follow from there. -/
def pathStart (path : String) : Place × List String :=
  match components path with
  | "" :: names => (["/"], names)
  | names => ([], names)

/-- The entry at a path. -/
def FileTree.find (tree : FileTree) (path : String) : Except PathFault Entry :=
  let start := pathStart path
  match tree.follow start.1 start.2 with
  | .error fault => .error fault
  | .ok place =>
      match tree.get? place with
      | some entry => .ok entry
      | none => .error .notFound

/-- Where a file written to a path goes. The last component has to be a name, and its directory
has to be there. -/
def FileTree.target (tree : FileTree) (path : String) : Except PathFault Place :=
  let start := pathStart path
  let named := dropEndWhile (· == "") start.2
  match named.getLast? with
  | none => .error .isADirectory
  | some name =>
      match tree.follow start.1 (named.dropLast ++ [""]) with
      | .error fault => .error fault
      | .ok parent =>
          if name == "." || name == ".." || named.length < start.2.length then .error .isADirectory
          else if (tree.get? (parent ++ [name])).any Entry.isDirectory then .error .isADirectory
          else .ok (parent ++ [name])

/-- Sets the entry at a place and leaves the others as they are. -/
def FileTree.set (tree : FileTree) (place : Place) (entry : Entry) : FileTree :=
  ⟨(place, entry) :: tree.entries.filter fun e => e.1 != place⟩

/-- Writes a text to a path. -/
def FileTree.write (tree : FileTree) (path text : String) : Except PathFault FileTree :=
  (tree.target path).map fun place => tree.set place (.file text.toUTF8)

/-- Adds an entry, with a directory for every place above it that has no entry. -/
def FileTree.add (tree : FileTree) (path : String) (entry : Entry) : FileTree :=
  let place := (components path).filter fun name => name != "" && name != "."
  let above := (List.range place.length).map fun n => place.take n
  let tree := above.foldl (fun t p => if (t.get? p).isSome then t else t.set p .directory) tree
  tree.set place entry

/-- A tree with these entries. -/
def FileTree.ofList (entries : List (String × Entry)) : FileTree :=
  entries.foldl (fun tree e => tree.add e.1 e.2) ⟨[]⟩

/-- The content of the file at a place. -/
def FileTree.content? (tree : FileTree) (place : Place) : Option ByteArray :=
  (tree.get? place).bind Entry.content?

/-- The files of a tree that `before` does not have with the same content. -/
def FileTree.changesSince (tree before : FileTree) : List (String × ByteArray) :=
  tree.entries.filterMap fun e =>
    e.2.content?.bind fun content =>
      if before.content? e.1 == some content then none
      else some ("/".intercalate e.1, content)

theorem FileTree.get?_set_self (tree : FileTree) {place : Place} (entry : Entry)
    (h : isFrame place = false) : (tree.set place entry).get? place = some entry := by
  simp [get?, set, h]

theorem lookup_filter_ne {place other : Place} (h : other ≠ place) (es : List (Place × Entry)) :
    (es.filter fun e => e.1 != place).lookup other = es.lookup other := by
  induction es with
  | nil => rfl
  | cons e es ih =>
      obtain ⟨p, entry⟩ := e
      by_cases hp : p = place
      · subst hp
        have ho : (other == p) = false := by simp [h]
        simp [List.lookup_cons, ih, ho]
      · simp [hp, List.lookup_cons, ih]

/-- Every other place keeps its entry. -/
theorem FileTree.get?_set_of_ne (tree : FileTree) {place other : Place} (entry : Entry)
    (h : other ≠ place) : (tree.set place entry).get? other = tree.get? other := by
  have ho : (other == place) = false := by simp [h]
  simp [get?, set, List.lookup_cons, ho, lookup_filter_ne h]

end CMakeManual.Run
