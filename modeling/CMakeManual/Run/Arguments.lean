import CMakeManual.Run.Settings

/-! The words of a command line. Words are read from left to right. An option without an attached
value takes the next word that does not look like an option. A value that stands in a word of its
own is judged only when the next option or positional word comes, or at the end. -/
namespace CMakeManual.Run
open Manual Document

/-- Why a command line is refused. -/
inductive Rejection where
  | unknownArgument
  | invalidValue
  | conflict
  | tooManyValues
  deriving DecidableEq

/-- What ends the reading of a command line early. -/
inductive Halt where
  | rejected (reason : Rejection)
  | help
  | version
  deriving DecidableEq

/-- A place for one value. -/
inductive Slot where
  | input
  | output
  | title
  | format
  | tokenFile
  | nodeFile
  deriving DecidableEq

inductive Switch where
  | includePrivate
  | noRequiredHeuristic
  | listCommands
  deriving DecidableEq

/-- What an option name stands for. -/
inductive Named where
  | slot (slot : Slot)
  | switch (switch : Switch)
  | help
  | version
  deriving DecidableEq

def Named.ofLong? : String → Option Named
  | "output" => some (.slot .output)
  | "title" => some (.slot .title)
  | "format" => some (.slot .format)
  | "lex" => some (.slot .tokenFile)
  | "parse" => some (.slot .nodeFile)
  | "include-private" => some (.switch .includePrivate)
  | "no-required-heuristic" => some (.switch .noRequiredHeuristic)
  | "list-commands" => some (.switch .listCommands)
  | "help" => some .help
  | "version" => some .version
  | _ => none

def Named.ofShort? : Char → Option Named
  | 'o' => some (.slot .output)
  | 't' => some (.slot .title)
  | 'h' => some .help
  | 'V' => some .version
  | _ => none

def Format.ofWord? : String → Option Format
  | "markdown" => some .markdown
  | "json" => some .json
  | _ => none

/-- A title may be anything, a format is one of two words, and a path is not empty. -/
def Slot.admits : Slot → String → Bool
  | .title, _ => true
  | .format, value => (Format.ofWord? value).isSome
  | _, value => value != ""

/-- The shapes of a word. -/
inductive Word where
  | terminator
  | long (name : String) (value : Option String)
  | short (letters : List Char)
  | plain

def Word.ofString (word : String) : Word :=
  match word.toList with
  | ['-', '-'] => .terminator
  | '-' :: '-' :: r =>
      let value := match r.dropWhile (· != '=') with
        | _ :: v => some (String.ofList v)
        | [] => none
      .long (String.ofList (r.takeWhile (· != '='))) value
  | '-' :: c :: r => .short (c :: r)
  | _ => .plain

/-- The values and switches accepted so far. -/
structure Given where
  values : List (Slot × String)
  switches : List Switch
  deriving DecidableEq

def Given.empty : Given := ⟨[], []⟩

/-- Accepts a value. A missing one is reported first, then a second one for the same slot, then
one that the slot does not admit. -/
def Given.put (given : Given) (slot : Slot) (value : Option String) : Except Halt Given :=
  match value with
  | none => .error (.rejected .invalidValue)
  | some v =>
      if (given.values.lookup slot).isSome then .error (.rejected .conflict)
      else if slot.admits v then .ok { given with values := (slot, v) :: given.values }
      else .error (.rejected .invalidValue)

def Given.switchOn (given : Given) (switch : Switch) : Except Halt Given :=
  if switch ∈ given.switches then .error (.rejected .conflict)
  else .ok { given with switches := switch :: given.switches }

/-- The reading so far. `pending` is a slot whose value is not judged yet, and may still be
missing; `positional` says that a positional word has been met. -/
structure Progress where
  given : Given
  pending : Option (Slot × Option String)
  positional : Bool
  deriving DecidableEq

def Progress.start : Progress := ⟨.empty, none, false⟩

/-- Judges the pending value. -/
def Progress.settle (p : Progress) : Except Halt Given :=
  match p.pending with
  | none => .ok p.given
  | some (slot, value) => p.given.put slot value

/-- Goes on behind a settled value. -/
def Progress.resume (p : Progress) (given : Given) : Progress :=
  { p with given := given, pending := none }

def Progress.attach (p : Progress) (slot : Slot) (value : String) : Except Halt Progress :=
  (p.settle.bind fun given => given.put slot (some value)).map p.resume

def Progress.await (p : Progress) (slot : Slot) : Except Halt Progress :=
  p.settle.map fun given => { p with given := given, pending := some (slot, none) }

/-- Only one positional word is taken. -/
def Progress.takePositional (p : Progress) (word : String) : Except Halt Progress :=
  if p.positional then .error (.rejected .unknownArgument)
  else p.settle.map fun given => ⟨given, some (.input, some word), true⟩

/-- A named option with the value attached to it. Options unknown or with a value they do not
take are reported before anything pending. -/
def Progress.takeNamed (p : Progress) (named : Option Named) (value : Option String) :
    Except Halt Progress :=
  match named, value with
  | none, _ => .error (.rejected .unknownArgument)
  | some (.slot slot), some v => p.attach slot v
  | some (.slot slot), none => p.await slot
  | some _, some _ => .error (.rejected .tooManyValues)
  | some (.switch switch), none =>
      (p.settle.bind fun given => given.switchOn switch).map p.resume
  | some .help, none => p.settle.bind fun _ => .error .help
  | some .version, none => p.settle.bind fun _ => .error .version

/-- The value that the letters behind a short option are; one equals sign may stand first. -/
def attachedValue : List Char → Option String
  | [] => none
  | '=' :: r => some (String.ofList r)
  | r => some (String.ofList r)

/-- Short options written together. One that takes a value takes the rest of the word. -/
def Progress.takeShort (p : Progress) : List Char → Except Halt Progress
  | [] => .ok p
  | c :: r =>
      match Named.ofShort? c with
      | some (.slot slot) => p.takeNamed (some (.slot slot)) (attachedValue r)
      | named => (p.takeNamed named none).bind fun q => q.takeShort r

/-- A word that does not look like an option. -/
def Progress.takePlain (p : Progress) (word : String) : Except Halt Progress :=
  match p.pending with
  | some (slot, none) => .ok { p with pending := some (slot, some word) }
  | _ => p.takePositional word

/-- Reads words; behind a terminator every word is positional. -/
def Progress.read (p : Progress) (terminated : Bool) : List String → Except Halt Given
  | [] => p.settle
  | word :: words =>
      if terminated then (p.takePositional word).bind fun q => q.read true words
      else
        match Word.ofString word with
        | .terminator => p.read true words
        | .long name value =>
            (p.takeNamed (Named.ofLong? name) value).bind fun q => q.read false words
        | .short letters => (p.takeShort letters).bind fun q => q.read false words
        | .plain => (p.takePlain word).bind fun q => q.read false words

/-- The modes that are asked for. -/
def Given.modes (given : Given) : List Mode :=
  ((given.values.lookup .tokenFile).map Mode.tokens).toList ++
    ((given.values.lookup .nodeFile).map Mode.nodes).toList ++
    (if .listCommands ∈ given.switches then [.commandTable] else [])

/-- The settings; at most one mode may be asked for. -/
def Given.settings (given : Given) : Except Halt Settings :=
  let withMode (mode : Mode) : Settings :=
    { input := (given.values.lookup .input).getD "utils.cmake"
      output := (given.values.lookup .output).getD "docs.md"
      title := (given.values.lookup .title).getD defaultTitle
      format := ((given.values.lookup .format).bind Format.ofWord?).getD .markdown
      includePrivate := decide (.includePrivate ∈ given.switches)
      requiredness :=
        if .noRequiredHeuristic ∈ given.switches then .never else .byValidationCall
      mode }
  match given.modes with
  | [] => .ok (withMode .document)
  | [mode] => .ok (withMode mode)
  | _ => .error (.rejected .conflict)

/-- The settings that the words of a command line give. -/
def readArguments (words : List String) : Except Halt Settings :=
  (Progress.start.read false words).bind Given.settings

end CMakeManual.Run
