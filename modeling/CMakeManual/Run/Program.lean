import CMakeManual.Manual.Analysis
import CMakeManual.Document.CommandTable
import CMakeManual.Document.Json
import CMakeManual.Document.Listing
import CMakeManual.Document.Markdown
import CMakeManual.Run.Arguments
import CMakeManual.Run.FileTree
import CMakeManual.Run.Log

/-! Whole runs: a command line and a tree of files in, an exit code, the printed text and the
tree afterwards out. -/
namespace CMakeManual.Run
open Text Script Manual Document

/-- The largest source file that is read, in bytes. -/
def sourceSizeLimit : Nat := 100 * 1024 * 1024

inductive Failure where
  | usage (reason : Rejection)
  | cannotAccess (path : String) (fault : PathFault)
  | tooLarge (path : String) (size : Nat)
  | cannotRead (path : String) (fault : PathFault)
  | notText (path : String)
  | faulty (path : String) (faults : List Fault)
  | cannotWrite (path : String) (fault : PathFault)
  deriving DecidableEq

def Failure.exitCode : Failure → Nat
  | .usage _ => 2
  | _ => 1

def Rejection.message : Rejection → String
  | .unknownArgument => "unexpected argument"
  | .invalidValue => "missing or invalid value"
  | .conflict => "an argument is given twice or with another that excludes it"
  | .tooManyValues => "a value is given to an argument that takes none"

def Failure.message : Failure → String
  | .usage reason => "error: " ++ reason.message
  | .cannotAccess path fault => "Cannot access file '" ++ path ++ "': " ++ fault.message
  | .tooLarge path size =>
      "Source file '" ++ path ++ "' is too large (" ++ decimal size ++ " bytes, max " ++
        decimal sourceSizeLimit ++ " bytes)"
  | .cannotRead path fault => "Error reading file '" ++ path ++ "': " ++ fault.message
  | .notText path => "Error reading file '" ++ path ++ "': stream did not contain valid UTF-8"
  | .faulty path faults =>
      let line (f : Fault) := path ++ ":" ++ decimal f.line ++ ": " ++ f.cause.message
      "\n".intercalate (faults.map line)
  | .cannotWrite path fault => "Error writing '" ++ path ++ "': " ++ fault.message

/-- The text in a file's content. Its size is checked first. -/
def sourceText (path : String) (content : ByteArray) : Except Failure String :=
  if sourceSizeLimit < content.size then .error (.tooLarge path content.size)
  else
    match String.fromUTF8? content with
    | some text => .ok text
    | none => .error (.notText path)

/-- The text of a source file. -/
def FileTree.source (tree : FileTree) (path : String) : Except Failure String :=
  match tree.find path with
  | .error fault => .error (.cannotAccess path fault)
  | .ok .directory => .error (.cannotRead path .isADirectory)
  | .ok (.file content) => sourceText path content

/-- The name that a document gives its source: the last name of the path, or the path if its last
component is none. -/
def displayName (path : String) : String :=
  match ((components path).filter fun name => name != "" && name != ".").getLast? with
  | some name => if name == ".." then path else name
  | none => path

/-- What a run has to say once its source is read: something to print, or a document to write. -/
inductive Product where
  | printed (text : String)
  | written (text : String)
  deriving DecidableEq

structure Reply where
  records : List LogRecord
  result : Except Failure Product

/-- The document for a script. -/
def Settings.document (settings : Settings) (nodes : List Node) : String :=
  let found := callables settings.requiredness nodes
  match settings.format with
  | .markdown => markdown settings.style (displayName settings.input) found
  | .json => json found

/-- Everything that is logged about the nodes of a script. -/
def Settings.nodeRecords (settings : Settings) (nodes : List Node) : List LogRecord :=
  (events settings.requiredness nodes).map (eventRecord nodes.length) ++
    if (callables settings.requiredness nodes).isEmpty then
      [inputRecord .warn "no functions or macros found" settings.input]
    else []

def documentReply (settings : Settings) (source : Except Failure String) : Reply :=
  let reading := inputRecord .info "reading" settings.input
  match source with
  | .error failure => ⟨[reading], .error failure⟩
  | .ok text =>
      match readScript text with
      | .error faults => ⟨[reading], .error (.faulty settings.input faults)⟩
      | .ok nodes =>
          ⟨reading :: settings.nodeRecords nodes, .ok (.written (settings.document nodes))⟩

/-- Prints what `read` makes of the source. -/
def listingReply {α : Type} (path : String) (source : Except Failure String)
    (read : String → Except (List Fault) α) (listing : α → String) : Reply :=
  let result := source.bind fun text =>
    match read text with
    | .error faults => .error (.faulty path faults)
    | .ok value => .ok (.printed (listing value))
  ⟨[], result⟩

/-- The reply to settings, given what reading their source file gave. -/
def Settings.reply (settings : Settings) (source : Except Failure String) : Reply :=
  match settings.mode with
  | .document => documentReply settings source
  | .tokens file => listingReply file source scan tokenListing
  | .nodes file => listingReply file source readScript nodeListing
  | .commandTable => ⟨[], .ok (.printed commandTable)⟩

def successLine (path : String) : String := "Success! Output saved to: " ++ path ++ "\n"

def versionLine : String := "cmakedoc 0.1.0\n"

def helpText : String :=
  "Generate Markdown docs from CMake functions/macros (GitHub-friendly)\n\n" ++
    "Usage: cmakedoc [OPTIONS] [INPUT]\n"

/-- What a run leaves behind. -/
structure Outcome where
  exitCode : Nat
  printed : String
  log : List String
  failure : Option Failure
  files : FileTree

def Outcome.success (printed : String) (log : List String) (files : FileTree) : Outcome :=
  ⟨0, printed, log, none, files⟩

/-- A failed run prints nothing and changes nothing. -/
def Outcome.failed (failure : Failure) (log : List String) (files : FileTree) : Outcome :=
  ⟨failure.exitCode, "", log, some failure, files⟩

/-- Carries out a reply on a tree. -/
def Reply.carryOut (reply : Reply) (settings : Settings) (threshold : Option LogLevel)
    (tree : FileTree) : Outcome :=
  let log := logLines threshold reply.records
  match reply.result with
  | .error failure => .failed failure log tree
  | .ok (.printed text) => .success text log tree
  | .ok (.written text) =>
      match tree.write settings.output text with
      | .error fault => .failed (.cannotWrite settings.output fault) log tree
      | .ok files => .success (successLine settings.output) log files

/-- A whole run. -/
def run (words : List String) (threshold : Option LogLevel) (tree : FileTree) : Outcome :=
  match readArguments words with
  | .error (.rejected reason) => .failed (.usage reason) [] tree
  | .error .help => .success helpText [] tree
  | .error .version => .success versionLine [] tree
  | .ok settings =>
      let source := (settings.sourceFile?.map tree.source).getD (.ok "")
      (settings.reply source).carryOut settings threshold tree

end CMakeManual.Run
