import CMakeManual.Run.Program

/-! The command line tool: reads and writes the files that a run asks for. -/
namespace CMakeManual.Run

/-- What an error of the file system says about a path; other errors are passed on. -/
def pathFault? : IO.Error → Option PathFault
  | .noFileOrDirectory .. => some .notFound
  | .inappropriateType _ code _ =>
      if code = 20 then some .notADirectory
      else if code = 21 then some .isADirectory
      else none
  | _ => none

def tryPath {α : Type} (action : IO α) : IO (Except PathFault α) := do
  try
    return .ok (← action)
  catch e =>
    match pathFault? e with
    | some fault => return .error fault
    | none => throw e

def readSource (path : String) : IO (Except Failure String) := do
  match ← tryPath (IO.FS.readBinFile path) with
  | .ok content => return sourceText path content
  | .error .isADirectory => return .error (.cannotRead path .isADirectory)
  | .error fault => return .error (.cannotAccess path fault)

def reportFailure (failure : Failure) : IO UInt32 := do
  IO.eprintln failure.message
  return failure.exitCode.toUInt32

def perform (settings : Settings) (threshold : Option LogLevel) : IO UInt32 := do
  let source ← match settings.sourceFile? with
    | some path => readSource path
    | none => pure (.ok "")
  let reply := settings.reply source
  for line in logLines threshold reply.records do
    IO.eprintln line
  match reply.result with
  | .error failure => reportFailure failure
  | .ok (.printed text) =>
      IO.print text
      return 0
  | .ok (.written text) =>
      match ← tryPath (IO.FS.writeFile settings.output text) with
      | .error fault => reportFailure (.cannotWrite settings.output fault)
      | .ok () =>
          IO.print (successLine settings.output)
          return 0

/-- Carries out a command line. -/
def command (words : List String) : IO UInt32 := do
  let threshold := match ← IO.getEnv "RUST_LOG" with
    | some word => LogLevel.ofWord? word
    | none => some .info
  match readArguments words with
  | .error (.rejected reason) => reportFailure (.usage reason)
  | .error .help =>
      IO.print helpText
      return 0
  | .error .version =>
      IO.print versionLine
      return 0
  | .ok settings => perform settings threshold

end CMakeManual.Run

def main (words : List String) : IO UInt32 := CMakeManual.Run.command words
