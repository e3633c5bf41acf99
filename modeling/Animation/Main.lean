import Animation.CommandLine.Run

/-!
The program on a real file system. All of its decisions are made by
`CommandLine.run`; here files are read and lines are printed.
-/

open Animation CommandLine

/-- The content of a file, or nothing but the reason why there is none. -/
def readFile (path : String) : IO (Except FileFault ByteArray) := do
  try
    return .ok (← IO.FS.readBinFile path)
  catch
    | .noFileOrDirectory .. => return .error .notFound
    | .inappropriateType .. => return .error .isDirectory
    | error => return .error (.other (toString error))

def main (arguments : List String) : IO UInt32 := do
  let request := readArguments arguments
  let content ←
    match request.toOption.bind Request.path? with
    | some path => readFile path
    | none => pure (.error .notFound)
  let outcome := run (fun _ => content) arguments
  for line in outcome.errors do
    IO.eprintln line
  for line in outcome.output do
    IO.println line
  return outcome.code
