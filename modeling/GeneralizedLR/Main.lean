import GeneralizedLR.CommandLine.Report

/-!
The program: arguments come from the command line, files from the disk, and the answer goes to the
streams.
-/

set_option autoImplicit false
set_option relaxedAutoImplicit false

namespace GeneralizedLR.CommandLine

/-- Why the system could not read a file. A directory can be opened; reading it then fails with code
21. -/
def FileError.ofSystem : IO.Error → FileError
  | .noFileOrDirectory .. => .notFound
  | .permissionDenied .. => .denied
  | .inappropriateType _ code _ => if code = 21 then .isADirectory else .notADirectory
  | .invalidArgument .. => .nameTooLong
  | error => .other (toString error)

def readFile (path : String) : IO (Except FileError String) := do
  match ← (IO.FS.readBinFile path).toBaseIO with
  | .ok bytes =>
    match String.fromUTF8? bytes with
    | some text => return .ok text
    | none => return .error .notText
  | .error error => return .error (.ofSystem error)

end GeneralizedLR.CommandLine

open GeneralizedLR.CommandLine in
def main (arguments : List String) : IO UInt32 := do
  let request := Request.ofArguments arguments
  let content ← match request with
    | .evaluate (some (.file path)) _ _ => readFile path
    | _ => pure (.error .notFound)
  let output := respond (fun _ => content) request
  IO.print output.out
  IO.eprint output.err
  return output.code.toUInt32
