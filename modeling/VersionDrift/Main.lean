import VersionDrift.CommandLine.Program

/-!
# The executable

Files of the machine take the place of a disk. Colours are used on a terminal unless
the environment says otherwise.
-/

set_option autoImplicit false

namespace VersionDrift.Executable

def ofNumber (n : UInt32) (e : IO.Error) : FileError :=
  if n = 20 then .notDirectory
  else if n = 21 then .isDirectory
  else if n = 36 then .nameTooLong
  else if n = 40 then .tooManyLinks
  else .failed e.toString.toList

def fileError (e : IO.Error) : FileError :=
  match e with
  | .noFileOrDirectory .. => .notFound
  | .inappropriateType _ n _ => ofNumber n e
  | .invalidArgument _ n _ => ofNumber n e
  | e => .failed e.toString.toList

def read (path : Text) : IO (Except FileError Text) := do
  if '\x00' ∈ path then return .error .nulInPath
  try
    return Disk.textOf (← IO.FS.readBinFile (String.ofList path))
  catch e => return .error (fileError e)

def nameTries : Nat := 1000

/-- A new file in a directory, under the first temporary name that is free. -/
def createTemporary (directory : Text) : (tries number : Nat) → IO (Text × IO.FS.Handle)
  | 0, _ => throw (.userError "no free name")
  | tries + 1, number => do
    let path := Path.join directory (Disk.temporaryName number)
    try
      return (path, ← IO.FS.Handle.mk (String.ofList path) .writeNew)
    catch
      | .alreadyExists .. => createTemporary directory tries (number + 1)
      | e => throw e

/-- The content goes to a temporary file beside the target, which then takes its place, so that
nobody reads a part of it. The mode of the target cannot be read here: the file gets that of a
new one. -/
def replace (path content : Text) : IO (Except FileError Unit) := do
  try
    let target ← IO.FS.realPath (String.ofList path)
    let directory := (target.parent.getD target).toString.toList
    let (temporary, handle) ← createTemporary directory nameTries 0
    try
      handle.write (String.ofList content).toUTF8
      handle.flush
      IO.FS.rename (String.ofList temporary) target
    catch e =>
      IO.FS.removeFile (String.ofList temporary)
      throw e
    return .ok ()
  catch e => return .error (fileError e)

def files : Files IO := ⟨read, replace⟩

def isColoured : IO Bool := do
  let forced ← IO.getEnv "CLICOLOR_FORCE"
  if forced.any (· ≠ "0") then return true
  if (← IO.getEnv "NO_COLOR").isSome then return false
  let wanted := (← IO.getEnv "CLICOLOR").all (· ≠ "0")
  return wanted && (← (← IO.getStdout).isTty)

def run (words : List Text) : IO Answer := do
  let workDir := (← IO.currentDir).toString.toList
  Program.answer files workDir words

end VersionDrift.Executable

def main (words : List String) : IO UInt32 := do
  let coloured ← VersionDrift.Executable.isColoured
  let a ← VersionDrift.Executable.run (words.map String.toList)
  (← IO.getStdout).putStr (String.ofList (a.output coloured))
  (← IO.getStderr).putStr (String.ofList (a.errorOutput coloured))
  return UInt32.ofNat a.exitCode
