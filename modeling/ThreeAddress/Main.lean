import ThreeAddress.Command.Run

/-!
# The command line

Runs the commands on the files of the system.
-/

namespace ThreeAddress.Main

/-- The number by which a system says that a path is a directory. -/
def isDirectoryCode : UInt32 := 21

/-- The number by which a system says that a name is too long. -/
def tooLongCode : UInt32 := 36

/-- The file error that a failure of the system amounts to. Only the content of
a directory is refused after it has been opened. -/
def fileError (access : Access) (path : String) (e : IO.Error) : FileError :=
  match e with
  | .noFileOrDirectory .. => ⟨.opening, path, .absent⟩
  | .inappropriateType _ code _ =>
    if code = isDirectoryCode then ⟨access, path, .directory⟩
    else ⟨.opening, path, .notDirectory⟩
  | .invalidArgument _ code _ =>
    -- the number comes with either sign
    if code = tooLongCode ∨ -code = tooLongCode then ⟨.opening, path, .tooLong⟩
    else ⟨.opening, path, .invalid⟩
  | .permissionDenied .. => ⟨.opening, path, .other "permission denied"⟩
  | e => ⟨access, path, .other (toString e)⟩

/-- The file system of the machine. -/
def system : Files IO where
  read path := do
    try
      return .ok (← IO.FS.readBinFile path).data.toList
    catch e => return .error (fileError .reading path e)
  write path text := do
    try
      IO.FS.writeFile path text
      return .ok ()
    catch e => return .error (fileError .opening path e)

end ThreeAddress.Main

open ThreeAddress in
def main (args : List String) : IO UInt32 := do
  let report ← Command.run Main.system args
  (← IO.getStdout).putStr report.stdout
  (← IO.getStderr).putStr report.stderr
  return report.exitCode
