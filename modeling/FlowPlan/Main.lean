import FlowPlan.Command.Run

/-!
The command as a program: files are those of the operating system.
-/

namespace FlowPlan
namespace Command

/-- The error that the operating system reports, as the command names it. -/
def fileError (e : IO.Error) : FileError :=
  match e with
  | .noFileOrDirectory .. => .notFound
  | .inappropriateType _ 20 _ => .notADirectory
  | .inappropriateType .. => .isADirectory
  | .invalidArgument _ 36 _ => .nameTooLong
  | e => .other (toString e)

def systemFiles : Files IO :=
  { read := fun path => do
      try
        match String.fromUTF8? (← IO.FS.readBinFile path) with
        | some text => return .ok text
        | none => return .error .notText
      catch e => return .error (fileError e),
    write := fun path text => do
      try
        IO.FS.writeFile path text
        return .ok ()
      catch e => return .error (fileError e) }

end Command
end FlowPlan

def main (arguments : List String) : IO UInt32 := do
  let response ← FlowPlan.Command.run FlowPlan.Command.systemFiles arguments
  IO.print response.out
  IO.eprint response.err
  return UInt32.ofNat response.code
