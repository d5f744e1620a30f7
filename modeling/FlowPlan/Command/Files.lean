/-!
Files as the command sees them.

A file is read as a whole and has to hold text; an output file is written as a whole.  What can go
wrong is named the way operating systems name it.
-/

namespace FlowPlan
namespace Command

inductive FileError
  | notFound
  | notADirectory
  | isADirectory
  | nameTooLong
  | notText
  | other (description : String)
deriving DecidableEq, Repr

namespace FileError

def message : FileError → String
  | notFound => "No such file or directory (os error 2)"
  | notADirectory => "Not a directory (os error 20)"
  | isADirectory => "Is a directory (os error 21)"
  | nameTooLong => "File name too long (os error 36)"
  | notText => "stream did not contain valid UTF-8"
  | other description => description

end FileError

/-- How a command gets at files. -/
structure Files (m : Type → Type) where
  read : String → m (Except FileError String)
  write : String → String → m (Except FileError Unit)

end Command
end FlowPlan
