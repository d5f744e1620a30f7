import FlowPlan.Command.Files

/-!
Paths to files, and the places they lead to.

A path sets out from the working directory or from the root and goes on name by name, where `.`
stays in a directory and `..` goes back to the one around it.  `Path` keeps these two names, because
what stands before them still has to be a directory.
-/

namespace FlowPlan
namespace Command

/-- Directories that are known without their names. -/
inductive Anchor
  | root
  /-- So many levels above the working directory. -/
  | above (levels : Nat)
deriving DecidableEq, Repr

/-- A place in the tree of directories, by the names that lead down to it. -/
structure Place where
  anchor : Anchor
  names : List String
deriving DecidableEq, Repr

namespace Place

def root : Place := ⟨.root, []⟩

def workingDirectory : Place := ⟨.above 0, []⟩

def child (p : Place) (name : String) : Place := ⟨p.anchor, p.names ++ [name]⟩

/-- The directory around a place.  The root is the one around itself. -/
def parent (p : Place) : Place :=
  match p.anchor, p.names with
  | .root, [] => p
  | .above levels, [] => ⟨.above (levels + 1), []⟩
  | anchor, names => ⟨anchor, names.dropLast⟩

/-- Where a name leads from a directory. -/
def step (p : Place) (name : String) : Place :=
  if name = "." then p else if name = ".." then p.parent else p.child name

/-- A place is below another one if it takes further names to get there. -/
def isBelow (p q : Place) : Bool :=
  p.anchor = q.anchor && q.names.isPrefixOf p.names && q.names.length < p.names.length

/-- A name may have 255 bytes. -/
def isTooLong (p : Place) : Bool := p.names.any fun name => 255 < name.utf8ByteSize

end Place

/-- A path as it is written: where it sets out and the names along it. -/
structure Path where
  start : Place
  names : List String
  /-- A slash behind the last name asks for a directory. -/
  endsInSlash : Bool

namespace Path

/-- A path may have 4095 bytes, and several slashes count as one. -/
def ofString (path : String) : Except FileError Path :=
  let cs := path.toList
  if cs.isEmpty then .error .notFound
  else if 4095 < path.utf8ByteSize then .error .nameTooLong
  else .ok
    { start := if cs.head? = some '/' then .root else .workingDirectory,
      names := ((cs.splitOn '/').map String.ofList).filter (· ≠ ""),
      endsInSlash := cs.getLast? = some '/' }

/-- The last name is a proper one, which a file can have. -/
def endsInName (path : Path) : Bool :=
  match path.names.getLast? with
  | some name => name ≠ "." && name ≠ ".."
  | none => false

end Path

end Command
end FlowPlan
