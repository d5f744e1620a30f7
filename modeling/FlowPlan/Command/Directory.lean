import FlowPlan.Command.Path

/-!
A working directory kept in memory.

A path is followed name by name.  Every name but the last has to lead to a directory, also where
the next name leads back out of it, so `nowhere/..` leads nowhere.  Only the last name may be new,
and only if no slash behind it asks for a directory.
-/

namespace FlowPlan
namespace Command

/-- The working directory and what is around it, as far as it is known. -/
structure Directory where
  files : List (Place × ByteArray)

namespace Directory

def empty : Directory := ⟨[]⟩

/-- The working directory with the files that are given by their paths. -/
def ofList (files : List (String × ByteArray)) : Directory :=
  ⟨files.filterMap fun (path, content) =>
    match Path.ofString path with
    | .ok p => some (⟨p.start.anchor, p.names.filter (· ≠ ".")⟩, content)
    | .error _ => none⟩

inductive Entry
  | file (content : ByteArray)
  | directory
  /-- Nothing can be read from it, and nothing written to it stays. -/
  | nullDevice

/-- The directories that a system has below its root. -/
def systemDirectories : List String :=
  ["bin", "dev", "etc", "home", "lib", "media", "mnt", "opt", "root", "run", "sbin", "srv", "tmp",
    "usr", "var"]

/-- What is known without looking: of the places around the working directory, only these. -/
def wellKnown (p : Place) : Option Entry :=
  match p.anchor, p.names with
  | .root, [name] => if systemDirectories.contains name then some .directory else none
  | .root, ["dev", "null"] => some .nullDevice
  | _, _ => none

/-- What is at a place, if there is anything. -/
def find (d : Directory) (p : Place) : Except FileError (Option Entry) :=
  if p.isTooLong then .error .nameTooLong
  else match d.files.lookup p with
    | some content => .ok (some (.file content))
    | none =>
      if p.names.isEmpty || d.files.any (fun (q, _) => q.isBelow p) then .ok (some .directory)
      else .ok (wellKnown p)

/-- Go along names that have to lead to directories. -/
def enter (d : Directory) (p : Place) : List String → Except FileError Place
  | [] => .ok p
  | name :: names => do
    match ← d.find (p.step name) with
    | some .directory => d.enter (p.step name) names
    | some _ => .error .notADirectory
    | none => .error .notFound

/-- Where a path leads, provided that all names before the last one lead to directories. -/
def locate (d : Directory) (path : Path) : Except FileError Place := do
  let p ← d.enter path.start path.names.dropLast
  match path.names.getLast? with
  | some name => return p.step name
  | none => return p

def read (d : Directory) (path : String) : Except FileError String := do
  let path ← Path.ofString path
  match ← d.find (← d.locate path) with
  | none => .error .notFound
  | some .directory => .error .isADirectory
  | some (.file content) =>
    if path.endsInSlash then .error .notADirectory
    else match String.fromUTF8? content with
      | some text => .ok text
      | none => .error .notText
  | some .nullDevice => if path.endsInSlash then .error .notADirectory else .ok ""

/-- Replace the file at a place, or add it. -/
def put (d : Directory) (p : Place) (content : ByteArray) : Directory :=
  ⟨(p, content) :: d.files.filter (·.1 ≠ p)⟩

/-- A name with a slash behind it is refused before anybody looks what is there. -/
def write (d : Directory) (path : String) (text : String) : Except FileError Directory := do
  let path ← Path.ofString path
  let p ← d.locate path
  if path.endsInName && path.endsInSlash then .error .isADirectory
  else match ← d.find p with
    | some .directory => .error .isADirectory
    | some .nullDevice => .ok d
    | _ => .ok (d.put p text.toUTF8)

/-- The files of a directory that is passed along. -/
def access : Files (StateM Directory) :=
  { read := fun path => return (← get).read path,
    write := fun path text => do
      match (← get).write path text with
      | .ok d => set d; return .ok ()
      | .error e => return .error e }

end Directory
end Command
end FlowPlan
