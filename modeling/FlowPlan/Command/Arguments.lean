/-!
The arguments of the command line.

Arguments are read from left to right, and the first one that cannot be understood ends the
reading, as does a request for the version or for help.  Every option but the list of processors
may be given once.
-/

namespace FlowPlan
namespace Command

/-- What to write when a compilation succeeds. -/
inductive Emit
  | plan
  | flowDot
  | stageDot
  | buildInfo
deriving DecidableEq, Repr

namespace Emit

def name : Emit → String
  | plan => "plan"
  | flowDot => "flow-dot"
  | stageDot => "stage-dot"
  | buildInfo => "build-info"

def ofName? (s : String) : Option Emit := [plan, flowDot, stageDot, buildInfo].find? (·.name = s)

end Emit

structure Arguments where
  manifest : String
  processors : List String
  emit : Emit
  output : Option String
  sequential : Bool
  verbose : Bool
deriving DecidableEq, Repr

inductive Request
  | compile (arguments : Arguments)
  | version
  | help
deriving DecidableEq, Repr

inductive UsageError
  | unexpected (argument : String)
  | missingValue (option : String)
  | invalidValue (option value : String)
  | repeated (option : String)
  | needlessValue (option : String)
  | missingManifest
deriving DecidableEq, Repr

namespace UsageError

def message : UsageError → String
  | unexpected argument => s!"error: unexpected argument '{argument}'"
  | missingValue option => s!"error: a value is required for '{option}'"
  | invalidValue option value => s!"error: invalid value '{value}' for '{option}'"
  | repeated option => s!"error: '{option}' cannot be used multiple times"
  | needlessValue option => s!"error: '{option}' takes no value"
  | missingManifest => "error: the manifest is missing"

end UsageError

/-- What has been read so far. -/
structure Reading where
  manifest : Option String
  processors : List String
  emit : Option Emit
  output : Option String
  sequential : Bool
  verbose : Bool
deriving DecidableEq, Repr

namespace Reading

def start : Reading :=
  { manifest := none, processors := [], emit := none, output := none, sequential := false,
    verbose := false }

/-- The manifest is the only argument without a name. -/
def takeManifest (r : Reading) (value : String) : Except UsageError Reading :=
  if r.manifest.isSome then .error (.unexpected value)
  else if value.isEmpty then .error (.invalidValue "manifest" value)
  else .ok { r with manifest := some value }

def takeProcessors (r : Reading) (value : String) : Except UsageError Reading :=
  if value.isEmpty then .error (.invalidValue "--processors" value)
  else .ok { r with processors := r.processors ++ [value] }

def takeEmit (r : Reading) (value : String) : Except UsageError Reading :=
  match Emit.ofName? value with
  | none => .error (.invalidValue "--emit" value)
  | some e => if r.emit.isSome then .error (.repeated "--emit") else .ok { r with emit := some e }

def takeOutput (r : Reading) (value : String) : Except UsageError Reading :=
  if value.isEmpty then .error (.invalidValue "--output" value)
  else if r.output.isSome then .error (.repeated "--output")
  else .ok { r with output := some value }

def takeSequential (r : Reading) : Except UsageError Reading :=
  if r.sequential then .error (.repeated "--sequential") else .ok { r with sequential := true }

def takeVerbose (r : Reading) : Except UsageError Reading :=
  if r.verbose then .error (.repeated "--verbose") else .ok { r with verbose := true }

def finish (r : Reading) : Except UsageError Request :=
  match r.manifest with
  | none => .error .missingManifest
  | some manifest =>
    .ok (.compile
      { manifest, processors := r.processors, emit := r.emit.getD .plan, output := r.output,
        sequential := r.sequential, verbose := r.verbose })

end Reading

/-- One argument, by its outer form. -/
inductive Shape
  | value (s : String)
  | long (name : String) (attached : Option String)
  | short (name : Char) (attached : Option String)
  /-- Everything behind it is a value. -/
  | separator
deriving DecidableEq, Repr

/-- A name and what is attached to it by an equals sign. -/
def splitAttached (cs : List Char) : String × Option String :=
  match cs.dropWhile (· ≠ '=') with
  | [] => (String.ofList cs, none)
  | _ :: value => (String.ofList (cs.takeWhile (· ≠ '=')), some (String.ofList value))

/-- A lone dash is a value. -/
def shapeOf (argument : String) : Shape :=
  match argument.toList with
  | ['-', '-'] => .separator
  | '-' :: '-' :: cs => let (name, attached) := splitAttached cs; .long name attached
  | '-' :: c :: '=' :: cs => .short c (some (String.ofList cs))
  | ['-', c] => .short c none
  | '-' :: c :: cs => .short c (some (String.ofList cs))
  | _ => .value argument

/-- The options that take a value, by what becomes of it. -/
def valueOption? : Shape → Option ((Reading → String → Except UsageError Reading) × Option String)
  | .long "processors" attached => some (Reading.takeProcessors, attached)
  | .long "emit" attached => some (Reading.takeEmit, attached)
  | .long "output" attached => some (Reading.takeOutput, attached)
  | .short 'o' attached => some (Reading.takeOutput, attached)
  | _ => none

def readArguments (r : Reading) : List String → Except UsageError Request
  | [] => r.finish
  | argument :: rest =>
    let shape := shapeOf argument
    match valueOption? shape with
    | some (take, some value) => do readArguments (← take r value) rest
    | some (take, none) =>
      match rest with
      | [] => .error (.missingValue argument)
      | value :: rest =>
        match shapeOf value with
        | .value _ => do readArguments (← take r value) rest
        | _ => .error (.missingValue argument)
    | none =>
      match shape with
      | .separator => do (← rest.foldlM Reading.takeManifest r).finish
      | .value value => do readArguments (← r.takeManifest value) rest
      | .long "sequential" none => do readArguments (← r.takeSequential) rest
      | .long "verbose" none => do readArguments (← r.takeVerbose) rest
      | .long "sequential" (some _) => .error (.needlessValue argument)
      | .long "verbose" (some _) => .error (.needlessValue argument)
      | .long "version" (some _) => .error (.needlessValue argument)
      | .long "help" (some _) => .error (.needlessValue argument)
      | .long "version" none => .ok .version
      | .long "help" none => .ok .help
      | .short 'V' _ => .ok .version
      | .short 'h' _ => .ok .help
      | _ => .error (.unexpected argument)

/-- What a command line asks for. -/
def request (arguments : List String) : Except UsageError Request :=
  readArguments .start arguments

end Command
end FlowPlan
