import FlowPlan.Catalog
import FlowPlan.Json.Decode
import FlowPlan.Json.Reader
import FlowPlan.Json.Writer

/-!
Data classes: the ordered, typed properties behind a data type's name.

Shuffle keys are resolved here by the name of a property; nothing else in the planner looks inside
a record.
-/

namespace FlowPlan

inductive PropertyType
  | boolean
  | byte
  | short
  | int
  | long
  | float
  | double
  | decimal
  | text
  | date
  | dateTime
deriving DecidableEq, Repr

namespace PropertyType

def all : List PropertyType :=
  [boolean, byte, short, int, long, float, double, decimal, text, date, dateTime]

def name : PropertyType → String
  | boolean => "boolean"
  | byte => "byte"
  | short => "short"
  | int => "int"
  | long => "long"
  | float => "float"
  | double => "double"
  | decimal => "decimal"
  | text => "text"
  | date => "date"
  | dateTime => "date_time"

def ofName? (s : String) : Option PropertyType := all.find? (·.name = s)

end PropertyType

structure Property where
  name : String
  type : PropertyType
deriving DecidableEq, Repr

namespace Property

def toJson (p : Property) : Json :=
  .record [("name", .ofString p.name), ("type", .ofString p.type.name)]

def ofJson? (v : Json) : Option Property := do
  match ← v.fields? .ignored ["name", "type"] with
  | [name, type] =>
    return { name := ← Json.required? Json.text? name,
             type := ← Json.required? (Json.choice? PropertyType.ofName?) type }
  | _ => none

end Property

/-- A class keeps its properties in the order of their declaration. -/
structure DataClass where
  name : String
  properties : List Property
deriving DecidableEq, Repr

instance : Named DataClass := ⟨DataClass.name⟩

namespace DataClass

/-- The first property of that name. -/
def findProperty? (c : DataClass) (name : String) : Option Property :=
  c.properties.find? (·.name == name)

def toJson (c : DataClass) : Json :=
  .record [("name", .ofString c.name), ("properties", .array (c.properties.map Property.toJson))]

def ofJson? (v : Json) : Option DataClass := do
  match ← v.fields? .ignored ["name", "properties"] with
  | [name, properties] =>
    return { name := ← Json.required? Json.text? name,
             properties := ← Json.required? (Json.list? Property.ofJson?) properties }
  | _ => none

end DataClass

inductive DataModelError
  | duplicate (name : String)
  | malformed
deriving DecidableEq, Repr

namespace DataModelError

def message : DataModelError → String
  | duplicate name => s!"data class `{name}` is defined more than once"
  | malformed => "invalid data class manifest: not a list of data classes"

end DataModelError

abbrev DataClassRegistry := Catalog DataClass

namespace DataClassRegistry

def register (r : DataClassRegistry) (c : DataClass) : Except DataModelError DataClassRegistry :=
  match r.insert? c with
  | some r => .ok r
  | none => .error (.duplicate c.name)

def ofClasses (cs : List DataClass) : Except DataModelError DataClassRegistry :=
  cs.foldlM register Catalog.empty

/-- The classes that a JSON array lists. -/
def decode? (source : String) : Option (List DataClass) := do
  (← Json.parse? source).list? DataClass.ofJson?

def ofJson (source : String) : Except DataModelError DataClassRegistry :=
  match decode? source with
  | none => .error .malformed
  | some cs => ofClasses cs

/-- The text that stands for a registry in fingerprints. -/
def canonicalJson (r : DataClassRegistry) : String :=
  (Json.array (r.entries.map DataClass.toJson)).toText

end DataClassRegistry
end FlowPlan
