import FlowPlan.Json.Basic

/-!
Reading typed data out of a JSON value.

A record is written either as an object, in any order of its members, or as the array of its
fields in their order of declaration.  Whether an object may have members that the record does not
declare is up to the record; a declared one may never be repeated.
-/

namespace FlowPlan
namespace Json

def text? : Json → Option String
  | text s => s
  | _ => none

def bool? : Json → Option Bool
  | bool b => some b
  | _ => none

def items? : Json → Option (List Json)
  | array vs => some vs
  | _ => none

/-- A list all of whose items can be decoded. -/
def list? {α : Type} (decode : Json → Option α) (v : Json) : Option (List α) := do
  (← v.items?).mapM decode

/-- A value or `null`. -/
def nullable? {α : Type} (decode : Json → Option α) : Json → Option (Option α)
  | null => some none
  | v => (decode v).map some

/-- A field that may be absent. -/
def optional? {α : Type} (decode : Json → Option α) (default : α) : Option Json → Option α
  | none => some default
  | some v => decode v

/-- A field that has to be there. -/
def required? {α : Type} (decode : Json → Option α) : Option Json → Option α
  | none => none
  | some v => decode v

/-- What an object does with members that are not declared. -/
inductive Extra
  | refused
  | ignored
deriving DecidableEq, Repr

/-- The values of the declared fields among the members of an object. -/
def fieldsOfMembers? (extra : Extra) (names : List String) (members : List (JsonText × Json)) :
    Option (List (Option Json)) := do
  let keys ← members.mapM (·.1)
  let known := keys.filter (names.contains ·)
  if extra = .refused ∧ known.length ≠ keys.length then none
  else if known.eraseDups.length ≠ known.length then none
  else return names.map fun n => (members.find? (·.1 = some n)).map (·.2)

/-- The values of the declared fields in an array of them; the last ones may be missing. -/
def fieldsOfItems? (names : List String) (items : List Json) : Option (List (Option Json)) :=
  if items.length ≤ names.length then
    some (items.map some ++ List.replicate (names.length - items.length) none)
  else none

/-- The values of the declared fields, `none` for those that are absent. -/
def fields? (extra : Extra) (names : List String) : Json → Option (List (Option Json))
  | object members => fieldsOfMembers? extra names members
  | array items => fieldsOfItems? names items
  | _ => none

/-- One of several names, written as a string or as an object with `null` under the name. -/
def choice? {α : Type} (decode : String → Option α) : Json → Option α
  | text (some s) => decode s
  | object [(some s, null)] => decode s
  | _ => none

end Json
end FlowPlan
