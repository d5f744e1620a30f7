import FlowPlan.Json.Number

/-!
JSON values as they are written.

A document may hold values that nobody reads, and such a value has to be well formed but need not
mean anything: its strings may contain half of a surrogate pair, its numbers may exceed every
floating-point number, and it may be nested to any depth.  The tree therefore records these flaws
in place of rejecting them, and `Json.isReadable` says where a value is free of them.
-/

namespace FlowPlan

/-- The characters of a string literal, or `none` where an escape names half of a surrogate pair
without its other half: such a literal is well formed and denotes no text. -/
abbrev JsonText := Option String

inductive Json
  | null
  | bool (b : Bool)
  | number (n : JsonNumber)
  | text (s : JsonText)
  | array (items : List Json)
  | object (members : List (JsonText × Json))

namespace Json

mutual

/-- How many arrays and objects are nested in each other. -/
def nesting : Json → Nat
  | array items => nestingItems items + 1
  | object members => nestingMembers members + 1
  | _ => 0

def nestingItems : List Json → Nat
  | [] => 0
  | v :: vs => max v.nesting (nestingItems vs)

def nestingMembers : List (JsonText × Json) → Nat
  | [] => 0
  | (_, v) :: ms => max v.nesting (nestingMembers ms)

end

mutual

/-- All strings have a text and all numbers are finite. -/
def isReadable : Json → Bool
  | number n => n.isFinite
  | text s => s.isSome
  | array items => areReadableItems items
  | object members => areReadableMembers members
  | _ => true

def areReadableItems : List Json → Bool
  | [] => true
  | v :: vs => v.isReadable && areReadableItems vs

def areReadableMembers : List (JsonText × Json) → Bool
  | [] => true
  | (k, v) :: ms => k.isSome && v.isReadable && areReadableMembers ms

end

end Json
end FlowPlan
