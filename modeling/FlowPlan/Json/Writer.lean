import FlowPlan.Json.Basic

/-!
Writing JSON text without any blanks.

Quotes, backslashes and control characters are escaped and every other character stands for
itself, so a value has exactly one written form.
-/

namespace FlowPlan
namespace Json

def hexDigit (n : Nat) : Char :=
  if n < 10 then Char.ofNat ('0'.toNat + n) else Char.ofNat ('a'.toNat + (n - 10))

/-- How one character is written between quotes. -/
def escapeChar (c : Char) : List Char :=
  if c = '"' then ['\\', '"']
  else if c = '\\' then ['\\', '\\']
  else if c = '\x08' then ['\\', 'b']
  else if c = '\x0c' then ['\\', 'f']
  else if c = '\n' then ['\\', 'n']
  else if c = '\r' then ['\\', 'r']
  else if c = '\t' then ['\\', 't']
  else if c.toNat < 0x20 then
    ['\\', 'u', '0', '0', hexDigit (c.toNat / 16), hexDigit (c.toNat % 16)]
  else [c]

/-- A string literal with its quotes.  The literal without a text is written as one half of a
surrogate pair, which is what reading it back finds again. -/
def writeText : JsonText → List Char
  | some s => '"' :: s.toList.flatMap escapeChar ++ ['"']
  | none => ['"', '\\', 'u', 'd', '8', '0', '0', '"']

def writeNumber (n : JsonNumber) : List Char :=
  (if n.negative then ['-'] else []) ++ n.whole
    ++ (match n.fraction with
      | some ds => '.' :: ds
      | none => [])
    ++ (match n.exponent with
      | some (true, ds) => 'e' :: '-' :: ds
      | some (false, ds) => 'e' :: ds
      | none => [])

mutual

def write : Json → List Char
  | null => ['n', 'u', 'l', 'l']
  | bool true => ['t', 'r', 'u', 'e']
  | bool false => ['f', 'a', 'l', 's', 'e']
  | number n => writeNumber n
  | text s => writeText s
  | array [] => ['[', ']']
  | array (v :: vs) => '[' :: v.write ++ writeItems vs
  | object [] => ['\x7b', '\x7d']
  | object ((k, v) :: ms) => '\x7b' :: writeText k ++ ':' :: v.write ++ writeMembers ms

/-- The items after the first one, each behind a comma, and the closing bracket. -/
def writeItems : List Json → List Char
  | [] => [']']
  | v :: vs => ',' :: v.write ++ writeItems vs

/-- The members after the first one, each behind a comma, and the closing brace. -/
def writeMembers : List (JsonText × Json) → List Char
  | [] => ['\x7d']
  | (k, v) :: ms => ',' :: writeText k ++ ':' :: v.write ++ writeMembers ms

end

def toText (v : Json) : String := String.ofList v.write

/-- The object with the given members. -/
def record (members : List (String × Json)) : Json :=
  object (members.map fun (k, v) => (some k, v))

def ofString (s : String) : Json := text (some s)

end Json
end FlowPlan
