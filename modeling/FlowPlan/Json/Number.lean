import FlowPlan.Rounding

/-!
Numbers as they are written in JSON, and which of them are too large to be read.

A number is read as its leading digits times a power of ten, `JsonNumber.leading`, and the product
is taken between doubles.  The leading digits are those that fit into a word of 64 bits, and each of
the three steps rounds on its own: the digits, the power of ten, and their product.  So the written
value does not decide alone whether `JsonNumber.isFinite`, its spelling counts as well.
-/

namespace FlowPlan

/-- A number as its digits, before any rounding. -/
structure JsonNumber where
  negative : Bool
  whole : List Char
  /-- The digits behind the point, if there is one. -/
  fraction : Option (List Char)
  /-- Sign and digits of the exponent, if there is one. -/
  exponent : Option (Bool × List Char)
deriving DecidableEq, Repr

namespace JsonNumber

def digitValue (c : Char) : Nat := c.toNat - '0'.toNat

def ofDigits (cs : List Char) : Nat := cs.foldl (fun n c => 10 * n + digitValue c) 0

/-- The number as an index, when it is written as a plain natural number. -/
def index? (n : JsonNumber) : Option Nat :=
  match n.negative, n.fraction, n.exponent with
  | false, none, none => some (ofDigits n.whole)
  | _, _, _ => none

/-- The exponent that is written out. -/
def writtenExponent (n : JsonNumber) : Int :=
  match n.exponent with
  | none => 0
  | some (true, digits) => -(ofDigits digits : Int)
  | some (false, digits) => ofDigits digits

/-- Append digits to a number up to the first one with which it would not fit into a word of 64
bits, and return the digits that are left. -/
def gather (n : Nat) : List Char → Nat × List Char
  | [] => (n, [])
  | c :: cs =>
    let longer := 10 * n + digitValue c
    if longer < 1 <<< 64 then gather longer cs else (n, c :: cs)

/-- The leading digits and the power of ten that they count.  A digit left over before the point
adds a place and a digit gathered behind it takes one away; digits left over behind the point are
ignored. -/
def leading (n : JsonNumber) : Nat × Int :=
  let fraction := n.fraction.getD []
  let (whole, left) := gather 0 n.whole
  let (digits, ignored) := gather whole fraction
  (digits, n.writtenExponent + left.length - (fraction.length - ignored.length : Nat))

/-- A number is finite if its leading digits times their power of ten round to a double.  A power
of ten above the largest one that is a double makes any number too large but zero, and one below 1
cannot make a word too large. -/
def isFinite (n : JsonNumber) : Bool :=
  let (digits, exponent) := n.leading
  if digits = 0 || exponent < 0 then true
  else if exponent > 308 then false
  else roundToDouble digits * roundToDouble (Nat.pow 10 exponent.toNat) < doubleBound

end JsonNumber
end FlowPlan
