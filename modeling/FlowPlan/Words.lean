/-!
Splitting a text into its words.

Words are separated by white space in the sense of Unicode, so a port list may be written with any
kind of blank between the names.
-/

namespace FlowPlan
namespace Words

/-- The characters with the Unicode property White_Space, as inclusive ranges. -/
def spaceRanges : List (Nat × Nat) :=
  [(0x09, 0x0D), (0x20, 0x20), (0x85, 0x85), (0xA0, 0xA0), (0x1680, 0x1680), (0x2000, 0x200A),
    (0x2028, 0x2029), (0x202F, 0x202F), (0x205F, 0x205F), (0x3000, 0x3000)]

def isSpace (c : Char) : Bool := spaceRanges.any fun (lo, hi) => lo ≤ c.toNat && c.toNat ≤ hi

/-- The maximal runs of characters that are no space, in order. -/
def split (cs : List Char) : List (List Char) :=
  (cs.splitOnP isSpace).filter (!·.isEmpty)

end Words

/-- The words of a text. -/
def words (s : String) : List String := (Words.split s.toList).map String.ofList

end FlowPlan
