/-!
Disjoint sets of numbers, joined two at a time.

Each number points to a parent that is not greater than itself, and the root of a set, which points
to itself, is its smallest member.  The root of a number therefore does not depend on the order of
the joins.  Looking a number up shortens the way to its root for the next time.
-/

namespace FlowPlan

structure DisjointSets where
  parents : Array Nat
deriving DecidableEq, Repr

namespace DisjointSets

/-- The numbers below a bound, each in a set of its own. -/
def singletons (n : Nat) : DisjointSets := ⟨Array.range n⟩

def size (s : DisjointSets) : Nat := s.parents.size

def parent (s : DisjointSets) (x : Nat) : Nat := s.parents.getD x x

def setParent (s : DisjointSets) (x p : Nat) : DisjointSets := ⟨s.parents.setIfInBounds x p⟩

/-- The number at which the way up from a number ends.  The way leads from greater to smaller
numbers, so it ends. -/
def root (s : DisjointSets) (x : Nat) : Nat :=
  if s.parent x < x then s.root (s.parent x) else x
termination_by x

/-- Let every number on the way up point to the root itself. -/
def compress (s : DisjointSets) (root x : Nat) : DisjointSets :=
  if s.parent x = root then s
  else if s.parent x < x then (s.setParent x root).compress root (s.parent x)
  else s
termination_by x

/-- The root of a number, and the sets with its way shortened. -/
def find (s : DisjointSets) (x : Nat) : Nat × DisjointSets :=
  let root := s.root x
  (root, s.compress root x)

/-- Join the sets of two numbers.  The smaller root stays a root. -/
def union (s : DisjointSets) (x y : Nat) : DisjointSets :=
  let (rx, s) := s.find x
  let (ry, s) := s.find y
  if rx = ry then s else s.setParent (max rx ry) (min rx ry)

/-- Join the members of each pair. -/
def unionAll (s : DisjointSets) (pairs : List (Nat × Nat)) : DisjointSets :=
  pairs.foldl (fun s (x, y) => s.union x y) s

end DisjointSets
end FlowPlan
