/-!
Collections in which every entry has a name of its own.

A catalog keeps its entries in the order of their names, so two catalogs with the same entries are
equal whatever order the entries arrived in.  The canonical text of a registry, and with it the
fingerprint of a compilation, depends on nothing else.
-/

namespace FlowPlan

/-- Things that are looked up by name. -/
class Named (α : Type) where
  name : α → String

/-- Strictly ascending by name, hence without two entries of one name. -/
def NameSorted {α : Type} [Named α] (entries : List α) : Prop :=
  entries.Pairwise (fun a b => Named.name a < Named.name b)

structure Catalog (α : Type) [Named α] where
  entries : List α
  sorted : NameSorted entries

namespace Catalog

variable {α : Type} [Named α]

/-- Put an entry in front of the first one with a later name. -/
def place (x : α) : List α → List α
  | [] => [x]
  | y :: ys => if Named.name x < Named.name y then x :: y :: ys else y :: place x ys

theorem mem_place {x z : α} {xs : List α} : z ∈ place x xs ↔ z = x ∨ z ∈ xs := by
  induction xs with
  | nil => simp [place]
  | cons y ys ih =>
    by_cases h : Named.name x < Named.name y
    · simp [place, h]
    · simp only [place, h, if_false, List.mem_cons, ih]
      constructor
      · rintro (h | h | h) <;> simp [h]
      · rintro (h | h | h) <;> simp [h]

/-- Among different names the order is total. -/
theorem lt_of_not_lt {a b : String} (h : ¬ a < b) (hne : a ≠ b) : b < a :=
  Decidable.byContradiction fun h' =>
    hne (String.le_antisymm (String.not_lt.1 h') (String.not_lt.1 h))

theorem place_sorted {x : α} {xs : List α} (h : NameSorted xs)
    (hx : ∀ y ∈ xs, Named.name y ≠ Named.name x) : NameSorted (place x xs) := by
  induction xs with
  | nil => exact List.pairwise_singleton _ _
  | cons y ys ih =>
    obtain ⟨hy, hys⟩ := List.pairwise_cons.1 h
    by_cases hlt : Named.name x < Named.name y
    · rw [place, if_pos hlt]
      refine List.pairwise_cons.2 ⟨fun z hz => ?_, h⟩
      rcases List.mem_cons.1 hz with rfl | hz
      · exact hlt
      · exact String.lt_trans hlt (hy z hz)
    · rw [place, if_neg hlt]
      refine List.pairwise_cons.2
        ⟨fun z hz => ?_, ih hys fun z hz => hx z (List.mem_cons_of_mem _ hz)⟩
      rcases mem_place.1 hz with rfl | hz
      · exact lt_of_not_lt hlt (Ne.symm (hx y List.mem_cons_self))
      · exact hy z hz

def empty : Catalog α := ⟨[], List.Pairwise.nil⟩

def find? (c : Catalog α) (name : String) : Option α :=
  c.entries.find? (Named.name · == name)

def contains (c : Catalog α) (name : String) : Bool :=
  c.entries.any (Named.name · == name)

/-- The catalog with one more entry, unless its name is taken. -/
def insert? (c : Catalog α) (x : α) : Option (Catalog α) :=
  if h : c.contains (Named.name x) then none
  else some ⟨place x c.entries, place_sorted c.sorted fun y hy heq =>
    h (List.any_eq_true.2 ⟨y, hy, beq_iff_eq.2 heq⟩)⟩

/-- The entries whose name is not taken by an earlier one. -/
def ofList (xs : List α) : Catalog α :=
  xs.foldl (fun c x => (c.insert? x).getD c) empty

def size (c : Catalog α) : Nat := c.entries.length

end Catalog
end FlowPlan
