import FlowPlan.DataClass
import FlowPlan.Processor
import Mathlib.Data.List.Perm.Basic

/-!
Catalogs as sets of entries.

A catalog is told by its entries in any order (`Catalog.eq_of_perm`), and entries can be put in one
after the other exactly if their names differ from each other and from those that are there
(`Catalog.exists_insertAll?_iff`).  Registering processors and registering data classes are both
this.
-/

namespace FlowPlan
namespace Catalog

variable {α : Type} [Named α] {c d : Catalog α} {x : α} {xs : List α}

def names (xs : List α) : List String := xs.map Named.name

theorem names_nodup (c : Catalog α) : (names c.entries).Nodup :=
  List.pairwise_map.2 (c.sorted.imp String.ne_of_lt)

/-- The order of the names leaves one order for the entries. -/
theorem eq_of_perm (h : c.entries.Perm d.entries) : c = d := by
  obtain ⟨xs, hxs⟩ := c
  obtain ⟨ys, hys⟩ := d
  have heq : xs = ys := List.Perm.eq_of_pairwise
    (fun a b _ _ hab hba => absurd (String.lt_trans hab hba) (String.lt_irrefl _)) hxs hys h
  subst heq
  rfl

theorem place_perm (x : α) (xs : List α) : (place x xs).Perm (x :: xs) := by
  induction xs with
  | nil => exact .refl _
  | cons y ys ih =>
    by_cases hlt : Named.name x < Named.name y
    · rw [place, if_pos hlt]
    · rw [place, if_neg hlt]
      exact (ih.cons y).trans (.swap x y ys)

theorem contains_iff {name : String} : c.contains name = true ↔ name ∈ names c.entries := by
  simp [contains, names]

theorem insert?_eq_none_iff : c.insert? x = none ↔ Named.name x ∈ names c.entries := by
  rw [← contains_iff, insert?]
  split
  case isTrue htaken => simp [htaken]
  case isFalse hfree => simp [hfree]

theorem insert?_perm (h : c.insert? x = some d) : d.entries.Perm (x :: c.entries) := by
  unfold insert? at h
  split at h
  case isTrue => cases h
  case isFalse =>
    cases h
    exact place_perm x c.entries

/-! ## Several entries -/

/-- Put in entries one after the other. -/
def insertAll? (c : Catalog α) : List α → Option (Catalog α)
  | [] => some c
  | x :: xs => (c.insert? x).bind (·.insertAll? xs)

theorem insertAll?_perm (h : c.insertAll? xs = some d) : d.entries.Perm (c.entries ++ xs) := by
  induction xs generalizing c with
  | nil =>
    cases h
    rw [List.append_nil]
  | cons x xs ih =>
    rw [insertAll?, Option.bind_eq_some_iff] at h
    obtain ⟨k, hk, hd⟩ := h
    exact (ih hd).trans (((insert?_perm hk).append_right xs).trans List.perm_middle.symm)

theorem exists_insertAll?_iff :
    (∃ d, c.insertAll? xs = some d) ↔ (names (c.entries ++ xs)).Nodup := by
  induction xs generalizing c with
  | nil =>
    rw [List.append_nil]
    exact ⟨fun _ => c.names_nodup, fun _ => ⟨c, rfl⟩⟩
  | cons x xs ih =>
    have hmiddle : (names (c.entries ++ x :: xs)).Perm (names (x :: c.entries ++ xs)) :=
      List.perm_middle.map _
    cases hk : c.insert? x with
    | none =>
      have htaken := insert?_eq_none_iff.1 hk
      refine ⟨fun ⟨d, hd⟩ => ?_, fun hnames => ?_⟩
      · rw [insertAll?, hk] at hd
        cases hd
      · refine absurd ?_ (List.nodup_cons.1 (hmiddle.nodup_iff.1 hnames)).1
        rw [List.append_eq, List.map_append]
        exact List.mem_append_left _ htaken
    | some k =>
      have hperm : (names (k.entries ++ xs)).Perm (names (c.entries ++ x :: xs)) :=
        (((insert?_perm hk).append_right xs).map _).trans hmiddle.symm
      rw [insertAll?, hk, Option.bind_some, ih, hperm.nodup_iff]

/-- The entries of a catalog, put into an empty one, give the catalog again. -/
theorem insertAll?_entries (c : Catalog α) :
    (empty : Catalog α).insertAll? c.entries = some c := by
  obtain ⟨d, hd⟩ := exists_insertAll?_iff.2
    (show (names ((empty : Catalog α).entries ++ c.entries)).Nodup from c.names_nodup)
  rw [hd, eq_of_perm (insertAll?_perm hd : d.entries.Perm c.entries)]

end Catalog

/-! ## Registries -/

section Registries

theorem registerAll_eq_ok_iff {r s : ProcessorRegistry} {ps : List Processor} :
    ProcessorRegistry.registerAll r ps = (s, .ok ()) ↔ r.insertAll? ps = some s := by
  induction ps generalizing r with
  | nil => simp [ProcessorRegistry.registerAll, Catalog.insertAll?]
  | cons p ps ih =>
    rw [ProcessorRegistry.registerAll, ProcessorRegistry.register, Catalog.insertAll?]
    cases r.insert? p with
    | none => simp
    | some k => simp [ih]

theorem ofClasses_eq_ok_iff {r : DataClassRegistry} {cs : List DataClass} :
    DataClassRegistry.ofClasses cs = .ok r ↔ Catalog.empty.insertAll? cs = some r := by
  unfold DataClassRegistry.ofClasses
  generalize (Catalog.empty : DataClassRegistry) = k
  induction cs generalizing k with
  | nil => simp [Catalog.insertAll?, pure, Except.pure]
  | cons c cs ih =>
    rw [List.foldlM_cons, DataClassRegistry.register, Catalog.insertAll?]
    cases k.insert? c with
    | none => simp [bind, Except.bind]
    | some k => exact ih k

end Registries
end FlowPlan
