import FlowPlan.DisjointSets
import Mathlib.Logic.Relation

/-!
What the roots of disjoint sets say.

Joining two sets sends the greater of their roots to the smaller one and leaves all other roots as
they are (`root_union`).  From this alone it follows that joined numbers have one root, and that the
root of a number shares whatever all joined pairs share.
-/

namespace FlowPlan
namespace DisjointSets

variable {s : DisjointSets} {x y z p : Nat}

/-- No parent is greater than its child. -/
def Descends (s : DisjointSets) : Prop := ∀ x, s.parent x ≤ x

/-! ## Parents and roots -/

theorem parent_setParent (hx : x < s.size) :
    (s.setParent x p).parent y = if y = x then p else s.parent y := by
  unfold parent setParent size at *
  simp only [Array.getD_eq_getD_getElem?, Array.getElem?_setIfInBounds]
  by_cases h : y = x
  · subst h
    simp [hx]
  · simp [h, Ne.symm h]

theorem parent_setParent_of_le (hx : s.size ≤ x) : s.setParent x p = s := by
  unfold setParent size at *
  rw [Array.setIfInBounds_eq_of_size_le hx]

theorem size_setParent (s : DisjointSets) (x p : Nat) : (s.setParent x p).size = s.size :=
  Array.size_setIfInBounds

theorem setParent_descends (h : s.Descends) (hp : p ≤ x) : (s.setParent x p).Descends := by
  intro y
  by_cases hx : x < s.size
  · rw [parent_setParent hx]
    split
    case isTrue heq => exact heq ▸ hp
    case isFalse => exact h y
  · rw [parent_setParent_of_le (Nat.not_lt.1 hx)]
    exact h y

theorem root_of_lt (hx : s.parent x < x) : s.root x = s.root (s.parent x) := by
  rw [root, if_pos hx]

theorem root_of_not_lt (hx : ¬ s.parent x < x) : s.root x = x := by
  rw [root, if_neg hx]

theorem root_le (s : DisjointSets) (x : Nat) : s.root x ≤ x := by
  induction x using Nat.strongRecOn with
  | ind x ih =>
    by_cases hx : s.parent x < x
    · rw [root_of_lt hx]
      exact Nat.le_trans (ih _ hx) (Nat.le_of_lt hx)
    · exact Nat.le_of_eq (root_of_not_lt hx)

theorem not_parent_root_lt (s : DisjointSets) (x : Nat) : ¬ s.parent (s.root x) < s.root x := by
  induction x using Nat.strongRecOn with
  | ind x ih =>
    by_cases hx : s.parent x < x
    · rw [root_of_lt hx]
      exact ih _ hx
    · rw [root_of_not_lt hx]
      exact hx

theorem root_root (s : DisjointSets) (x : Nat) : s.root (s.root x) = s.root x :=
  root_of_not_lt (s.not_parent_root_lt x)

/-- Pointing a number to a smaller member of its set changes no root. -/
theorem root_setParent (hp : p < x) (heq : s.root p = s.root x) (hlt : s.parent x < x) :
    (s.setParent x p).root y = s.root y := by
  by_cases hx : x < s.size
  · induction y using Nat.strongRecOn with
    | ind y ih =>
      by_cases hy : y = x
      · subst hy
        have hparent : (s.setParent y p).parent y = p := by rw [parent_setParent hx, if_pos rfl]
        rw [root_of_lt (by rwa [hparent]), hparent, ih p hp, heq]
      · have hparent : (s.setParent x p).parent y = s.parent y := by
          rw [parent_setParent hx, if_neg hy]
        by_cases hless : s.parent y < y
        · rw [root_of_lt (by rwa [hparent]), hparent, ih _ hless, root_of_lt hless]
        · rw [root_of_not_lt (by rwa [hparent]), root_of_not_lt hless]
  · rw [parent_setParent_of_le (Nat.not_lt.1 hx)]

/-! ## Looking up and joining -/

/-- One step of the shortening: a number on the way is pointed to the root. -/
theorem setParent_root_spec (h : s.Descends) (hlt : s.parent x < x) :
    (s.setParent x (s.root x)).Descends ∧ ∀ y, (s.setParent x (s.root x)).root y = s.root y := by
  have hless : s.root x < x := by
    rw [root_of_lt hlt]
    exact Nat.lt_of_le_of_lt (s.root_le _) hlt
  exact ⟨setParent_descends h (Nat.le_of_lt hless),
    fun _ => root_setParent hless (s.root_root x) hlt⟩

theorem compress_spec (h : s.Descends) (x : Nat) :
    (s.compress (s.root x) x).Descends ∧ (s.compress (s.root x) x).size = s.size ∧
      ∀ y, (s.compress (s.root x) x).root y = s.root y := by
  suffices hall : ∀ (x : Nat) (s : DisjointSets) (r : Nat), s.Descends → s.root x = r →
      (s.compress r x).Descends ∧ (s.compress r x).size = s.size ∧
        ∀ y, (s.compress r x).root y = s.root y from hall x s _ h rfl
  intro x
  induction x using Nat.strongRecOn with
  | ind x ih =>
    intro s r h hr
    rw [compress]
    split
    case isTrue => exact ⟨h, rfl, fun y => rfl⟩
    case isFalse =>
      split
      case isFalse => exact ⟨h, rfl, fun y => rfl⟩
      case isTrue hlt =>
        subst hr
        obtain ⟨hkeeps, hroots⟩ := setParent_root_spec h hlt
        obtain ⟨hd, hsize, hroot⟩ := ih (s.parent x) hlt (s.setParent x (s.root x)) (s.root x)
          hkeeps (by rw [hroots, ← root_of_lt hlt])
        exact ⟨hd, hsize.trans (size_setParent s x _), fun y => (hroot y).trans (hroots y)⟩

/-- Joining the roots of two sets. -/
theorem root_setParent_max {a b : Nat} (ha : s.root a = a) (hb : s.root b = b) (hne : a ≠ b)
    (hsize : max a b < s.size) :
    (s.setParent (max a b) (min a b)).root z =
      if s.root z = max a b then min a b else s.root z := by
  have hlt : min a b < max a b := by omega
  have hmax : s.root (max a b) = max a b := by
    rcases Nat.le_total a b with h | h
    · rw [Nat.max_eq_right h, hb]
    · rw [Nat.max_eq_left h, ha]
  have hmin : s.root (min a b) = min a b := by
    rcases Nat.le_total a b with h | h
    · rw [Nat.min_eq_left h, ha]
    · rw [Nat.min_eq_right h, hb]
  induction z using Nat.strongRecOn with
  | ind z ih =>
    by_cases hz : z = max a b
    · subst hz
      have hparent : (s.setParent (max a b) (min a b)).parent (max a b) = min a b := by
        rw [parent_setParent hsize, if_pos rfl]
      rw [root_of_lt (by rwa [hparent]), hparent, ih _ hlt, hmin, if_neg (Nat.ne_of_lt hlt), hmax,
        if_pos rfl]
    · have hparent : (s.setParent (max a b) (min a b)).parent z = s.parent z := by
        rw [parent_setParent hsize, if_neg hz]
      by_cases hless : s.parent z < z
      · rw [root_of_lt (by rwa [hparent]), hparent, ih _ hless, root_of_lt hless]
      · rw [root_of_not_lt (by rwa [hparent]), root_of_not_lt hless, if_neg hz]

theorem union_spec (h : s.Descends) (hx : x < s.size) (hy : y < s.size) :
    (s.union x y).Descends ∧ (s.union x y).size = s.size ∧ ∀ z, (s.union x y).root z =
      if s.root z = max (s.root x) (s.root y) then min (s.root x) (s.root y) else s.root z := by
  obtain ⟨hd, hsize, hroot⟩ := compress_spec h x
  obtain ⟨hd', hsize', hroot'⟩ := compress_spec hd y
  unfold union find
  simp only [hroot] at hroot' hd' hsize' ⊢
  generalize ((s.compress (s.root x) x).compress (s.root y) y) = t at *
  have hsize : t.size = s.size := hsize'.trans hsize
  split
  case isTrue heq =>
    refine ⟨hd', hsize, fun z => ?_⟩
    rw [hroot', heq, Nat.max_self, Nat.min_self]
    split
    case isTrue heq => exact heq
    case isFalse => rfl
  case isFalse hne =>
    refine ⟨setParent_descends hd' (by omega), (size_setParent _ _ _).trans hsize, fun z => ?_⟩
    have hmax : max (s.root x) (s.root y) < t.size := by
      rw [hsize]
      exact Nat.max_lt.2 ⟨Nat.lt_of_le_of_lt (s.root_le x) hx, Nat.lt_of_le_of_lt (s.root_le y) hy⟩
    rw [root_setParent_max (by rw [hroot', root_root]) (by rw [hroot', root_root]) hne hmax, hroot']

/-! ## All joins -/

theorem size_singletons (n : Nat) : (singletons n).size = n := Array.size_range

theorem singletons_descends (n : Nat) : (singletons n).Descends := by
  intro x
  unfold parent singletons
  rw [Array.getD_eq_getD_getElem?]
  by_cases hx : x < n
  · simp [hx]
  · simp [hx]

theorem root_singletons (n x : Nat) : (singletons n).root x = x := by
  refine root_of_not_lt ?_
  unfold parent singletons
  rw [Array.getD_eq_getD_getElem?]
  by_cases hx : x < n
  · simp [hx]
  · simp [hx]

/-- What the joins make equal stays equal, and they make no more equal than they have to. -/
theorem unionAll_spec {pairs : List (Nat × Nat)} (h : s.Descends)
    (hb : ∀ pair ∈ pairs, pair.1 < s.size ∧ pair.2 < s.size) :
    (∀ x y, s.root x = s.root y → (s.unionAll pairs).root x = (s.unionAll pairs).root y) ∧
      (∀ pair ∈ pairs, (s.unionAll pairs).root pair.1 = (s.unionAll pairs).root pair.2) ∧
        ∀ {κ : Type} (f : Nat → κ), (∀ pair ∈ pairs, f pair.1 = f pair.2) →
          (∀ x, f (s.root x) = f x) → ∀ x, f ((s.unionAll pairs).root x) = f x := by
  induction pairs generalizing s with
  | nil => exact ⟨fun _ _ heq => heq, by simp, fun f _ hf => hf⟩
  | cons pair pairs ih =>
    obtain ⟨hx, hy⟩ := hb pair List.mem_cons_self
    obtain ⟨hd, hsize, hroot⟩ := union_spec h hx hy
    obtain ⟨hkeep, hpairs, hsound⟩ := ih hd fun pair' hp => by
      rw [hsize]
      exact hb pair' (List.mem_cons_of_mem pair hp)
    show (∀ x y, _ → ((s.union pair.1 pair.2).unionAll pairs).root x
      = ((s.union pair.1 pair.2).unionAll pairs).root y) ∧ _
    refine ⟨fun x y heq => hkeep x y (by rw [hroot, hroot, heq]), fun pair' hp => ?_,
      fun f hf hfs => hsound f (fun pair' hp => hf pair' (List.mem_cons_of_mem pair hp)) ?_⟩
    · rcases List.mem_cons.1 hp with rfl | hp
      · refine hkeep _ _ ?_
        rw [hroot, hroot]
        split <;> split <;> omega
      · exact hpairs pair' hp
    · intro z
      have hjoin : f (s.root pair.1) = f (s.root pair.2) := by
        rw [hfs, hfs]
        exact hf pair List.mem_cons_self
      rw [hroot, ← hfs z]
      split
      case isFalse => rfl
      case isTrue heq =>
        rw [heq]
        rcases Nat.le_total (s.root pair.1) (s.root pair.2) with hle | hle
        · rw [Nat.min_eq_left hle, Nat.max_eq_right hle, hjoin]
        · rw [Nat.min_eq_right hle, Nat.max_eq_left hle, hjoin]

/-- Numbers share a leader exactly if they are connected, provided that related numbers do, and that
the leader of a number is connected with it. -/
theorem eq_iff_eqvGen {leader : Nat → Nat} {related : Nat → Nat → Prop}
    (hjoin : ∀ x y, related x y → leader x = leader y)
    (hclass : ∀ x, Quot.mk related (leader x) = Quot.mk related x) :
    leader x = leader y ↔ Relation.EqvGen related x y := by
  constructor
  · intro heq
    refine Quot.eqvGen_exact ?_
    rw [← hclass x, heq, hclass y]
  · exact fun hchain => congrArg (Quot.lift leader hjoin) (Quot.eqvGen_sound hchain)

end DisjointSets
end FlowPlan
