import FlowPlan.Precedence
import Mathlib.Data.Finset.Card
import Mathlib.Data.List.Perm.Basic
import Mathlib.Logic.Relation

/-!
What the order by precedence promises.

Nothing is lost or repeated, nothing comes before what it needs, and nothing is left over unless
something needs itself through others.  Of all such orders of ascending candidates it is the first:
any other has a greater candidate where the two begin to differ.
-/

namespace FlowPlan
namespace Precedence

open Relation

variable {α : Type} [DecidableEq α] {needs : α → List α} {candidates : List α}

theorem order_of_none (h : candidates.find? (isReady needs candidates) = none) :
    order needs candidates = ([], candidates) := by
  rw [order]
  split
  case h_1 => rfl
  case h_2 heq =>
    rw [h] at heq
    cases heq

theorem order_of_some {x : α} (h : candidates.find? (isReady needs candidates) = some x) :
    order needs candidates
      = (x :: (order needs (candidates.erase x)).1, (order needs (candidates.erase x)).2) := by
  rw [order]
  split
  case h_1 heq =>
    rw [h] at heq
    cases heq
  case h_2 heq =>
    obtain rfl := Option.some.inj (h.symm.trans heq)
    rfl

/-- The order depends on who needs whom and on nothing else. -/
theorem order_congr {needs' : α → List α} (h : ∀ x y, y ∈ needs x ↔ y ∈ needs' x) :
    order needs candidates = order needs' candidates := by
  have hready : isReady needs = isReady needs' := by
    funext candidates x
    rw [Bool.eq_iff_iff, isReady, isReady, List.all_eq_true, List.all_eq_true]
    simp only [h]
  induction candidates using order.induct needs with
  | case1 candidates hnone => rw [order_of_none hnone, order_of_none (hready ▸ hnone)]
  | case2 candidates x hfind _ _ _ ih =>
    have hfind' : candidates.find? (isReady needs' candidates) = some x := hready ▸ hfind
    rw [order_of_some hfind, order_of_some hfind', ih]

/-- A candidate alone is next. -/
theorem order_singleton {x : α} (hself : x ∉ needs x) : order needs [x] = ([x], []) := by
  have hready : isReady needs [x] x = true :=
    List.all_eq_true.2 fun y hy => decide_eq_true fun hmem =>
      hself (List.mem_singleton.1 hmem ▸ hy)
  have hfirst : [x].find? (isReady needs [x]) = some x := by
    rw [List.find?_cons_of_pos hready]
  rw [order_of_some hfirst, List.erase_cons_head, order_of_none List.find?_nil]

theorem order_perm (needs : α → List α) (candidates : List α) :
    ((order needs candidates).1 ++ (order needs candidates).2).Perm candidates := by
  induction candidates using order.induct needs with
  | case1 candidates hnone =>
    rw [order_of_none hnone]
    exact List.Perm.refl _
  | case2 candidates x hfind _ _ _ ih =>
    rw [order_of_some hfind]
    exact (ih.cons x).trans (List.perm_cons_erase (List.mem_of_find?_eq_some hfind)).symm

/-- What comes first does not need what comes later. -/
theorem order_pairwise (needs : α → List α) (candidates : List α) :
    (order needs candidates).1.Pairwise fun x y => y ∉ needs x := by
  induction candidates using order.induct needs with
  | case1 candidates hnone =>
    rw [order_of_none hnone]
    exact List.Pairwise.nil
  | case2 candidates x hfind _ _ _ ih =>
    rw [order_of_some hfind]
    refine List.pairwise_cons.2 ⟨fun y hy hneed => ?_, ih⟩
    have hmem : y ∈ candidates := List.mem_of_mem_erase
      ((order_perm needs (candidates.erase x)).subset (List.mem_append_left _ hy))
    have hready : isReady needs candidates x = true := List.find?_some hfind
    have hplaced := List.all_eq_true.1 hready y hneed
    rw [decide_eq_true_iff] at hplaced
    exact hplaced hmem

/-- The smallest of some candidates is ready. -/
theorem exists_isReady {time : α → Nat}
    (h : ∀ x ∈ candidates, ∀ y ∈ needs x, y ∈ candidates → time y < time x)
    (hne : candidates ≠ []) : ∃ x ∈ candidates, isReady needs candidates x = true := by
  refine ⟨candidates.minOn time hne, List.minOn_mem, List.all_eq_true.2 fun y hy => ?_⟩
  rw [decide_eq_true_iff]
  intro hmem
  exact Nat.not_lt.2 (List.apply_minOn_le_of_mem hmem) (h _ List.minOn_mem y hy hmem)

theorem order_left_eq_nil (time : α → Nat)
    (h : ∀ x ∈ candidates, ∀ y ∈ needs x, y ∈ candidates → time y < time x) :
    (order needs candidates).2 = [] := by
  induction candidates using order.induct needs with
  | case1 candidates hnone =>
    rw [order_of_none hnone]
    by_contra hne
    obtain ⟨x, hx, hready⟩ := exists_isReady h hne
    exact List.find?_eq_none.1 hnone x hx hready
  | case2 candidates x hfind _ _ _ ih =>
    rw [order_of_some hfind]
    refine ih fun y hy z hz hmem => h y (List.mem_of_mem_erase hy) z hz ?_
    exact List.mem_of_mem_erase hmem

/-- In an order by precedence, what is needed has the smaller place. -/
theorem idxOf_lt_of_mem_needs {l : List α} (hl : l.Pairwise fun x y => y ∉ needs x) {x y : α}
    (hx : x ∈ l) (hy : y ∈ l) (hneed : y ∈ needs x) (hne : y ≠ x) : l.idxOf y < l.idxOf x := by
  have hxlt := List.idxOf_lt_length_of_mem hx
  have hylt := List.idxOf_lt_length_of_mem hy
  rcases Nat.lt_trichotomy (l.idxOf y) (l.idxOf x) with hlt | heq | hgt
  · exact hlt
  · exact absurd ((List.idxOf_inj hy).1 heq) hne
  · have hnot := List.pairwise_iff_getElem.1 hl _ _ hxlt hylt hgt
    rw [List.getElem_idxOf, List.getElem_idxOf] at hnot
    exact absurd hneed hnot

/-- The number of candidates that something needs, directly or not, can be its time. -/
theorem order_left_eq_nil_of_acyclic (hac : ∀ x, ¬ TransGen (fun x y => y ∈ needs x) x x) :
    (order needs candidates).2 = [] := by
  classical
  let behind (x : α) : Finset α :=
    candidates.toFinset.filter fun y => TransGen (fun x y => y ∈ needs x) x y
  refine order_left_eq_nil (fun x => (behind x).card) fun x _ y hy hmem => Finset.card_lt_card ?_
  refine (Finset.ssubset_iff_of_subset fun z hz => ?_).2 ⟨y, ?_, ?_⟩
  · obtain ⟨hz, hpath⟩ := Finset.mem_filter.1 hz
    exact Finset.mem_filter.2 ⟨hz, .head hy hpath⟩
  · exact Finset.mem_filter.2 ⟨List.mem_toFinset.2 hmem, .single hy⟩
  · exact fun hself => hac y (Finset.mem_filter.1 hself).2

/-- Something is left over exactly if something needs itself through others. -/
theorem order_left_eq_nil_iff (hself : ∀ x, x ∉ needs x)
    (hin : ∀ x y, y ∈ needs x → x ∈ candidates ∧ y ∈ candidates) :
    (order needs candidates).2 = [] ↔ ∀ x, ¬ TransGen (fun x y => y ∈ needs x) x x := by
  refine ⟨fun hleft x hpath => ?_, order_left_eq_nil_of_acyclic⟩
  have hperm := order_perm needs candidates
  rw [hleft, List.append_nil] at hperm
  have hstep : ∀ x y, y ∈ needs x →
      (order needs candidates).1.idxOf y < (order needs candidates).1.idxOf x := fun x y hneed =>
    idxOf_lt_of_mem_needs (order_pairwise needs candidates) (hperm.mem_iff.2 (hin x y hneed).1)
      (hperm.mem_iff.2 (hin x y hneed).2) hneed fun heq => hself x (heq ▸ hneed)
  have hgt : TransGen (· > ·) ((order needs candidates).1.idxOf x)
      ((order needs candidates).1.idxOf x) :=
    TransGen.lift (fun x => (order needs candidates).1.idxOf x) hstep x x hpath
  rw [transGen_eq_self] at hgt
  exact Nat.lt_irrefl _ hgt

theorem le_of_find?_eq_some {p : Nat → Bool} {l : List Nat} (hl : l.Pairwise (· < ·)) {x a : Nat}
    (hx : l.find? p = some x) (ha : a ∈ l) (hp : p a = true) : x ≤ a := by
  obtain ⟨-, before, behind, rfl, hnot⟩ := List.find?_eq_some_iff_append.1 hx
  rcases List.mem_append.1 ha with ha | ha
  · have hno := hnot a ha
    rw [hp] at hno
    cases hno
  · rcases List.mem_cons.1 ha with rfl | ha
    · exact Nat.le_refl _
    · exact Nat.le_of_lt ((List.pairwise_cons.1 (List.pairwise_append.1 hl).2.1).1 a ha)

/-- What is placed has everything that it needs in front of it, and of all that could be placed
there it is the smallest. -/
theorem order_places {needs : Nat → List Nat} {candidates : List Nat}
    (hasc : candidates.Pairwise (· < ·)) {before behind : List Nat} {x : Nat}
    (hsplit : (order needs candidates).1 = before ++ x :: behind) :
    (∀ y ∈ needs x, y ∈ candidates → y ∈ before) ∧
      ∀ z ∈ candidates, z ∉ before → (∀ y ∈ needs z, y ∈ candidates → y ∈ before) → x ≤ z := by
  induction candidates using order.induct needs generalizing before with
  | case1 candidates hnone =>
    rw [order_of_none hnone] at hsplit
    exact absurd hsplit.symm (List.append_ne_nil_of_right_ne_nil _ (List.cons_ne_nil _ _))
  | case2 candidates a hfind _ _ _ ih =>
    rw [order_of_some hfind] at hsplit
    cases before with
    | nil =>
      obtain ⟨rfl, -⟩ := List.cons.inj hsplit
      have hready : isReady needs candidates a = true := List.find?_some hfind
      refine ⟨fun y hy hmem => ?_, fun z hz _ hneeds => ?_⟩
      · exact absurd hmem (of_decide_eq_true (List.all_eq_true.1 hready y hy))
      · refine le_of_find?_eq_some hasc hfind hz (List.all_eq_true.2 fun y hy => ?_)
        exact decide_eq_true fun hmem => List.not_mem_nil (hneeds y hy hmem)
    | cons b before =>
      obtain ⟨rfl, hrest⟩ := List.cons.inj hsplit
      obtain ⟨hplaced, hleast⟩ := ih (hasc.sublist List.erase_sublist) hrest
      have herase : ∀ y ∈ candidates, y = a ∨ y ∈ candidates.erase a := fun y hy =>
        (eq_or_ne y a).imp_right fun hne => (List.mem_erase_of_ne hne).2 hy
      refine ⟨fun y hy hmem => ?_, fun z hz hnot hneeds => ?_⟩
      · rcases herase y hmem with rfl | hmem
        · exact List.mem_cons_self
        · exact List.mem_cons_of_mem a (hplaced y hy hmem)
      · rw [List.mem_cons, not_or] at hnot
        refine hleast z ((herase z hz).resolve_left hnot.1) hnot.2 fun y hy hmem => ?_
        refine (List.mem_cons.1 (hneeds y hy (List.mem_of_mem_erase hmem))).resolve_left ?_
        rintro rfl
        exact List.Nodup.not_mem_erase (hasc.imp Nat.ne_of_lt) hmem

/-- Every other order by precedence has a greater candidate at the first difference. -/
theorem eq_or_lex_order {needs : Nat → List Nat} {candidates : List Nat}
    (hasc : candidates.Pairwise (· < ·)) (hself : ∀ x, x ∉ needs x) {l : List Nat}
    (hperm : l.Perm candidates) (hl : l.Pairwise fun x y => y ∉ needs x) :
    l = (order needs candidates).1 ∨ List.Lex (· < ·) (order needs candidates).1 l := by
  induction candidates using order.induct needs generalizing l with
  | case1 candidates hnone =>
    rw [order_of_none hnone]
    cases l with
    | nil => exact .inl rfl
    | cons a l => exact .inr .nil
  | case2 candidates x hfind _ _ _ ih =>
    rw [order_of_some hfind]
    have hx := List.mem_of_find?_eq_some hfind
    cases l with
    | nil => exact absurd (hperm.symm.subset hx) List.not_mem_nil
    | cons a l =>
      obtain ⟨hfirst, hrest⟩ := List.pairwise_cons.1 hl
      have ha : a ∈ candidates := hperm.subset List.mem_cons_self
      -- What an order begins with is ready, and of those that are ready `x` is the smallest.
      have hready : isReady needs candidates a = true := by
        refine List.all_eq_true.2 fun y hy => decide_eq_true fun hmem => ?_
        rcases List.mem_cons.1 (hperm.symm.subset hmem) with rfl | hyl
        · exact hself y hy
        · exact hfirst y hyl hy
      rcases Nat.lt_or_eq_of_le (le_of_find?_eq_some hasc hfind ha hready) with hlt | rfl
      · exact .inr (.rel hlt)
      · have hperm : l.Perm (candidates.erase x) :=
          (hperm.trans (List.perm_cons_erase hx)).cons_inv
        rcases ih (hasc.sublist List.erase_sublist) hperm hrest with rfl | hlex
        · exact .inl rfl
        · exact .inr (.cons hlex)

end Precedence
end FlowPlan
