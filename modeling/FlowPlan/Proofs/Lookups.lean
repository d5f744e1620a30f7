import FlowPlan.Proofs.DisjointSets
import FlowPlan.Proofs.Loops
import Mathlib.Order.Bounds.Basic

/-!
Disjoint sets under any sequence of lookups and joins.

A lookup goes up to the root and then once more, now pointing every number on the way to the root.
Neither way has a bound of its own.  They end since parents are smaller than their children, which
each turn of the second way keeps while it rewrites them (`shorten_turn`).  A lookup therefore
changes no set, and after any requests the sets are those of the joins alone, whatever lookups came
in between (`serveAll_spec`).

The main statement is `serveAll_partitions`.
-/

namespace FlowPlan
namespace DisjointSets

open Relation

variable {s t : DisjointSets} {n x y : Nat}

/-! ## The two ways up -/

/-- A turn of the first way: on to the parent, until a number is its own parent. -/
def climb (s : DisjointSets) (x : Nat) : Turn Nat Nat :=
  match s.parents[x]? with
  | none => .fails
  | some p => if p = x then .done x else .again p

/-- A turn of the second way: the number is pointed to the root, until the parent is the root. -/
def shorten (root : Nat) (w : DisjointSets × Nat) : Turn (DisjointSets × Nat) DisjointSets :=
  match w.1.parents[w.2]? with
  | none => .fails
  | some p => if p = root then .done w.1 else .again (w.1.setParent w.2 root, p)

theorem parents_getElem? (hx : x < s.size) : s.parents[x]? = some (s.parent x) := by
  rw [parent, Array.getD_eq_getD_getElem?, Array.getElem?_eq_getElem hx, Option.getD_some]

theorem climb_of_lt (hx : x < s.size) :
    s.climb x = if s.parent x = x then .done x else .again (s.parent x) := by
  rw [climb, parents_getElem? hx]

theorem climb_endsIn (h : s.Descends) (hx : x < s.size) : Turn.EndsIn s.climb x (s.root x) := by
  refine Turn.EndsIn.of_wellFounded Nat.lt_wfRel.wf (P := (· < s.size)) (fun x hx => ?_) hx
  rw [climb_of_lt hx]
  by_cases hp : s.parent x = x
  · rw [if_pos hp, root_of_not_lt (by omega)]
    exact .inl rfl
  · have hlt : s.parent x < x := Nat.lt_of_le_of_ne (h x) hp
    exact .inr ⟨s.parent x, if_neg hp, Nat.lt_trans hlt hx, hlt, (root_of_lt hlt).symm⟩

/-- The second way has come to a number of the set: its root is still the root, and no parent is
greater than its child. -/
structure Shortening (root : Nat) (w : DisjointSets × Nat) : Prop where
  descends : w.1.Descends
  inside : w.2 < w.1.size
  root_eq : w.1.root w.2 = root

/-- Each turn of the second way either ends it or goes on to a smaller number of the set, and leads
to the same parents in the end. -/
theorem shorten_turn {root : Nat} {w : DisjointSets × Nat} (h : Shortening root w) :
    shorten root w = .done (w.1.compress root w.2) ∨
      ∃ v, shorten root w = .again v ∧ Shortening root v ∧ v.2 < w.2 ∧
        v.1.compress root v.2 = w.1.compress root w.2 := by
  obtain ⟨s, x⟩ := w
  obtain ⟨hd, hx, rfl⟩ := h
  rw [shorten, parents_getElem? hx, compress]
  by_cases hp : s.parent x = s.root x
  · exact .inl (by simp only [hp, if_true])
  · have hlt : s.parent x < x := by
      refine Nat.lt_of_le_of_ne (hd x) fun heq => hp ?_
      rw [root_of_not_lt (by omega), heq]
    obtain ⟨hkeeps, hroots⟩ := setParent_root_spec hd hlt
    have hinside : s.parent x < (s.setParent x (s.root x)).size := by
      rw [size_setParent]
      exact Nat.lt_trans hlt hx
    exact .inr ⟨(s.setParent x (s.root x), s.parent x), by simp only [hp, if_false],
      ⟨hkeeps, hinside, (hroots _).trans (root_of_lt hlt).symm⟩, hlt,
      by simp only [hp, hlt, if_true, if_false]⟩

theorem shorten_endsIn (h : s.Descends) (hx : x < s.size) :
    Turn.EndsIn (shorten (s.root x)) (s, x) (s.compress (s.root x) x) :=
  Turn.EndsIn.of_wellFounded (s := (s, x)) (InvImage.wf Prod.snd Nat.lt_wfRel.wf)
    (fun _ hw => shorten_turn hw) (Shortening.mk h hx rfl)

/-- No parent is ever greater than its child while the way is shortened. -/
theorem descends_of_passes (h : s.Descends) (hx : x < s.size) {w : DisjointSets × Nat}
    (hw : Turn.Passes (shorten (s.root x)) (s, x) w) : w.1.Descends := by
  refine (hw.keeps (P := Shortening (s.root x)) (fun w v hinv hagain => ?_)
    ⟨h, hx, rfl⟩).descends
  rcases shorten_turn hinv with hdone | ⟨v', hagain', hinv', -⟩
  · rw [hdone] at hagain
    cases hagain
  · rw [hagain'] at hagain
    cases hagain
    exact hinv'

/-! ## Requests -/

/-- What may be asked of the sets. -/
inductive Request
  | find (x : Nat)
  | union (x y : Nat)
deriving DecidableEq, Repr

/-- The request is about numbers below a bound. -/
def Request.Below (n : Nat) : Request → Prop
  | find x => x < n
  | union x y => x < n ∧ y < n

def serve (s : DisjointSets) : Request → DisjointSets
  | .find x => (s.find x).2
  | .union x y => s.union x y

def serveAll (s : DisjointSets) (rs : List Request) : DisjointSets := rs.foldl serve s

/-- The pairs that are joined, in turn. -/
def joined : List Request → List (Nat × Nat)
  | [] => []
  | .find _ :: rs => joined rs
  | .union x y :: rs => (x, y) :: joined rs

theorem mem_joined {rs : List Request} : (x, y) ∈ joined rs ↔ .union x y ∈ rs := by
  induction rs with
  | nil => simp [joined]
  | cons r rs ih => cases r <;> simp [joined, ih]

/-- After the requests every number has the root that the joins alone give it. -/
theorem serveAll_spec {rs : List Request} (hs : s.Descends) (ht : t.Descends)
    (hsize : t.size = s.size) (hroot : ∀ z, s.root z = t.root z)
    (hrs : ∀ r ∈ rs, r.Below s.size) :
    (s.serveAll rs).Descends ∧ (s.serveAll rs).size = s.size ∧
      ∀ z, (s.serveAll rs).root z = (t.unionAll (joined rs)).root z := by
  -- `s` serves the lookups too and `t` the joins alone, so their parents may differ: what both keep
  -- is the roots.
  induction rs generalizing s t with
  | nil => exact ⟨hs, rfl, hroot⟩
  | cons r rs ih =>
    have hr := hrs r List.mem_cons_self
    have hrest : ∀ {k}, k = s.size → ∀ r ∈ rs, r.Below k := fun hk r hmem =>
      hk ▸ hrs r (List.mem_cons_of_mem _ hmem)
    cases r with
    | find x =>
      obtain ⟨hd, hsize', hroot'⟩ := compress_spec hs x
      obtain ⟨hd', hsame, hroots⟩ := ih (s := (s.find x).2) hd ht (hsize.trans hsize'.symm)
        (fun z => (hroot' z).trans (hroot z)) (hrest hsize')
      exact ⟨hd', hsame.trans hsize', hroots⟩
    | union x y =>
      obtain ⟨hd, hsize', hroot'⟩ := union_spec hs hr.1 hr.2
      obtain ⟨htd, htsize, htroot⟩ := union_spec ht (hsize ▸ hr.1) (hsize ▸ hr.2)
      obtain ⟨hd', hsame, hroots⟩ := ih (s := s.union x y) hd htd
        (htsize.trans (hsize.trans hsize'.symm))
        (fun z => by rw [hroot', htroot, hroot, hroot, hroot]) (hrest hsize')
      exact ⟨hd', hsame.trans hsize', hroots⟩

theorem below_of_mem_joined {rs : List Request} (hrs : ∀ r ∈ rs, r.Below n) :
    ∀ pair ∈ joined rs, pair.1 < n ∧ pair.2 < n :=
  fun _ hp => hrs _ (mem_joined.1 hp)

/-- A chain of joins connects the numbers. -/
def Connected (rs : List Request) : Nat → Nat → Prop := EqvGen fun x y => .union x y ∈ rs

theorem serveAll_singletons_spec {rs : List Request} (hrs : ∀ r ∈ rs, r.Below n) :
    ((singletons n).serveAll rs).Descends ∧ ((singletons n).serveAll rs).size = n ∧
      ∀ z, ((singletons n).serveAll rs).root z =
        ((singletons n).unionAll (joined rs)).root z := by
  have hstart := singletons_descends n
  obtain ⟨hd, hsize, hroot⟩ := serveAll_spec hstart hstart rfl (fun _ => rfl)
    (by rwa [size_singletons] : ∀ r ∈ rs, r.Below (singletons n).size)
  exact ⟨hd, hsize.trans (size_singletons n), hroot⟩

/-- Numbers have one root exactly if they are connected. -/
theorem root_serveAll_eq_iff {rs : List Request} (hrs : ∀ r ∈ rs, r.Below n) :
    ((singletons n).serveAll rs).root x = ((singletons n).serveAll rs).root y ↔
      Connected rs x y := by
  obtain ⟨-, -, hroot⟩ := serveAll_singletons_spec hrs
  obtain ⟨-, hpairs, hsound⟩ := unionAll_spec (singletons_descends n) (by
    rw [size_singletons]
    exact below_of_mem_joined hrs)
  have hclass := hsound (Quot.mk fun x y => .union x y ∈ rs)
    (fun pair hp => Quot.sound (mem_joined.1 hp)) fun z => by rw [root_singletons]
  rw [hroot, hroot]
  exact eq_iff_eqvGen (fun x y hxy => hpairs (x, y) (mem_joined.2 hxy)) hclass

/-- From singletons, after any requests: no parent is greater than its child, also on the way of a
lookup.  The two ways of a lookup end.  Numbers have one root exactly if they are connected, the
root is the smallest of them, and to look up a number changes no root. -/
theorem serveAll_partitions {rs : List Request} (hrs : ∀ r ∈ rs, r.Below n) :
    let s := (singletons n).serveAll rs
    s.size = n ∧ s.Descends ∧
      (∀ x < n, Turn.EndsIn s.climb x (s.find x).1 ∧
        Turn.EndsIn (shorten (s.find x).1) (s, x) (s.find x).2 ∧
          ∀ w, Turn.Passes (shorten (s.find x).1) (s, x) w → w.1.Descends) ∧
      (∀ x y, (s.find x).1 = (s.find y).1 ↔ Connected rs x y) ∧
      (∀ x, IsLeast {y | Connected rs x y} (s.find x).1) ∧
      ∀ x y, ((s.find x).2.find y).1 = (s.find y).1 := by
  intro s
  obtain ⟨hd, hsize, -⟩ := serveAll_singletons_spec hrs
  have hiff : ∀ x y, s.root x = s.root y ↔ Connected rs x y := fun _ _ => root_serveAll_eq_iff hrs
  refine ⟨hsize, hd, fun x hx => ?_, hiff, fun x => ⟨?_, fun y hy => ?_⟩, fun x y => ?_⟩
  · have hx : x < s.size := hsize.symm ▸ hx
    exact ⟨climb_endsIn hd hx, shorten_endsIn hd hx, fun _ => descends_of_passes hd hx⟩
  · exact (hiff x _).1 (s.root_root x).symm
  · exact Nat.le_trans (Nat.le_of_eq ((hiff x y).2 hy)) (s.root_le y)
  · exact (compress_spec hd x).2.2 y

/-- A long way is shortened by a lookup in between. -/
def longWay : List Request := [.union 4 5, .union 3 4, .union 1 3, .find 5, .union 2 0]

theorem longWay_partitioned : (∀ r ∈ longWay, r.Below 6) ∧
    ((singletons 6).serveAll longWay).parents = #[0, 1, 0, 1, 1, 1] ∧
      Turn.EndsIn ((singletons 6).serveAll longWay).climb 5 1 ∧
        Connected longWay 5 3 ∧ ¬ Connected longWay 5 2 ∧
          IsLeast {y | Connected longWay 5 y} 1 := by
  have hrs : ∀ r ∈ longWay, r.Below 6 := by simp [longWay, Request.Below]
  obtain ⟨-, -, hends, hiff, hleast, -⟩ := serveAll_partitions hrs
  have hfive : (((singletons 6).serveAll longWay).find 5).1 = 1 := by decide +kernel
  have hthree : (((singletons 6).serveAll longWay).find 3).1 = 1 := by decide +kernel
  have htwo : (((singletons 6).serveAll longWay).find 2).1 = 0 := by decide +kernel
  refine ⟨hrs, by decide +kernel, hfive ▸ (hends 5 (by decide)).1, (hiff 5 3).1
    (hfive.trans hthree.symm), fun hchain => ?_, hfive ▸ hleast 5⟩
  have heq := (hiff 5 2).2 hchain
  rw [hfive, htwo] at heq
  cases heq

end DisjointSets
end FlowPlan
