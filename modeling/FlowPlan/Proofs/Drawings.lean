import FlowPlan.Proofs.DotReading
import Std.Data.String.ToNat

/-!
What the text of a diagram declares.

The tokens of a text fall into phrases, which semicolons and braces end.  A phrase that begins with
a word declares a node or an edge, unless it says something of the graph as a whole, and a phrase
of two words opens a cluster, whose title comes next.  A diagram has the phrases of its statements
(`read_document`), so what it declares is found by going through the statements.
-/

namespace FlowPlan
namespace Dot

abbrev Phrase := List Token

def endsPhrase : Token → Bool
  | .sign c => c == ';' || c == '\x7b' || c == '\x7d'
  | _ => false

def phrases (ts : List Token) : List Phrase := ts.splitOnP endsPhrase

def keywords : List String := ["node", "edge", "graph", "subgraph", "digraph"]

/-- The lines of the string that stands under the key among some attributes. -/
def linesUnder? (key : String) : Phrase → Option (List String)
  | .word k :: .sign c :: .quoted ms :: ts =>
    if k = key ∧ c = '=' then some (lines ms) else linesUnder? key ts
  | _ :: ts => linesUnder? key ts
  | [] => none

structure Node where
  id : String
  attributes : Phrase
deriving DecidableEq, Repr

structure Edge where
  tail : String
  head : String
  attributes : Phrase
deriving DecidableEq, Repr

structure Cluster where
  id : String
  title : Option (List String)
deriving DecidableEq, Repr

def node? : Phrase → Option Node
  | .word id :: as =>
    if id ∈ keywords then none
    else match as.head? with
      | none | some (.sign '[') => some { id, attributes := as }
      | _ => none
  | _ => none

def edge? : Phrase → Option Edge
  | .word tail :: .arrow :: .word head :: as => some { tail, head, attributes := as }
  | _ => none

def cluster? : Phrase → Option String
  | [.word k, .word id] => if k = "subgraph" then some id else none
  | _ => none

def clusters : List Phrase → List Cluster
  | [] => []
  | p :: ps =>
    match cluster? p with
    | some id => { id, title := ps.head?.bind (linesUnder? "label") } :: clusters ps
    | none => clusters ps

/-- What a text declares, in the order of the text. -/
structure Drawing where
  nodes : List Node
  edges : List Edge
  clusters : List Cluster
deriving DecidableEq, Repr

def drawing (ps : List Phrase) : Drawing :=
  { nodes := ps.filterMap node?, edges := ps.filterMap edge?, clusters := clusters ps }

def read (text : String) : Option Drawing :=
  (lex text).map fun ts => drawing (phrases ts)

theorem linesUnder?_tokens (key : String) (pieces : List Piece) :
    linesUnder? key (Attribute.tokens ⟨key, .quoted pieces⟩) = some (lines (marks pieces)) :=
  if_pos ⟨rfl, rfl⟩

/-! ## Phrases of statements -/

mutual

def Statement.phrases : Statement → List Phrase
  | .blank => []
  | .setting a => [a.tokens]
  | .defaults target as => [.word target :: attributeTokens as]
  | .node id as => [.word id :: attributeTokens as]
  | .edge tail head as => [.word tail :: .arrow :: .word head :: attributeTokens as]
  | .cluster id body =>
    [.word "subgraph", .word ("cluster_" ++ id)] :: bodyPhrases body ++ [[]]

def bodyPhrases : List Statement → List Phrase
  | [] => []
  | s :: ss => s.phrases ++ bodyPhrases ss

end

theorem bodyPhrases_eq (ss : List Statement) : bodyPhrases ss = ss.flatMap Statement.phrases := by
  induction ss with
  | nil => rfl
  | cons s ss ih => rw [bodyPhrases, ih, List.flatMap_cons]

theorem endsPhrase_tokens (a : Attribute) : ∀ t ∈ a.tokens, endsPhrase t = false := by
  cases hv : a.value <;> simp [Attribute.tokens, Value.token, endsPhrase, hv]

theorem endsPhrase_attributeTokens (as : List Attribute) :
    ∀ t ∈ attributeTokens as, endsPhrase t = false := by
  cases as with
  | nil => simp [attributeTokens]
  | cons a as =>
    rw [attributeTokens, List.forall_mem_append, List.cons_append, List.forall_mem_cons,
      List.forall_mem_append]
    refine ⟨⟨rfl, endsPhrase_tokens a, fun t ht => ?_⟩, by simp [endsPhrase]⟩
    obtain ⟨b, -, ht⟩ := List.mem_flatMap.1 ht
    rcases List.mem_cons.1 ht with rfl | ht
    · rfl
    · exact endsPhrase_tokens b t ht

theorem phrases_append {p : Phrase} {t : Token} (hp : ∀ t ∈ p, endsPhrase t = false)
    (ht : endsPhrase t = true) (ts : List Token) : phrases (p ++ t :: ts) = p :: phrases ts :=
  List.splitOnP_append_cons_of_forall_mem hp t ht ts

/-- A line is a phrase. -/
theorem phrases_line (front : Phrase) (h : ∀ t ∈ front, endsPhrase t = false)
    (as : List Attribute) (ts : List Token) :
    phrases (front ++ attributeTokens as ++ .sign ';' :: ts)
      = (front ++ attributeTokens as) :: phrases ts :=
  phrases_append (List.forall_mem_append.2 ⟨h, endsPhrase_attributeTokens as⟩) rfl ts

mutual

theorem phrases_statement (s : Statement) (ts : List Token) :
    phrases (s.tokens ++ ts) = s.phrases ++ phrases ts := by
  cases s with
  | blank => rw [Statement.tokens, Statement.phrases, List.nil_append, List.nil_append]
  | setting a =>
    have hline := phrases_append (endsPhrase_tokens a) (t := .sign ';') rfl ts
    simpa [Statement.tokens, Statement.phrases] using hline
  | defaults target as =>
    have hline := phrases_line [.word target] (by simp [endsPhrase]) as ts
    simpa [Statement.tokens, Statement.phrases] using hline
  | node id as =>
    have hline := phrases_line [.word id] (by simp [endsPhrase]) as ts
    simpa [Statement.tokens, Statement.phrases] using hline
  | edge tail head as =>
    have hline := phrases_line [.word tail, .arrow, .word head] (by simp [endsPhrase]) as ts
    simpa [Statement.tokens, Statement.phrases] using hline
  | cluster id body =>
    have hopen := phrases_append (p := [.word "subgraph", .word ("cluster_" ++ id)])
      (t := .sign '\x7b') (by simp [endsPhrase]) rfl (bodyTokens body ++ .sign '\x7d' :: ts)
    have hclose := phrases_append (p := []) (t := .sign '\x7d') (by simp) rfl ts
    rw [phrases_body body, ← List.nil_append (Token.sign '\x7d' :: ts), hclose] at hopen
    simpa [Statement.tokens, Statement.phrases] using hopen
termination_by sizeOf s

theorem phrases_body (ss : List Statement) (ts : List Token) :
    phrases (bodyTokens ss ++ ts) = bodyPhrases ss ++ phrases ts := by
  cases ss with
  | nil => rw [bodyTokens, bodyPhrases, List.nil_append, List.nil_append]
  | cons s ss =>
    rw [bodyTokens, bodyPhrases, List.append_assoc, phrases_statement s, phrases_body ss,
      List.append_assoc]
termination_by sizeOf ss

end

/-! ## Declarations -/

namespace Drawing

def empty : Drawing := ⟨[], [], []⟩

instance : Append Drawing :=
  ⟨fun d d' => ⟨d.nodes ++ d'.nodes, d.edges ++ d'.edges, d.clusters ++ d'.clusters⟩⟩

theorem append_def (d d' : Drawing) :
    d ++ d' = ⟨d.nodes ++ d'.nodes, d.edges ++ d'.edges, d.clusters ++ d'.clusters⟩ := rfl

theorem empty_append (d : Drawing) : empty ++ d = d := rfl

theorem append_empty (d : Drawing) : d ++ empty = d := by
  rw [append_def]
  simp [empty]

theorem append_assoc (d e f : Drawing) : d ++ e ++ f = d ++ (e ++ f) := by
  simp [append_def]

/-- What is drawn for several things, one after the other. -/
def join {α : Type} (xs : List α) (f : α → Drawing) : Drawing :=
  ⟨xs.flatMap fun x => (f x).nodes, xs.flatMap fun x => (f x).edges,
    xs.flatMap fun x => (f x).clusters⟩

end Drawing

/-- The phrases declare this, whatever comes behind them. -/
def Declares (ps : List Phrase) (d : Drawing) : Prop := ∀ qs, drawing (ps ++ qs) = d ++ drawing qs

namespace Declares

variable {ps qs : List Phrase} {d e : Drawing}

theorem nil : Declares [] .empty := fun _ => rfl

theorem append (hps : Declares ps d) (hqs : Declares qs e) : Declares (ps ++ qs) (d ++ e) := by
  intro rs
  rw [List.append_assoc, hps, hqs, Drawing.append_assoc]

theorem flatMap {α : Type} {f : α → List Phrase} {g : α → Drawing} {xs : List α}
    (h : ∀ x ∈ xs, Declares (f x) (g x)) : Declares (xs.flatMap f) (.join xs g) := by
  induction xs with
  | nil => exact nil
  | cons x xs ih =>
    rw [List.forall_mem_cons] at h
    exact h.1.append (ih h.2)

theorem nodes {α : Type} {f : α → List Phrase} {n : α → Node} {xs : List α}
    (h : ∀ x ∈ xs, Declares (f x) ⟨[n x], [], []⟩) :
    Declares (xs.flatMap f) ⟨xs.map n, [], []⟩ := by
  have hjoin : Drawing.join xs (fun x => ⟨[n x], [], []⟩) = ⟨xs.map n, [], []⟩ := by
    simp [Drawing.join, List.map_eq_flatMap]
  exact hjoin ▸ flatMap h

theorem edges {α : Type} {f : α → List Phrase} {e : α → Edge} {xs : List α}
    (h : ∀ x ∈ xs, Declares (f x) ⟨[], [e x], []⟩) :
    Declares (xs.flatMap f) ⟨[], xs.map e, []⟩ := by
  have hjoin : Drawing.join xs (fun x => ⟨[], [e x], []⟩) = ⟨[], xs.map e, []⟩ := by
    simp [Drawing.join, List.map_eq_flatMap]
  exact hjoin ▸ flatMap h

/-- A phrase that opens no cluster declares at most a node or an edge. -/
theorem single {p : Phrase} {n : Option Node} {e : Option Edge} (hnode : node? p = n)
    (hedge : edge? p = e) (hcluster : cluster? p = none) :
    Declares [p] ⟨n.toList, e.toList, []⟩ := by
  intro qs
  rw [List.singleton_append, Drawing.append_def, drawing, clusters, hcluster]
  cases n <;> cases e <;> simp [drawing, hnode, hedge]

theorem setting (a : Attribute) : Declares [a.tokens] .empty :=
  single (n := none) (e := none) (by simp [node?, Attribute.tokens]) rfl rfl

theorem closing : Declares [[]] .empty := single (n := none) (e := none) rfl rfl rfl

theorem node {id : String} (h : id ∉ keywords) (as : List Attribute) :
    Declares [.word id :: attributeTokens as] ⟨[⟨id, attributeTokens as⟩], [], []⟩ := by
  have hnode : node? (.word id :: attributeTokens as) = some ⟨id, attributeTokens as⟩ := by
    cases as <;> simp [node?, attributeTokens, h]
  have hedge : edge? (.word id :: attributeTokens as) = none := by cases as <;> rfl
  have hcluster : cluster? (.word id :: attributeTokens as) = none := by cases as <;> rfl
  exact single hnode hedge hcluster

theorem edge (tail head : String) (as : List Attribute) :
    Declares [.word tail :: .arrow :: .word head :: attributeTokens as]
      ⟨[], [⟨tail, head, attributeTokens as⟩], []⟩ :=
  single (n := none) (e := some ⟨tail, head, attributeTokens as⟩) (by simp [node?]) rfl rfl

/-- A cluster with the title that stands first in it. -/
theorem cluster {p : Phrase} (id : String) (hp : Declares [p] .empty) (hps : Declares ps d) :
    Declares ([.word "subgraph", .word id] :: p :: ps)
      (⟨[], [], [⟨id, linesUnder? "label" p⟩]⟩ ++ d) := by
  intro qs
  have hrest : drawing (p :: (ps ++ qs)) = d ++ drawing qs := by
    have hrest := (hp.append hps) qs
    rwa [Drawing.empty_append, List.singleton_append, List.cons_append] at hrest
  have hopen : drawing ([.word "subgraph", .word id] :: p :: (ps ++ qs))
      = ⟨[], [], [⟨id, linesUnder? "label" p⟩]⟩ ++ drawing (p :: (ps ++ qs)) := rfl
  rw [List.cons_append, List.cons_append, hopen, hrest, Drawing.append_assoc]

end Declares

/-- What a document declares is what its statements do. -/
theorem read_document {name : String} {body : List Statement} {d : Drawing} (hname : IsWord name)
    (h : ∀ s ∈ body, s.IsPlain) (hd : Declares (bodyPhrases body) d) :
    read (document name body) = some d := by
  have hopen := phrases_append (p := [.word "digraph", .word name]) (t := .sign '\x7b')
    (by simp [endsPhrase]) rfl (bodyTokens (header ++ body) ++ [.sign '\x7d'])
  have hclose : phrases [.sign '\x7d'] = [[], []] := rfl
  have hphrases : phrases (documentTokens name body)
      = [.word "digraph", .word name]
        :: (bodyPhrases header ++ (bodyPhrases body ++ [[], []])) := by
    rw [phrases_body, hclose, bodyPhrases_eq, List.flatMap_append, ← bodyPhrases_eq,
      ← bodyPhrases_eq, List.append_assoc] at hopen
    exact hopen
  have hdigraph : Declares [[.word "digraph", .word name]] .empty :=
    .single (n := none) (e := none) rfl rfl rfl
  have hheader : Declares (bodyPhrases header) .empty := fun _ => rfl
  have hend : drawing [[], []] = .empty := rfl
  have hall := (hdigraph.append (hheader.append hd)) [[], []]
  rw [hend, Drawing.append_empty, Drawing.empty_append, Drawing.empty_append,
    List.singleton_append, List.cons_append, List.append_assoc] at hall
  rw [read, lex_document hname h, Option.map_some, hphrases, hall]

/-! ## Numbered names -/

theorem toList_numbered (s : String) (n : Nat) :
    (s ++ toString n).toList = s.toList ++ Nat.toDigits 10 n := by
  rw [String.toList_append, Nat.toString_eq_repr, Nat.toList_repr]

theorem numbered_injective (s : String) : Function.Injective fun n : Nat => s ++ toString n := by
  intro m n h
  exact Nat.repr_inj.1 ((String.append_right_inj s).1 h)

theorem isDigit_of_mem_toDigits {n : Nat} {c : Char} (hc : c ∈ Nat.toDigits 10 n) :
    c.isDigit = true := Nat.isDigit_of_mem_toDigits (by decide) (by decide) hc

theorem isWordChar_of_isDigit {c : Char} (h : c.isDigit = true) : isWordChar c = true := by
  simp [isWordChar, Char.isAlphanum, h]

theorem isWord_numbered {s : String} (h : s.toList.all isWordChar = true) (n : Nat) :
    IsWord (s ++ toString n) where
  ne := by
    rw [toList_numbered]
    exact List.append_ne_nil_of_right_ne_nil _ Nat.toDigits_ne_nil
  chars := by
    rw [toList_numbered, List.all_append, h]
    exact List.all_eq_true.2 fun c hc => isWordChar_of_isDigit (isDigit_of_mem_toDigits hc)

/-- No keyword has a digit. -/
theorem numbered_notMem_keywords (s : String) (n : Nat) : s ++ toString n ∉ keywords := by
  intro hmem
  have hletters : keywords.all (fun k => !k.toList.any (·.isDigit)) = true := by decide
  have hnone := List.all_eq_true.1 hletters _ hmem
  obtain ⟨c, hc⟩ := List.exists_mem_of_ne_nil _ (Nat.toDigits_ne_nil (n := n) (b := 10))
  rw [toList_numbered, List.any_append, Bool.not_eq_true', Bool.or_eq_false_iff] at hnone
  have hsome := List.any_eq_true.2 ⟨c, hc, isDigit_of_mem_toDigits hc⟩
  rw [hnone.2] at hsome
  cases hsome

end Dot
end FlowPlan
