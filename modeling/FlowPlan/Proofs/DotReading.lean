import FlowPlan.Diagram.Dot
import Mathlib.Data.List.Induction

/-!
Reading DOT text.

The reader goes through a text once and knows nothing of how it was written.  Between quotes a
backslash takes the next character with it, and a quote that is not taken along ends the string.
A diagram is read as the tokens of its statements (`lex_document`): each of its strings ends where
the writer ended it, whatever text the string was made of, and the text can be had back from what
was read (`lines_marks`).
-/

namespace FlowPlan
namespace Dot

/-- A character between quotes; a backslash may have taken it along. -/
inductive Mark
  | plain (c : Char)
  | escaped (c : Char)
deriving DecidableEq, Repr

inductive Token
  | word (s : String)
  | quoted (marks : List Mark)
  | sign (c : Char)
  | arrow
deriving DecidableEq, Repr

/-- Where the reader is, with what it has read of the current token. -/
inductive Mode
  | between
  | inWord (front : List Char)
  | behindDash
  | inQuotes (front : List Mark)
  | behindBackslash (front : List Mark)
deriving DecidableEq, Repr

def isBlank (c : Char) : Bool := c == ' ' || c == '\n'

def signs : List Char := ['\x7b', '\x7d', '[', ']', ';', ',', '=']

def isSign (c : Char) : Bool := signs.contains c

def isWordChar (c : Char) : Bool := c.isAlphanum || c == '_'

/-- Read a character that begins something. -/
def start (c : Char) : Option (List Token × Mode) :=
  if isBlank c then some ([], .between)
  else if c = '"' then some ([], .inQuotes [])
  else if c = '-' then some ([], .behindDash)
  else if isSign c then some ([.sign c], .between)
  else if isWordChar c then some ([], .inWord [c])
  else none

/-- Read one character: the tokens that are complete with it, and the next mode. -/
def step : Mode → Char → Option (List Token × Mode)
  | .between, c => start c
  | .inWord w, c =>
    if isWordChar c then some ([], .inWord (w ++ [c]))
    else (start c).map fun q => (.word (String.ofList w) :: q.1, q.2)
  | .behindDash, c => if c = '>' then some ([.arrow], .between) else none
  | .inQuotes ms, c =>
    if c = '\\' then some ([], .behindBackslash ms)
    else if c = '"' then some ([.quoted ms], .between)
    else some ([], .inQuotes (ms ++ [.plain c]))
  | .behindBackslash ms, c => some ([], .inQuotes (ms ++ [.escaped c]))

def run : Mode → List Char → Option (List Token × Mode)
  | m, [] => some ([], m)
  | m, c :: cs =>
    (step m c).bind fun q => (run q.2 cs).map fun r => (q.1 ++ r.1, r.2)

/-- The tokens of a text in which every string is closed. -/
def lex (text : String) : Option (List Token) :=
  match run .between text.toList with
  | some (ts, .between) => some ts
  | some (ts, .inWord w) => some (ts ++ [.word (String.ofList w)])
  | _ => none

/-! ## Runs of the reader -/

/-- Some characters complete some tokens and take the reader from one mode to another. -/
def Reads (m : Mode) (cs : List Char) (ts : List Token) (k : Mode) : Prop := run m cs = some (ts, k)

theorem Reads.append {m k l : Mode} {xs ys : List Char} {ts us : List Token}
    (hxs : Reads m xs ts k) (hys : Reads k ys us l) : Reads m (xs ++ ys) (ts ++ us) l := by
  induction xs generalizing m ts with
  | nil =>
    obtain ⟨rfl, rfl⟩ := Prod.mk.inj (Option.some.inj hxs)
    exact hys
  | cons c cs ih =>
    rw [Reads, run, Option.bind_eq_some_iff] at hxs
    obtain ⟨q, hq, hrest⟩ := hxs
    rw [Option.map_eq_some_iff] at hrest
    obtain ⟨⟨vs, k'⟩, hvs, heq⟩ := hrest
    obtain ⟨rfl, rfl⟩ := Prod.mk.inj heq
    have hrun : run q.2 (cs ++ ys) = some (vs ++ us, l) := ih hvs
    rw [Reads, List.cons_append, run, hq, Option.bind_some, hrun, Option.map_some,
      List.append_assoc]

theorem reads_nil (m : Mode) : Reads m [] [] m := rfl

theorem reads_single {m k : Mode} {c : Char} {ts : List Token} :
    Reads m [c] ts k ↔ step m c = some (ts, k) := by
  rw [Reads, run]
  cases step m c <;> simp [run, Prod.ext_iff]

theorem reads_blanks {cs : List Char} (h : cs.all isBlank = true) :
    Reads .between cs [] .between := by
  induction cs with
  | nil => exact reads_nil _
  | cons c cs ih =>
    rw [List.all_cons, Bool.and_eq_true] at h
    have hc : step .between c = some ([], .between) := by rw [step, start, if_pos h.1]
    exact (reads_single.2 hc).append (ih h.2)

/-- A sign is nothing else. -/
theorem of_isSign {c : Char} (h : isSign c = true) :
    isBlank c = false ∧ c ≠ '"' ∧ c ≠ '-' ∧ isWordChar c = false := by
  have hall : signs.all (fun c => !isBlank c && c != '"' && c != '-' && !isWordChar c) = true := rfl
  simpa [and_assoc] using List.all_eq_true.1 hall c (List.contains_iff_mem.1 h)

theorem reads_sign {c : Char} (h : isSign c = true) : Reads .between [c] [.sign c] .between := by
  obtain ⟨hblank, hquote, hdash, -⟩ := of_isSign h
  refine reads_single.2 ?_
  rw [step, start, if_neg (by simp [hblank]), if_neg hquote, if_neg hdash, if_pos h]

/-! ## Words -/

/-- Letters, digits and underscores, one at least. -/
structure IsWord (s : String) : Prop where
  ne : s.toList ≠ []
  chars : s.toList.all isWordChar = true

instance (s : String) : Decidable (IsWord s) :=
  decidable_of_iff (s.toList ≠ [] ∧ s.toList.all isWordChar = true)
    ⟨fun h => ⟨h.1, h.2⟩, fun h => ⟨h.ne, h.chars⟩⟩

theorem reads_wordChars {w cs : List Char} (h : cs.all isWordChar = true) :
    Reads (.inWord w) cs [] (.inWord (w ++ cs)) := by
  induction cs generalizing w with
  | nil => simpa using reads_nil _
  | cons c cs ih =>
    rw [List.all_cons, Bool.and_eq_true] at h
    have hc : step (.inWord w) c = some ([], .inWord (w ++ [c])) := by rw [step, if_pos h.1]
    simpa using (reads_single.2 hc).append (ih (w := w ++ [c]) h.2)

/-- A word character begins nothing but a word. -/
theorem start_of_isWordChar {c : Char} (h : isWordChar c = true) :
    start c = some ([], .inWord [c]) := by
  have hblank : ¬ isBlank c = true := by
    rw [isBlank, Bool.or_eq_true, beq_iff_eq, beq_iff_eq]
    rintro (rfl | rfl) <;> cases h
  have hquote : c ≠ '"' := by
    rintro rfl
    cases h
  have hdash : c ≠ '-' := by
    rintro rfl
    cases h
  have hsign : ¬ isSign c = true := fun hsign => by simp [(of_isSign hsign).2.2.2] at h
  rw [start, if_neg hblank, if_neg hquote, if_neg hdash, if_neg hsign, if_pos h]

theorem reads_word {s : String} (h : IsWord s) : Reads .between s.toList [] (.inWord s.toList) := by
  obtain ⟨c, cs, hcs⟩ := List.exists_cons_of_ne_nil h.ne
  have hchars := h.chars
  rw [hcs, List.all_cons, Bool.and_eq_true] at hchars
  rw [hcs]
  have hc : step .between c = some ([], .inWord [c]) := start_of_isWordChar hchars.1
  exact (reads_single.2 hc).append (reads_wordChars hchars.2)

/-- A word ends where something else begins. -/
theorem reads_behind_word (w : String) {c : Char} {ts : List Token} {k : Mode}
    (hc : isWordChar c = false) (h : Reads .between [c] ts k) :
    Reads (.inWord w.toList) [c] (.word w :: ts) k := by
  have hstart : start c = some (ts, k) := reads_single.1 h
  refine reads_single.2 ?_
  rw [step, if_neg (by simp [hc]), hstart, String.ofList_toList]
  rfl

theorem reads_space (w : String) : Reads (.inWord w.toList) [' '] [.word w] .between := by
  have hspace : Reads .between [' '] [] .between := rfl
  exact reads_behind_word w rfl hspace

/-- The characters are read as the tokens if a sign follows, without which a word does not end. -/
def IsReadAs (cs : List Char) (ts : List Token) : Prop :=
  ∀ c, isSign c = true → Reads .between (cs ++ [c]) (ts ++ [.sign c]) .between

theorem isReadAs_word {s : String} (h : IsWord s) : IsReadAs s.toList [.word s] := by
  intro c hc
  exact (reads_word h).append (reads_behind_word s (of_isSign hc).2.2.2 (reads_sign hc))

/-! ## Strings -/

def Mark.char : Mark → Char
  | plain c => c
  | escaped c => c

/-- How a character of the text is read again. -/
def markOf (c : Char) : Mark := if c = '\\' ∨ c = '"' then .escaped c else .plain c

namespace Piece

def marks : Piece → List Mark
  | text s => s.toList.map markOf
  | lineBreak => [.escaped 'n']

theorem reads_marks (p : Piece) (ms : List Mark) :
    Reads (.inQuotes ms) p.render.toList [] (.inQuotes (ms ++ p.marks)) := by
  cases p with
  | lineBreak => rfl
  | text s =>
    have hchar : ∀ ms c, Reads (.inQuotes ms) (escapeChar c) [] (.inQuotes (ms ++ [markOf c])) := by
      intro ms c
      by_cases hc : c = '\\' ∨ c = '"'
      · rw [escapeChar, markOf, if_pos hc, if_pos hc]
        rfl
      · rw [escapeChar, markOf, if_neg hc, if_neg hc, reads_single, step]
        rw [not_or] at hc
        rw [if_neg hc.1, if_neg hc.2]
    rw [render, escape, String.toList_ofList, marks]
    induction s.toList generalizing ms with
    | nil => simpa using reads_nil _
    | cons c cs ih => simpa using (hchar ms c).append (ih (ms ++ [markOf c]))

end Piece

/-- What the pieces of a string are read as. -/
def marks (pieces : List Piece) : List Mark := pieces.flatMap Piece.marks

theorem reads_pieces (pieces : List Piece) (ms : List Mark) :
    Reads (.inQuotes ms) (pieces.map Piece.render |>.flatMap String.toList) []
      (.inQuotes (ms ++ marks pieces)) := by
  induction pieces generalizing ms with
  | nil => simpa [marks] using reads_nil _
  | cons p ps ih => simpa [marks] using (p.reads_marks ms).append (ih (ms ++ p.marks))

/-- The lines of a string, without the backslashes. -/
def lines (ms : List Mark) : List String :=
  (ms.splitOnP (· == .escaped 'n')).map fun line => String.ofList (line.map Mark.char)

/-- A text has no line break in it, whatever it consists of. -/
theorem marks_text_ne (s : String) : ∀ m ∈ (Piece.text s).marks, (m == .escaped 'n') = false := by
  intro m hm
  obtain ⟨c, -, rfl⟩ := List.mem_map.1 hm
  rw [markOf]
  split_ifs with hc
  · rcases hc with rfl | rfl <;> decide
  · rfl

/-- A text is had back by leaving out the backslashes that were put in. -/
theorem map_char_marks (s : String) : String.ofList ((Piece.text s).marks.map Mark.char) = s := by
  have hchar : Mark.char ∘ markOf = id := by
    funext c
    rw [Function.comp_apply, markOf]
    split_ifs <;> rfl
  rw [Piece.marks, List.map_map, hchar, List.map_id, String.ofList_toList]

theorem lines_text (s : String) : lines (marks [.text s]) = [s] := by
  have hmarks : marks [.text s] = (Piece.text s).marks := List.append_nil _
  rw [hmarks, lines, List.splitOnP_eq_singleton (marks_text_ne s), List.map_singleton,
    map_char_marks]

theorem lines_break (s : String) (pieces : List Piece) :
    lines (marks (.text s :: .lineBreak :: pieces)) = s :: lines (marks pieces) := by
  have hmarks : marks (.text s :: .lineBreak :: pieces)
      = (Piece.text s).marks ++ .escaped 'n' :: marks pieces := rfl
  rw [hmarks, lines, List.splitOnP_append_cons_of_forall_mem (marks_text_ne s) _ (by decide),
    List.map_cons, map_char_marks]
  rfl

theorem marks_text_text (s t : String) (pieces : List Piece) :
    marks (.text s :: .text t :: pieces) = marks (.text (s ++ t) :: pieces) := by
  simp [marks, Piece.marks]

/-! ## Statements -/

namespace Value

def IsPlain : Value → Prop
  | word s => IsWord s
  | quoted _ => True

def token : Value → Token
  | word s => .word s
  | quoted pieces => .quoted (marks pieces)

theorem isReadAs {v : Value} (h : v.IsPlain) : IsReadAs v.render.toList [v.token] := by
  cases v with
  | word s => exact isReadAs_word h
  | quoted pieces =>
    intro c hc
    have hopen : Reads .between ['"'] [] (.inQuotes []) := rfl
    have hclose : Reads (.inQuotes (marks pieces)) ['"'] [.quoted (marks pieces)] .between := rfl
    have hquoted := (hopen.append (reads_pieces pieces [])).append (hclose.append (reads_sign hc))
    simpa [render, token, String.toList_join] using hquoted

end Value

namespace Attribute

structure IsPlain (a : Attribute) : Prop where
  key : IsWord a.key
  value : a.value.IsPlain

def tokens (a : Attribute) : List Token := [.word a.key, .sign '=', a.value.token]

theorem IsPlain.word {key s : String} (hkey : IsWord key) (hs : IsWord s) :
    IsPlain ⟨key, .word s⟩ := ⟨hkey, hs⟩

theorem IsPlain.quoted {key : String} (hkey : IsWord key) (pieces : List Piece) :
    IsPlain ⟨key, .quoted pieces⟩ := ⟨hkey, trivial⟩

theorem isReadAs {a : Attribute} (h : a.IsPlain) : IsReadAs a.render.toList a.tokens := by
  intro c hc
  have hkey := isReadAs_word h.key '=' (by decide)
  simpa [render, tokens, toString] using hkey.append (Value.isReadAs h.value c hc)

end Attribute

def attributeTokens : List Attribute → List Token
  | [] => []
  | a :: as => .sign '[' :: a.tokens ++ as.flatMap (fun a => .sign ',' :: a.tokens) ++ [.sign ']']

theorem isReadAs_intercalate {a : Attribute} {as : List Attribute} (ha : a.IsPlain)
    (has : ∀ a ∈ as, a.IsPlain) :
    IsReadAs (String.intercalate ", " ((a :: as).map Attribute.render)).toList
      (a.tokens ++ as.flatMap fun a => .sign ',' :: a.tokens) := by
  induction as generalizing a with
  | nil => simpa using Attribute.isReadAs ha
  | cons b bs ih =>
    intro c hc
    rw [List.forall_mem_cons] at has
    have hfirst := Attribute.isReadAs ha ',' (by decide)
    have hblank : Reads .between [' '] [] .between := rfl
    have hrest := hfirst.append (hblank.append (ih has.1 has.2 c hc))
    simpa [String.intercalate_cons_cons] using hrest

/-- The line of a statement, from its last word on. -/
theorem reads_line {cs : List Char} {ts : List Token} {w : String} {as : List Attribute}
    (h : Reads .between cs ts (.inWord w.toList)) (has : ∀ a ∈ as, a.IsPlain) :
    Reads .between (cs ++ (renderAttributes as).toList ++ [';', '\n'])
      (ts ++ .word w :: attributeTokens as ++ [.sign ';']) .between := by
  have hend : Reads .between [';', '\n'] [.sign ';'] .between := rfl
  cases as with
  | nil =>
    have hword := reads_behind_word w (c := ';') rfl (reads_sign rfl)
    have hline : Reads .between ['\n'] [] .between := rfl
    simpa [renderAttributes, attributeTokens] using h.append (hword.append hline)
  | cons a as =>
    rw [List.forall_mem_cons] at has
    have hopen := reads_sign (c := '[') rfl
    have has := isReadAs_intercalate has.1 has.2 ']' rfl
    simpa [renderAttributes, attributeTokens]
      using h.append ((reads_space w).append (hopen.append (has.append hend)))

mutual

/-- What stands outside of the quotes are words. -/
def Statement.IsPlain : Statement → Prop
  | .blank => True
  | .setting a => a.IsPlain
  | .defaults target as => IsWord target ∧ ∀ a ∈ as, a.IsPlain
  | .node id as => IsWord id ∧ ∀ a ∈ as, a.IsPlain
  | .edge tail head as => IsWord tail ∧ IsWord head ∧ ∀ a ∈ as, a.IsPlain
  | .cluster id body => IsWord id ∧ bodyIsPlain body

def bodyIsPlain : List Statement → Prop
  | [] => True
  | s :: ss => s.IsPlain ∧ bodyIsPlain ss

end

mutual

def Statement.tokens : Statement → List Token
  | .blank => []
  | .setting a => a.tokens ++ [.sign ';']
  | .defaults target as => .word target :: attributeTokens as ++ [.sign ';']
  | .node id as => .word id :: attributeTokens as ++ [.sign ';']
  | .edge tail head as => .word tail :: .arrow :: .word head :: attributeTokens as ++ [.sign ';']
  | .cluster id body =>
    .word "subgraph" :: .word ("cluster_" ++ id) :: .sign '\x7b' :: bodyTokens body
      ++ [.sign '\x7d']

def bodyTokens : List Statement → List Token
  | [] => []
  | s :: ss => s.tokens ++ bodyTokens ss

end

theorem bodyIsPlain_iff {ss : List Statement} : bodyIsPlain ss ↔ ∀ s ∈ ss, s.IsPlain := by
  induction ss with
  | nil => simp [bodyIsPlain]
  | cons s ss ih => rw [bodyIsPlain, ih, List.forall_mem_cons]

theorem IsWord.append {s t : String} (hs : IsWord s) (ht : IsWord t) : IsWord (s ++ t) where
  ne := by simp [hs.ne]
  chars := by rw [String.toList_append, List.all_append, hs.chars, ht.chars, Bool.and_self]

theorem isBlank_indent {indent : String} (h : indent.toList.all isBlank = true) :
    (indent ++ "    ").toList.all isBlank = true := by
  rw [String.toList_append, List.all_append, h]
  rfl

mutual

theorem reads_statement {s : Statement} (h : s.IsPlain) {indent : String}
    (hindent : indent.toList.all isBlank = true) :
    Reads .between (s.render indent).toList s.tokens .between := by
  have hblanks := reads_blanks hindent
  cases s with
  | blank =>
    rw [Statement.render, Statement.tokens]
    exact reads_blanks (by decide)
  | setting a =>
    have hend : Reads .between ['\n'] [] .between := rfl
    rw [Statement.IsPlain] at h
    simpa [Statement.render, Statement.tokens, toString]
      using hblanks.append ((Attribute.isReadAs h ';' rfl).append hend)
  | defaults target as =>
    rw [Statement.IsPlain] at h
    simpa [Statement.render, Statement.tokens, toString]
      using hblanks.append (reads_line (reads_word h.1) h.2)
  | node id as =>
    rw [Statement.IsPlain] at h
    simpa [Statement.render, Statement.tokens, toString]
      using hblanks.append (reads_line (reads_word h.1) h.2)
  | edge tail head as =>
    rw [Statement.IsPlain] at h
    have harrow : Reads .between ['-', '>', ' '] [.arrow] .between := rfl
    have hwords := (reads_word h.1).append
      ((reads_space tail).append (harrow.append (reads_word h.2.1)))
    simpa [Statement.render, Statement.tokens, toString]
      using hblanks.append (reads_line hwords h.2.2)
  | cluster id body =>
    rw [Statement.IsPlain] at h
    have hid : IsWord ("cluster_" ++ id) := IsWord.append ⟨by decide, by decide⟩ h.1
    have hopen : Reads .between "subgraph ".toList [.word "subgraph"] .between := rfl
    have hname := (reads_word hid).append (reads_space ("cluster_" ++ id))
    have hbrace : Reads .between ['\x7b', '\n'] [.sign '\x7b'] .between := rfl
    have hbody := reads_body h.2 (isBlank_indent hindent)
    have hclose : Reads .between ['\x7d', '\n'] [.sign '\x7d'] .between := rfl
    have hhead := hblanks.append (hopen.append (hname.append hbrace))
    have hall := hhead.append (hbody.append (hblanks.append hclose))
    simpa [Statement.render, Statement.tokens, toString] using hall
termination_by sizeOf s

theorem reads_body {ss : List Statement} (h : bodyIsPlain ss) {indent : String}
    (hindent : indent.toList.all isBlank = true) :
    Reads .between (renderBody indent ss).toList (bodyTokens ss) .between := by
  cases ss with
  | nil => rfl
  | cons s ss =>
    rw [bodyIsPlain] at h
    rw [renderBody, String.toList_append, bodyTokens]
    exact (reads_statement h.1 hindent).append (reads_body h.2 hindent)
termination_by sizeOf ss

end

/-- The tokens of a whole diagram. -/
def documentTokens (name : String) (body : List Statement) : List Token :=
  .word "digraph" :: .word name :: .sign '\x7b' :: bodyTokens (header ++ body) ++ [.sign '\x7d']

theorem header_isPlain : ∀ s ∈ header, s.IsPlain := by
  simp only [header, Value.string, List.forall_mem_cons, Statement.IsPlain]
  refine ⟨.word (by decide) (by decide), ⟨by decide, ?_⟩, ⟨by decide, ?_⟩, by simp⟩
  all_goals
    exact ⟨.quoted (by decide) _, .word (by decide) (by decide), by simp⟩

/-- A diagram is read as the tokens of its statements. -/
theorem lex_document {name : String} {body : List Statement} (hname : IsWord name)
    (h : ∀ s ∈ body, s.IsPlain) : lex (document name body) = some (documentTokens name body) := by
  have hindent : "    ".toList.all isBlank = true := by decide
  have hplain := bodyIsPlain_iff.2 (List.forall_mem_append.2 ⟨header_isPlain, h⟩)
  have hopen : Reads .between "digraph ".toList [.word "digraph"] .between := rfl
  have hbrace : Reads .between ['\x7b', '\n'] [.sign '\x7b'] .between := rfl
  have hclose : Reads .between ['\x7d', '\n'] [.sign '\x7d'] .between := rfl
  have hhead := hopen.append ((reads_word hname).append ((reads_space name).append hbrace))
  have hall := hhead.append ((reads_body hplain hindent).append hclose)
  have hread : Reads .between (document name body).toList (documentTokens name body) .between := by
    simpa [document, documentTokens, toString] using hall
  rw [Reads] at hread
  rw [lex, hread]

end Dot
end FlowPlan
