import FlowPlan.Json.Reader
import FlowPlan.Json.Writer
import Mathlib.Data.List.TakeWhile

/-!
Reading what was written.

The written form of a value ends where the value does, so the reader gives the value back whatever
follows (`readValue_write`), given as many steps as there are characters.  A number ends only where
something else begins, and the values here are those that hold no number; nothing else is assumed,
and a string may hold any characters.  What is written has no control character in it, since a
string is written without those it holds (`write_printable`).
-/

namespace FlowPlan
namespace Json

mutual

def hasNoNumber : Json → Bool
  | number _ => false
  | array items => itemsHaveNoNumber items
  | object members => membersHaveNoNumber members
  | _ => true

def itemsHaveNoNumber : List Json → Bool
  | [] => true
  | v :: vs => v.hasNoNumber && itemsHaveNoNumber vs

def membersHaveNoNumber : List (JsonText × Json) → Bool
  | [] => true
  | (_, v) :: ms => v.hasNoNumber && membersHaveNoNumber ms

end

/-! ## Strings -/

theorem hexValue?_hexDigit : ∀ n < 16, hexValue? (hexDigit n) = some n := by decide

/-- What follows a piece, with the piece in front of it. -/
def behind (p : Piece) (q : List Piece × List Char) : List Piece × List Char := (p :: q.1, q.2)

theorem bind_behind (p : Piece) (read : Option (List Piece × List Char)) :
    (read.bind fun q => some (p :: q.1, q.2)) = read.map (behind p) := by
  cases read <;> rfl

theorem pieces_short {e c : Char} (h : unescape? e = some c) (rest : List Char) :
    pieces ('\\' :: e :: rest) = (pieces rest).map (behind (.char c)) := by
  have hne : e ≠ 'u' := by
    rintro rfl
    cases h
  simp [pieces, hne, h, bind_behind]

theorem pieces_unit {a b c d : Char} {n : Nat} (h : unit? a b c d = some n) (rest : List Char) :
    pieces ('\\' :: 'u' :: a :: b :: c :: d :: rest) = (pieces rest).map (behind (.unit n)) := by
  simp [pieces, h, bind_behind]

theorem pieces_plain {c : Char} (hquote : c ≠ '"') (hslash : c ≠ '\\') (h : ¬ c.toNat < 0x20)
    (rest : List Char) : pieces (c :: rest) = (pieces rest).map (behind (.char c)) := by
  simp [pieces, hslash, h, bind_behind]

theorem unit?_control {n : Nat} (h : n < 0x20) :
    unit? '0' '0' (hexDigit (n / 16)) (hexDigit (n % 16)) = some n := by
  have hzero : hexValue? '0' = some 0 := by decide
  rw [unit?, hzero, hexValue?_hexDigit _ (by omega), hexValue?_hexDigit _ (by omega)]
  show some (((0 * 16 + 0) * 16 + n / 16) * 16 + n % 16) = some n
  rw [Option.some.injEq]
  omega

/-- A character is written as one piece, which stands for the character again. -/
theorem exists_piece (c : Char) : ∃ p : Piece,
    (∀ rest, pieces (escapeChar c ++ rest) = (pieces rest).map (behind p)) ∧
      ∀ ps, assemble (p :: ps) = (assemble ps).map (c :: ·) := by
  have plain : ∀ ps, assemble (.char c :: ps) = (assemble ps).map (c :: ·) := fun ps => rfl
  have short : ∀ e, unescape? e = some c → ∀ rest, pieces (['\\', e] ++ rest)
      = (pieces rest).map (behind (.char c)) := fun e he rest => pieces_short he rest
  unfold escapeChar
  split_ifs with hquote hslash hb hf hn hr ht hcontrol
  · exact ⟨.char c, short '"' (by rw [hquote]; rfl), plain⟩
  · exact ⟨.char c, short '\\' (by rw [hslash]; rfl), plain⟩
  · exact ⟨.char c, short 'b' (by rw [hb]; rfl), plain⟩
  · exact ⟨.char c, short 'f' (by rw [hf]; rfl), plain⟩
  · exact ⟨.char c, short 'n' (by rw [hn]; rfl), plain⟩
  · exact ⟨.char c, short 'r' (by rw [hr]; rfl), plain⟩
  · exact ⟨.char c, short 't' (by rw [ht]; rfl), plain⟩
  · refine ⟨.unit c.toNat, fun rest => pieces_unit (unit?_control hcontrol) rest, fun ps => ?_⟩
    have hhigh : isHighSurrogate c.toNat = false := by simp [isHighSurrogate]; omega
    have hlow : isLowSurrogate c.toNat = false := by simp [isLowSurrogate]; omega
    rw [assemble.eq_def]
    simp [hhigh, hlow, Char.ofNat_toNat]
  · exact ⟨.char c, pieces_plain hquote hslash hcontrol, plain⟩

theorem pieces_write (cs rest : List Char) : ∃ ps,
    pieces (cs.flatMap escapeChar ++ '"' :: rest) = some (ps, rest) ∧ assemble ps = some cs := by
  induction cs with
  | nil => exact ⟨[], by simp [pieces], rfl⟩
  | cons c cs ih =>
    obtain ⟨ps, hps, hcs⟩ := ih
    obtain ⟨p, hread, hp⟩ := exists_piece c
    refine ⟨p :: ps, ?_, ?_⟩
    · rw [List.flatMap_cons, List.append_assoc, hread, hps]
      rfl
    · rw [hp, hcs]
      rfl

/-- What stands behind the opening quote of a string. -/
def writeTextBody (s : JsonText) : List Char := (writeText s).tail

theorem writeText_eq (s : JsonText) : writeText s = '"' :: writeTextBody s := by
  cases s <;> rfl

theorem readText_write (s : JsonText) (rest : List Char) :
    readText (writeTextBody s ++ rest) = some (s, rest) := by
  cases s with
  | none =>
    have hunit : unit? 'd' '8' '0' '0' = some 0xD800 := by decide
    show readText ('\\' :: 'u' :: 'd' :: '8' :: '0' :: '0' :: '"' :: rest) = _
    rw [readText, pieces_unit hunit, pieces]
    rfl
  | some s =>
    obtain ⟨ps, hps, hs⟩ := pieces_write s.toList rest
    have hbody : writeTextBody (some s) ++ rest = s.toList.flatMap escapeChar ++ '"' :: rest := by
      simp [writeTextBody, writeText]
    rw [readText, hbody, hps]
    simp [hs]

/-! ## Values -/

theorem skipBlanks_of_not_isBlank {c : Char} (h : isBlank c = false) (cs : List Char) :
    skipBlanks (c :: cs) = c :: cs := by
  rw [skipBlanks, List.dropWhile_cons_of_neg (by simp [h])]

/-- A value begins with a character that is no blank and closes nothing. -/
theorem exists_write_eq_cons {v : Json} (h : v.hasNoNumber = true) :
    ∃ c cs, v.write = c :: cs ∧ isBlank c = false ∧ c ≠ ']' ∧ c ≠ '}' := by
  cases v with
  | null => exact ⟨_, _, by rw [write], by decide⟩
  | bool b => cases b <;> exact ⟨_, _, by rw [write], by decide⟩
  | number n => cases h
  | text s => exact ⟨_, _, by rw [write, writeText_eq], by decide⟩
  | array vs =>
    cases vs with
    | nil => exact ⟨_, _, by rw [write], by decide⟩
    | cons v vs => exact ⟨_, _, by rw [write, List.cons_append], by decide⟩
  | object ms =>
    cases ms with
    | nil => exact ⟨_, _, by rw [write], by decide⟩
    | cons m ms => exact ⟨_, _, by rw [write, List.cons_append, List.cons_append], by decide⟩

section Steps

variable {n : Nat} {cs rest : List Char} {v : Json}

theorem readValue_text (n : Nat) (s : JsonText) (rest : List Char) :
    readValue (n + 1) ((text s).write ++ rest) = some (.text s, rest) := by
  have hskip := skipBlanks_of_not_isBlank (c := '"') (by decide) (writeTextBody s ++ rest)
  rw [write, writeText_eq, List.cons_append, readValue, hskip]
  simp [readText_write]

/-- Behind an opening bracket stands the first item, unless the bracket is closed at once. -/
theorem readValue_array {c : Char} (hblank : isBlank c = false) (hclose : c ≠ ']') :
    readValue (n + 1) ('[' :: c :: cs)
      = (readItems n (c :: cs)).map fun q => (.array q.1, q.2) := by
  rw [readValue, skipBlanks_of_not_isBlank (by decide)]
  simp only [skipBlanks_of_not_isBlank hblank]
  split
  case h_1 heq => exact absurd (List.cons.inj heq).1 hclose
  case h_2 => cases readItems n (c :: cs) <;> rfl

theorem readValue_object {c : Char} (hblank : isBlank c = false) (hclose : c ≠ '}') :
    readValue (n + 1) ('{' :: c :: cs)
      = (readMembers n (c :: cs)).map fun q => (.object q.1, q.2) := by
  rw [readValue, skipBlanks_of_not_isBlank (by decide)]
  simp only [skipBlanks_of_not_isBlank hblank]
  split
  case h_1 heq => exact absurd (List.cons.inj heq).1 hclose
  case h_2 => cases readMembers n (c :: cs) <;> rfl

theorem readItems_last (h : readValue n cs = some (v, ']' :: rest)) :
    readItems (n + 1) cs = some ([v], rest) := by
  have hskip := skipBlanks_of_not_isBlank (show isBlank ']' = false by decide) rest
  simp [readItems, h, hskip]

theorem readItems_more (h : readValue n cs = some (v, ',' :: rest)) :
    readItems (n + 1) cs = (readItems n rest).map fun q => (v :: q.1, q.2) := by
  have hskip := skipBlanks_of_not_isBlank (show isBlank ',' = false by decide) rest
  simp only [readItems, h, hskip, Option.bind_eq_bind, Option.bind_some]
  cases readItems n rest <;> rfl

theorem readMembers_last {k : JsonText} (h : readValue n cs = some (v, '}' :: rest)) :
    readMembers (n + 1) (writeText k ++ ':' :: cs) = some ([(k, v)], rest) := by
  have hquote := skipBlanks_of_not_isBlank (show isBlank '"' = false by decide)
    (writeTextBody k ++ ':' :: cs)
  have hcolon := skipBlanks_of_not_isBlank (show isBlank ':' = false by decide) cs
  have hskip := skipBlanks_of_not_isBlank (show isBlank '}' = false by decide) rest
  rw [writeText_eq, List.cons_append]
  simp [readMembers, hquote, readText_write, hcolon, h, hskip]

theorem readMembers_more {k : JsonText} (h : readValue n cs = some (v, ',' :: rest)) :
    readMembers (n + 1) (writeText k ++ ':' :: cs)
      = (readMembers n rest).map fun q => ((k, v) :: q.1, q.2) := by
  have hquote := skipBlanks_of_not_isBlank (show isBlank '"' = false by decide)
    (writeTextBody k ++ ':' :: cs)
  have hcolon := skipBlanks_of_not_isBlank (show isBlank ':' = false by decide) cs
  have hskip := skipBlanks_of_not_isBlank (show isBlank ',' = false by decide) rest
  rw [writeText_eq, List.cons_append]
  simp only [readMembers, hquote, readText_write, hcolon, h, hskip, Option.bind_eq_bind,
    Option.bind_some]
  cases readMembers n rest <;> rfl

end Steps

/-! ## Whole values -/

mutual

/-- A written value is read back, whatever follows. -/
theorem readValue_write {v : Json} {n : Nat} (hv : v.hasNoNumber = true)
    (hn : v.write.length ≤ n) (rest : List Char) :
    readValue n (v.write ++ rest) = some (v, rest) := by
  obtain ⟨m, rfl⟩ : ∃ m, n = m + 1 := by
    obtain ⟨c, cs, hcs, -⟩ := exists_write_eq_cons hv
    rw [hcs, List.length_cons] at hn
    exact ⟨n - 1, by omega⟩
  cases v with
  | null => simp [write, readValue, skipBlanks_of_not_isBlank (show isBlank 'n' = false by decide)]
  | bool b =>
    cases b
    · simp [write, readValue, skipBlanks_of_not_isBlank (show isBlank 'f' = false by decide)]
    · simp [write, readValue, skipBlanks_of_not_isBlank (show isBlank 't' = false by decide)]
  | number n => cases hv
  | text s => exact readValue_text m s rest
  | array vs =>
    cases vs with
    | nil =>
      simp [write, readValue, skipBlanks_of_not_isBlank (show isBlank '[' = false by decide),
        skipBlanks_of_not_isBlank (show isBlank ']' = false by decide)]
    | cons v vs =>
      rw [hasNoNumber, itemsHaveNoNumber, Bool.and_eq_true] at hv
      rw [write, List.length_append, List.length_cons] at hn
      obtain ⟨c, cs, hcs, hblank, hclose, -⟩ := exists_write_eq_cons hv.1
      have hitems := readItems_write (n := m) hv.1 hv.2 (by omega) rest
      rw [hcs, List.cons_append] at hitems
      rw [write, hcs, List.append_assoc, List.cons_append, List.cons_append,
        readValue_array hblank hclose, hitems]
      rfl
  | object ms =>
    cases ms with
    | nil =>
      simp [write, readValue, skipBlanks_of_not_isBlank (show isBlank '{' = false by decide),
        skipBlanks_of_not_isBlank (show isBlank '}' = false by decide)]
    | cons member ms =>
      -- The equation of the pair tells the termination check that `v` is part of the object.
      cases hmember : member with
      | mk k v =>
        subst hmember
        rw [hasNoNumber, membersHaveNoNumber, Bool.and_eq_true] at hv
        rw [write, List.length_append, List.length_append, List.length_cons,
          List.length_cons] at hn
        have hmembers := readMembers_write (n := m) (k := k) hv.1 hv.2 (by omega) rest
        rw [writeText_eq, List.cons_append] at hmembers
        rw [write, writeText_eq, List.append_assoc, List.append_assoc, List.cons_append,
          List.cons_append, List.cons_append,
          readValue_object (c := '"') (by decide) (by decide), hmembers]
        rfl
termination_by sizeOf v

/-- The written items of an array are read back with the closing bracket. -/
theorem readItems_write {v : Json} {vs : List Json} {n : Nat} (hv : v.hasNoNumber = true)
    (hvs : itemsHaveNoNumber vs = true) (hn : v.write.length + (writeItems vs).length ≤ n)
    (rest : List Char) :
    readItems n (v.write ++ (writeItems vs ++ rest)) = some (v :: vs, rest) := by
  have hpos : 1 ≤ (writeItems vs).length := by cases vs <;> simp [writeItems]
  obtain ⟨m, rfl⟩ : ∃ m, n = m + 1 := ⟨n - 1, by omega⟩
  cases vs with
  | nil =>
    rw [writeItems, List.singleton_append]
    exact readItems_last (readValue_write hv (by omega) _)
  | cons w ws =>
    rw [itemsHaveNoNumber, Bool.and_eq_true] at hvs
    rw [writeItems, List.length_append, List.length_cons] at hn
    have hitems := readItems_write (n := m) hvs.1 hvs.2 (by omega) rest
    rw [writeItems, List.append_assoc, List.cons_append,
      readItems_more (readValue_write hv (by omega) _), hitems]
    rfl
termination_by sizeOf v + sizeOf vs

/-- The written members of an object are read back with the closing brace. -/
theorem readMembers_write {k : JsonText} {v : Json} {ms : List (JsonText × Json)} {n : Nat}
    (hv : v.hasNoNumber = true) (hms : membersHaveNoNumber ms = true)
    (hn : v.write.length + (writeMembers ms).length ≤ n) (rest : List Char) :
    readMembers n (writeText k ++ ':' :: (v.write ++ (writeMembers ms ++ rest)))
      = some ((k, v) :: ms, rest) := by
  have hpos : 1 ≤ (writeMembers ms).length := by cases ms <;> simp [writeMembers]
  obtain ⟨m, rfl⟩ : ∃ m, n = m + 1 := ⟨n - 1, by omega⟩
  cases ms with
  | nil =>
    rw [writeMembers, List.singleton_append]
    exact readMembers_last (readValue_write hv (by omega) _)
  | cons member ms =>
    cases hmember : member with
    | mk k' w =>
      subst hmember
      rw [membersHaveNoNumber, Bool.and_eq_true] at hms
      rw [writeMembers, List.length_append, List.length_append, List.length_cons,
        List.length_cons] at hn
      have hmembers := readMembers_write (n := m) (k := k') hms.1 hms.2 (by omega) rest
      rw [writeMembers, List.append_assoc, List.append_assoc, List.cons_append, List.cons_append,
        readMembers_more (readValue_write hv (by omega) _), hmembers]
      rfl
termination_by sizeOf v + sizeOf ms

end

/-- The text of a value without numbers denotes the value. -/
theorem parse?_toText {v : Json} (hv : v.hasNoNumber = true) : parse? v.toText = some v := by
  have hread := readValue_write hv (Nat.le_succ v.write.length) []
  rw [List.append_nil] at hread
  rw [parse?, toText, String.toList_ofList, hread]
  rfl

/-! ## Characters -/

/-- No control character. -/
def isPrintable (c : Char) : Bool := 0x20 ≤ c.toNat

theorem hexDigit_printable : ∀ n < 16, isPrintable (hexDigit n) = true := by decide

theorem escapeChar_printable (c : Char) : (escapeChar c).all isPrintable = true := by
  unfold escapeChar
  split_ifs with hquote hslash hb hf hn hr ht hcontrol
  · rfl
  · rfl
  · rfl
  · rfl
  · rfl
  · rfl
  · rfl
  · have hhigh := hexDigit_printable (c.toNat / 16) (by omega)
    have hlow := hexDigit_printable (c.toNat % 16) (by omega)
    simp only [List.all_cons, hhigh, hlow]
    rfl
  · rw [List.all_cons, isPrintable, decide_eq_true (Nat.le_of_not_lt hcontrol)]
    rfl

theorem writeText_printable (s : JsonText) : (writeText s).all isPrintable = true := by
  cases s with
  | none => rfl
  | some s =>
    have hchars : (s.toList.flatMap escapeChar).all isPrintable = true := by
      rw [List.all_flatMap]
      exact List.all_eq_true.2 fun c _ => escapeChar_printable c
    rw [writeText, List.cons_append, List.all_cons, List.all_append, hchars]
    rfl

mutual

/-- No control character stands in what is written. -/
theorem write_printable {v : Json} (hv : v.hasNoNumber = true) :
    v.write.all isPrintable = true := by
  cases v with
  | null => rw [write]; rfl
  | bool b => cases b <;> (rw [write]; rfl)
  | number n => cases hv
  | text s => rw [write]; exact writeText_printable s
  | array vs =>
    cases vs with
    | nil => rw [write]; rfl
    | cons v vs =>
      rw [hasNoNumber, itemsHaveNoNumber, Bool.and_eq_true] at hv
      rw [write, List.cons_append, List.all_cons, List.all_append, write_printable hv.1,
        writeItems_printable hv.2]
      rfl
  | object ms =>
    cases ms with
    | nil => rw [write]; rfl
    | cons member ms =>
      cases hmember : member with
      | mk k v =>
        subst hmember
        rw [hasNoNumber, membersHaveNoNumber, Bool.and_eq_true] at hv
        rw [write, List.cons_append, List.cons_append, List.all_cons, List.all_append,
          List.all_append, List.all_cons, writeText_printable k, write_printable hv.1,
          writeMembers_printable hv.2]
        rfl
termination_by sizeOf v

theorem writeItems_printable {vs : List Json} (hvs : itemsHaveNoNumber vs = true) :
    (writeItems vs).all isPrintable = true := by
  cases vs with
  | nil => rw [writeItems]; rfl
  | cons v vs =>
    rw [itemsHaveNoNumber, Bool.and_eq_true] at hvs
    rw [writeItems, List.cons_append, List.all_cons, List.all_append, write_printable hvs.1,
      writeItems_printable hvs.2]
    rfl
termination_by sizeOf vs

theorem writeMembers_printable {ms : List (JsonText × Json)}
    (hms : membersHaveNoNumber ms = true) : (writeMembers ms).all isPrintable = true := by
  cases ms with
  | nil => rw [writeMembers]; rfl
  | cons member ms =>
    cases hmember : member with
    | mk k v =>
      subst hmember
      rw [membersHaveNoNumber, Bool.and_eq_true] at hms
      rw [writeMembers, List.cons_append, List.cons_append, List.all_cons, List.all_append,
        List.all_append, List.all_cons, writeText_printable k, write_printable hms.1,
        writeMembers_printable hms.2]
      rfl
termination_by sizeOf ms

end

end Json
end FlowPlan
