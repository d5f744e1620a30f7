import FlowPlan.Proofs.Catalogs
import FlowPlan.Proofs.JsonText
import FlowPlan.Provenance
import FlowPlan.Search

/-!
The canonical text of a registry.

Registering entries sorts them, writing them keeps all of them, and reading what was written gives
them back, so the text stands for the set of the entries: `canonical_texts_faithful`.  The
fingerprint is taken of both texts with a zero byte behind each.  Since no written text holds a
zero byte, that message tells the two texts apart (`framed_injective`).
-/

namespace FlowPlan

/-! ## Records -/

namespace Json

/-- A record is read back field by field, in the order of its declaration. -/
theorem fields?_record (extra : Extra) (members : List (String × Json))
    (h : (members.map Prod.fst).Nodup) :
    (record members).fields? extra (members.map Prod.fst)
      = some (members.map fun m => some m.2) := by
  have hkeys : (members.map fun m => ((some m.1 : JsonText), m.2)).mapM Prod.fst
      = some (members.map Prod.fst) := by
    rw [List.mapM_map]
    exact List.mapM_pure
  have hknown : (members.map Prod.fst).filter ((members.map Prod.fst).contains ·)
      = members.map Prod.fst :=
    List.filter_eq_self.2 fun name hname => List.contains_iff_mem.2 hname
  have honce : (members.map Prod.fst).eraseDups.length = (members.map Prod.fst).length :=
    ((List.perm_ext_iff_of_nodup (nodup_eraseDups _) h).2 fun _ => List.mem_eraseDups).length_eq
  have hvalues : ∀ m ∈ members, ((members.map fun m => ((some m.1 : JsonText), m.2)).find?
      (·.1 = some m.1)).map Prod.snd = some m.2 := by
    intro m hm
    have hfind : members.find? (·.1 = m.1) = some m := by
      obtain ⟨front, back, rfl⟩ := List.append_of_mem hm
      rw [List.find?_append, List.find?_eq_none.2, Option.none_or, List.find?_cons_of_pos (by simp)]
      intro k hk heq
      rw [List.map_append, List.map_cons] at h
      exact (List.nodup_append.1 h).2.2 _ (List.mem_map_of_mem hk) _ List.mem_cons_self
        (by simpa using heq)
    rw [List.find?_map, Option.map_map]
    simp only [Function.comp_def, Option.some.injEq]
    rw [hfind]
    rfl
  rw [record, fields?, fieldsOfMembers?]
  simp only [hkeys, hknown, honce, Option.bind_eq_bind, Option.bind_some, ne_eq, not_true,
    and_false, if_false]
  rw [List.map_map]
  exact congrArg some (List.map_congr_left hvalues)

theorem fields?_pair {a b : String} (h : a ≠ b) (extra : Extra) (v w : Json) :
    (record [(a, v), (b, w)]).fields? extra [a, b] = some [some v, some w] :=
  fields?_record extra [(a, v), (b, w)] (by simpa using h)

/-- Things that are written without numbers and read back. -/
structure IsFaithful {α : Type} (encode : α → Json) (decode : Json → Option α) : Prop where
  hasNoNumber : ∀ x, (encode x).hasNoNumber = true
  decode_encode : ∀ x, decode (encode x) = some x

section Lists

variable {α : Type} {encode : α → Json} {decode : Json → Option α}

theorem itemsHaveNoNumber_map (h : ∀ x, (encode x).hasNoNumber = true) (xs : List α) :
    itemsHaveNoNumber (xs.map encode) = true := by
  induction xs with
  | nil => rfl
  | cons x xs ih => rw [List.map_cons, itemsHaveNoNumber, h, ih, Bool.and_self]

theorem list?_array (h : ∀ x, decode (encode x) = some x) (xs : List α) :
    (array (xs.map encode)).list? decode = some xs := by
  show (xs.map encode).mapM decode = some xs
  rw [List.mapM_map, show decode ∘ encode = pure ∘ id from funext h]
  exact (List.mapM_pure).trans (congrArg some (List.map_id xs))

/-- The text of a list is read back. -/
theorem parse?_list (h : IsFaithful encode decode) (xs : List α) :
    ((parse? (array (xs.map encode)).toText).bind (·.list? decode)) = some xs := by
  rw [parse?_toText (v := array _) (itemsHaveNoNumber_map h.hasNoNumber xs), Option.bind_some,
    list?_array h.decode_encode]

end Lists
end Json

/-! ## Entries -/

theorem Property.isFaithful : Json.IsFaithful Property.toJson Property.ofJson? where
  hasNoNumber _ := rfl
  decode_encode p := by
    have htype : PropertyType.ofName? p.type.name = some p.type := by
      cases p.type <;> decide
    rw [Property.ofJson?, Property.toJson, Json.fields?_pair (by decide)]
    simp [Json.required?, Json.text?, Json.choice?, Json.ofString, htype]

theorem DataClass.isFaithful : Json.IsFaithful DataClass.toJson DataClass.ofJson? where
  hasNoNumber c := by
    have hproperties := Json.itemsHaveNoNumber_map Property.isFaithful.hasNoNumber c.properties
    simp [DataClass.toJson, Json.record, Json.hasNoNumber, Json.membersHaveNoNumber,
      Json.ofString, hproperties]
  decode_encode c := by
    have hproperties := Json.list?_array Property.isFaithful.decode_encode c.properties
    rw [DataClass.ofJson?, DataClass.toJson, Json.fields?_pair (by decide)]
    simp [Json.required?, Json.text?, Json.ofString, hproperties]

theorem Processor.isFaithful : Json.IsFaithful Processor.toJson Processor.ofJson? where
  hasNoNumber _ := rfl
  decode_encode p := by
    have hkind : ProcessorKind.ofName? p.kind.name = some p.kind := by
      cases p.kind <;> decide
    rw [Processor.ofJson?, Processor.toJson, Json.fields?_pair (by decide)]
    simp [Json.required?, Json.text?, Json.choice?, Json.ofString, hkind]

/-! ## Registries -/

namespace Catalog

variable {α : Type} [Named α] {r s : Catalog α} {xs ys : List α}

/-- Catalogs filled from two lists are equal exactly if the lists are in the end the same. -/
theorem eq_iff_perm (hr : (empty : Catalog α).insertAll? xs = some r)
    (hs : (empty : Catalog α).insertAll? ys = some s) : r = s ↔ xs.Perm ys := by
  have hxs : r.entries.Perm xs := insertAll?_perm hr
  have hys : s.entries.Perm ys := insertAll?_perm hs
  refine ⟨fun heq => ?_, fun hperm => eq_of_perm (hxs.trans (hperm.trans hys.symm))⟩
  subst heq
  exact hxs.symm.trans hys

/-- A text from which the entries can be read stands for one catalog. -/
theorem text_inj {text : Catalog α → String} {decode : String → Option (List α)}
    (h : ∀ r, decode (text r) = some r.entries) : text r = text s ↔ r = s := by
  refine ⟨fun heq => eq_of_perm (.of_eq ?_), fun heq => heq ▸ rfl⟩
  rw [← Option.some.injEq, ← h, ← h, heq]

end Catalog

namespace DataClassRegistry

theorem decode?_canonicalJson (r : DataClassRegistry) :
    decode? (canonicalJson r) = some r.entries :=
  Json.parse?_list DataClass.isFaithful r.entries

theorem ofJson_canonicalJson (r : DataClassRegistry) : ofJson (canonicalJson r) = .ok r := by
  rw [ofJson, decode?_canonicalJson]
  exact ofClasses_eq_ok_iff.2 r.insertAll?_entries

end DataClassRegistry

namespace ProcessorRegistry

theorem decode?_canonicalJson (r : ProcessorRegistry) :
    decode? (canonicalJson r) = some r.entries :=
  Json.parse?_list Processor.isFaithful r.entries

theorem load_canonicalJson (r : ProcessorRegistry) :
    load .empty (canonicalJson r) = (r, .ok r.size) := by
  rw [load, decode?_canonicalJson]
  simp only [registerAll_eq_ok_iff.2 r.insertAll?_entries]
  rfl

end ProcessorRegistry

/-! ## Messages -/

namespace Provenance

theorem toList_loop_eq (bs : ByteArray) (i : Nat) (read : List UInt8) :
    ByteArray.toList.loop bs i read = read.reverse ++ bs.data.toList.drop i := by
  induction i, read using ByteArray.toList.loop.induct bs with
  | case1 i read hlt ih =>
    have hi : i < bs.data.toList.length := hlt
    have hget : bs.get! i = bs.data.toList[i] := getElem!_pos bs.data i hlt
    rw [ByteArray.toList.loop, if_pos hlt, ih, List.drop_eq_getElem_cons hi, hget,
      List.reverse_cons, List.append_assoc, List.singleton_append]
  | case2 i read hge =>
    have hi : bs.data.toList.length ≤ i := Nat.le_of_not_lt hge
    rw [ByteArray.toList.loop, if_neg hge, List.drop_eq_nil_of_le hi, List.append_nil]

theorem toList_eq (bs : ByteArray) : bs.toList = bs.data.toList := by
  rw [ByteArray.toList, toList_loop_eq, List.reverse_nil, List.nil_append, List.drop_zero]

/-- The bytes of a text are those of its characters. -/
theorem bytes_eq (s : String) : s.toUTF8.toList = s.toList.flatMap String.utf8EncodeChar := by
  have hs : s.toUTF8 = (String.ofList s.toList).toByteArray := by rw [String.ofList_toList]; rfl
  rw [toList_eq, hs, String.toByteArray_ofList, List.utf8Encode, List.toList_data_toByteArray]

theorem bytes_injective {s t : String} (h : s.toUTF8.toList = t.toUTF8.toList) : s = t := by
  rw [toList_eq, toList_eq] at h
  exact String.toByteArray_inj.1 (ByteArray.ext (Array.toList_inj.1 h))

/-- Only the zero character is written with a zero byte. -/
theorem utf8EncodeChar_ne_zero {c : Char} (h : 0 < c.toNat) :
    ∀ b ∈ String.utf8EncodeChar c, b ≠ 0 := by
  have hbyte : ∀ n, 0 < n → n < 256 → UInt8.ofNat n ≠ 0 := by
    intro n hpos hlt heq
    have hn : (UInt8.ofNat n).toNat = 0 := congrArg UInt8.toNat heq
    rw [UInt8.toNat_ofNat_of_lt' hlt] at hn
    omega
  have hc : 0 < c.val.toNat := h
  unfold String.utf8EncodeChar
  simp only []
  split_ifs with h1 h2 h3
  all_goals simp only [List.forall_mem_cons]
  · exact ⟨hbyte _ hc (by omega), List.forall_mem_nil _⟩
  · exact ⟨hbyte _ (by omega) (by omega), hbyte _ (by omega) (by omega), List.forall_mem_nil _⟩
  · exact ⟨hbyte _ (by omega) (by omega), hbyte _ (by omega) (by omega),
      hbyte _ (by omega) (by omega), List.forall_mem_nil _⟩
  · exact ⟨hbyte _ (by omega) (by omega), hbyte _ (by omega) (by omega),
      hbyte _ (by omega) (by omega), hbyte _ (by omega) (by omega), List.forall_mem_nil _⟩

theorem zero_notMem_bytes {s : String} (h : ∀ c ∈ s.toList, 0 < c.toNat) :
    0 ∉ s.toUTF8.toList := by
  rw [bytes_eq, List.mem_flatMap]
  rintro ⟨c, hc, hzero⟩
  exact utf8EncodeChar_ne_zero (h c hc) 0 hzero rfl

/-- A message is cut at its zero bytes. -/
theorem splitOnP_framed {parts : List String} (h : ∀ s ∈ parts, ∀ c ∈ s.toList, 0 < c.toNat) :
    (framed parts).splitOnP (· == 0) = parts.map (·.toUTF8.toList) ++ [[]] := by
  induction parts with
  | nil => rfl
  | cons s parts ih =>
    rw [List.forall_mem_cons] at h
    have hs : ∀ b ∈ s.toUTF8.toList, (b == 0) = false := fun b hb =>
      beq_false_of_ne (ne_of_mem_of_not_mem hb (zero_notMem_bytes h.1))
    have hframed : framed (s :: parts) = s.toUTF8.toList ++ 0 :: framed parts := by
      simp [framed]
    rw [hframed, List.splitOnP_append_cons_of_forall_mem hs 0 rfl, ih h.2]
    rfl

/-- Texts without the zero character can be told from their message. -/
theorem framed_injective {ps qs : List String} (hps : ∀ s ∈ ps, ∀ c ∈ s.toList, 0 < c.toNat)
    (hqs : ∀ s ∈ qs, ∀ c ∈ s.toList, 0 < c.toNat) (h : framed ps = framed qs) : ps = qs := by
  have hmap : ps.map (·.toUTF8.toList) = qs.map (·.toUTF8.toList) := by
    rw [← List.append_left_inj [[]], ← splitOnP_framed hps, ← splitOnP_framed hqs, h]
  exact List.map_injective_iff.2 (fun _ _ => bytes_injective) hmap

/-- No canonical text holds the zero character. -/
theorem registryParts_printable (p : ProcessorRegistry) (c : DataClassRegistry) :
    ∀ s ∈ registryParts p c, ∀ d ∈ s.toList, 0 < d.toNat := by
  have hprocessors := Json.write_printable (v := .array (p.entries.map Processor.toJson))
    (Json.itemsHaveNoNumber_map Processor.isFaithful.hasNoNumber p.entries)
  have hclasses := Json.write_printable (v := .array (c.entries.map DataClass.toJson))
    (Json.itemsHaveNoNumber_map DataClass.isFaithful.hasNoNumber c.entries)
  rw [registryParts, List.forall_mem_cons, List.forall_mem_singleton,
    ProcessorRegistry.canonicalJson, DataClassRegistry.canonicalJson, Json.toText, Json.toText,
    String.toList_ofList, String.toList_ofList]
  have hpositive : ∀ d, Json.isPrintable d = true → 0 < d.toNat := fun d hd =>
    Nat.lt_of_lt_of_le (by decide) (of_decide_eq_true hd)
  exact ⟨fun d hd => hpositive d (List.all_eq_true.1 hprocessors d hd),
    fun d hd => hpositive d (List.all_eq_true.1 hclasses d hd)⟩

/-- The message behind the fingerprint stands for both registries. -/
theorem framed_registryParts_inj {p q : ProcessorRegistry} {c d : DataClassRegistry} :
    framed (registryParts p c) = framed (registryParts q d) ↔ p = q ∧ c = d := by
  constructor
  · intro h
    have hparts := framed_injective (registryParts_printable p c) (registryParts_printable q d) h
    rw [registryParts, registryParts, List.cons.injEq, List.cons.injEq] at hparts
    exact ⟨(Catalog.text_inj ProcessorRegistry.decode?_canonicalJson).1 hparts.1,
      (Catalog.text_inj DataClassRegistry.decode?_canonicalJson).1 hparts.2.1⟩
  · rintro ⟨rfl, rfl⟩
    rfl

/-- The canonical text of a registry is an encoding of its entries that keeps nothing of their
order.  Entries of different names can be registered; two lists of them give registries of the same
text exactly if they are the same up to order; and the text, read into an empty registry, gives the
registry again.  This holds of data classes and of processors.  The message that is digested into
the fingerprint is the same for two pairs of registries exactly if the pairs are the same. -/
theorem canonical_texts_faithful :
    (∀ cs ds : List DataClass, (cs.map (·.name)).Nodup → (ds.map (·.name)).Nodup →
      ∃ r s, DataClassRegistry.ofClasses cs = .ok r ∧ DataClassRegistry.ofClasses ds = .ok s ∧
        (DataClassRegistry.canonicalJson r = DataClassRegistry.canonicalJson s ↔ cs.Perm ds) ∧
        DataClassRegistry.ofJson (DataClassRegistry.canonicalJson r) = .ok r) ∧
    (∀ ps qs : List Processor, (ps.map (·.name)).Nodup → (qs.map (·.name)).Nodup →
      ∃ r s, ProcessorRegistry.registerAll .empty ps = (r, .ok ()) ∧
        ProcessorRegistry.registerAll .empty qs = (s, .ok ()) ∧
        (ProcessorRegistry.canonicalJson r = ProcessorRegistry.canonicalJson s ↔ ps.Perm qs) ∧
        ProcessorRegistry.load .empty (ProcessorRegistry.canonicalJson r) = (r, .ok ps.length)) ∧
    ∀ (p q : ProcessorRegistry) (c d : DataClassRegistry),
      framed (registryParts p c) = framed (registryParts q d) ↔ p = q ∧ c = d := by
  refine ⟨fun cs ds hcs hds => ?_, fun ps qs hps hqs => ?_, fun p q c d => framed_registryParts_inj⟩
  · obtain ⟨r, hr⟩ := Catalog.exists_insertAll?_iff (c := .empty).2 hcs
    obtain ⟨s, hs⟩ := Catalog.exists_insertAll?_iff (c := .empty).2 hds
    refine ⟨r, s, ofClasses_eq_ok_iff.2 hr, ofClasses_eq_ok_iff.2 hs, ?_,
      DataClassRegistry.ofJson_canonicalJson r⟩
    rw [Catalog.text_inj DataClassRegistry.decode?_canonicalJson, Catalog.eq_iff_perm hr hs]
  · obtain ⟨r, hr⟩ := Catalog.exists_insertAll?_iff (c := .empty).2 hps
    obtain ⟨s, hs⟩ := Catalog.exists_insertAll?_iff (c := .empty).2 hqs
    have hsize : r.size = ps.length := (Catalog.insertAll?_perm hr).length_eq
    refine ⟨r, s, registerAll_eq_ok_iff.2 hr, registerAll_eq_ok_iff.2 hs, ?_, ?_⟩
    · rw [Catalog.text_inj ProcessorRegistry.decode?_canonicalJson, Catalog.eq_iff_perm hr hs]
    · rw [ProcessorRegistry.load_canonicalJson, hsize]

/-- Two classes whose names have to be escaped. -/
def escapedClasses : List DataClass :=
  [{ name := "Größe \"\\", properties := [⟨"\n", .int⟩, ⟨"\x00", .dateTime⟩] },
    { name := "\x1f", properties := [] }]

/-- Two processors whose names have to be escaped. -/
def escapedProcessors : List Processor := [⟨"\\", .lineEnd⟩, ⟨"\"", .rendezvous⟩]

theorem escaped_texts_faithful :
    (∃ r s, DataClassRegistry.ofClasses escapedClasses = .ok r ∧
      DataClassRegistry.ofClasses escapedClasses.reverse = .ok s ∧
      DataClassRegistry.canonicalJson r = DataClassRegistry.canonicalJson s ∧
      DataClassRegistry.ofJson (DataClassRegistry.canonicalJson r) = .ok r) ∧
    ∃ r s, ProcessorRegistry.registerAll .empty escapedProcessors = (r, .ok ()) ∧
      ProcessorRegistry.registerAll .empty escapedProcessors.tail = (s, .ok ()) ∧
      ProcessorRegistry.canonicalJson r ≠ ProcessorRegistry.canonicalJson s ∧
      ProcessorRegistry.load .empty (ProcessorRegistry.canonicalJson r) = (r, .ok 2) := by
  obtain ⟨hclasses, hprocessors, -⟩ := canonical_texts_faithful
  constructor
  · obtain ⟨r, s, hr, hs, hsame, hread⟩ := hclasses escapedClasses escapedClasses.reverse
      (by decide) (by decide)
    exact ⟨r, s, hr, hs, hsame.2 (List.reverse_perm _).symm, hread⟩
  · obtain ⟨r, s, hr, hs, hsame, hread⟩ := hprocessors escapedProcessors escapedProcessors.tail
      (by decide) (by decide)
    exact ⟨r, s, hr, hs, fun heq => absurd (hsame.1 heq).length_eq (by decide), hread⟩

end Provenance
end FlowPlan
