import Mathlib
import ArtifactHarvest.Artifact.Record
import ArtifactHarvest.Proofs.Json.Writing

/-!
A descriptor and its record. A descriptor is read from any record that holds each of its fields just
once, whatever the order and whatever else is there (`ofJson?_record`), in any layout.

Main statement: `read_back`. Both forms of a descriptor, and of a list of them, give it back, and so
does every text that spells such a record.
-/

namespace ArtifactHarvest

/-- What is written one by one is read one by one. -/
theorem mapM_map_eq_some {α β γ : Type} {l : List α} {write : α → β} {read? : β → Option γ}
    {held : α → γ} (h : ∀ a ∈ l, read? (write a) = some (held a)) :
    (l.map write).mapM read? = some (l.map held) := by
  induction l with
  | nil => rfl
  | cons a l ih =>
      obtain ⟨hfront, hrest⟩ := List.forall_mem_cons.mp h
      rw [List.map_cons, List.mapM_cons, hfront, ih hrest]
      rfl

namespace Json

theorem Content.text?_ofText (s : String) : (Content.ofText s).text? = some s := by
  have hread : (s.toList.map some).mapM id = some (s.toList.map id) :=
    mapM_map_eq_some fun _ _ => rfl
  rw [text?, ofText, hread, List.map_id, Option.map_some, String.ofList_toList]

namespace Value

theorem text?_text (s : String) : (text s).text? = some s :=
  Content.text?_ofText s

theorem word?_natural (n : UInt64) : (natural n.toNat).word? = some n := by
  rw [natural, word?, if_pos n.toNat_lt, UInt64.ofNat_toNat]

end Value

end Json

namespace Descriptor

open Json (Value Content Layout Spellable)

/-- The fields of a descriptor with their values. -/
def fields (d : Descriptor) : List (String × Value) :=
  [("path", .text d.path), ("absolute_path", .text d.absolutePath), ("glob_path", .text d.pattern),
    ("file_size", .natural d.size.toNat), ("sha1sum", .text d.sha1), ("sha256sum", .text d.sha256)]

variable {d : Descriptor} {members : List (String × Value)} {ds : List Descriptor}

theorem ofFields?_fields (d : Descriptor) : ofFields? (d.fields.map (·.2)) = some d := by
  simp only [fields, List.map_cons, List.map_nil, ofFields?, Value.text?_text, Value.word?_natural,
    Option.bind_eq_bind, Option.bind_some, Option.pure_def]

theorem keys_record (members : List (String × Value)) :
    (members.map fun (key, v) => (Content.ofText key, v)).mapM
        (fun (key, v) => key.text?.map (·, v)) = some members := by
  have hkey : ∀ m ∈ members, (Content.ofText m.1).text?.map (·, m.2) = some (id m) := by
    intro m _
    rw [Content.text?_ofText]
    rfl
  rw [mapM_map_eq_some hkey, List.map_id]

/-- Keys that stand in a record just once give their values. -/
theorem mapM_single? {fields : List (String × Value)}
    (h : ∀ field ∈ fields, members.filter (·.1 = field.1) = [field]) :
    (fields.map (·.1)).mapM (single? members) = some (fields.map (·.2)) := by
  apply mapM_map_eq_some
  intro field hfield
  rw [single?, h field hfield]

/-- A record with each field of a descriptor once is read as the descriptor. -/
theorem ofJson?_record (h : ∀ field ∈ d.fields, members.filter (·.1 = field.1) = [field]) :
    ofJson? (.record members) = some d := by
  have hnames : fieldNames = d.fields.map (·.1) := rfl
  rw [Value.record, ofJson?, keys_record, Option.bind_eq_bind, Option.bind_some, hnames,
    mapM_single? h, Option.bind_eq_bind, Option.bind_some, ofFields?_fields]

theorem spellable_fields (d : Descriptor) : ∀ m ∈ d.fields, Spellable m.2.tokens := by
  simp only [fields, List.forall_mem_cons, Json.spellable_text, Json.spellable_natural, true_and]
  exact List.forall_mem_nil _

theorem spellable_toJson (d : Descriptor) : Spellable d.toJson.tokens :=
  Json.spellable_record_iff.mpr d.spellable_fields

/-- The keys of the fields are told apart. -/
theorem filter_fields (d : Descriptor) :
    ∀ field ∈ d.fields, d.fields.filter (·.1 = field.1) = [field] := by
  simp [fields]

theorem ofJson?_toJson (d : Descriptor) : ofJson? d.toJson = some d :=
  ofJson?_record d.filter_fields

theorem spellable_array (ds : List Descriptor) :
    Spellable (Value.array (ds.map toJson)).tokens := by
  rw [Json.spellable_array_iff, List.forall_mem_map]
  exact fun d _ => d.spellable_toJson

theorem parse?_of_eq {text : String} {v : Value} (h : Value.parse? text = some v) :
    parse? text = ofJson? v := by
  rw [parse?, h, Option.bind_some]

theorem parseAll?_of_eq {text : String} (h : Value.parse? text = some (.array (ds.map toJson))) :
    parseAll? text = some ds := by
  rw [parseAll?, h]
  change (ds.map toJson).mapM ofJson? = some ds
  rw [mapM_map_eq_some fun d _ => ofJson?_toJson d, List.map_id']

/-- **Descriptors are read back from their records.** -/
theorem read_back :
    (∀ d : Descriptor,
      parse? d.toJson.toCompact = some d ∧ parse? d.toJson.toPretty = some d) ∧
    (∀ ds : List Descriptor,
      parseAll? (Value.array (ds.map toJson)).toCompact = some ds ∧
        parseAll? (Value.array (ds.map toJson)).toPretty = some ds) ∧
    ∀ (d : Descriptor) (members : List (String × Value)) (text : String),
      Layout (Value.record members).tokens text.toList →
        (∀ field ∈ d.fields, members.filter (·.1 = field.1) = [field]) → parse? text = some d := by
  refine ⟨fun d => ⟨?_, ?_⟩, fun ds => ⟨?_, ?_⟩, fun d members text hlayout hfields => ?_⟩
  · rw [parse?_of_eq (Value.parse?_toCompact d.spellable_toJson), ofJson?_toJson]
  · rw [parse?_of_eq (Value.parse?_toPretty d.spellable_toJson), ofJson?_toJson]
  · exact parseAll?_of_eq (Value.parse?_toCompact (spellable_array ds))
  · exact parseAll?_of_eq (Value.parse?_toPretty (spellable_array ds))
  · rw [parse?_of_eq (Value.parse?_of_layout hlayout), ofJson?_record hfields]

/-- Fields in another order, with blanks, an unknown key and characters given by their numbers. -/
theorem scattered_fields_read :
    parse? "\n\x7b\"absolute_path\":\t\"\\ud83d\\uDE00\",
  \"sha256sum\": \"y\",
  \"sha1sum\": \"x\",
  \"note\": [],
  \"file_size\": 18446744073709551615,
  \"path\": \"a\",
  \"glob_path\": \"*\"\x7d" = some ⟨"a", "😀", "*", 18446744073709551615, "x", "y"⟩ := by
  have hface : Json.Piece.SpellsAll [.unit 0xD83D, .unit 0xDE00] "\\ud83d\\uDE00".toList :=
    .cons (.numeric (p := 13) (q := 8) (r := 3) (s := 13) ⟨by decide, .inl rfl⟩
        ⟨by decide, .inl rfl⟩ ⟨by decide, .inl rfl⟩ ⟨by decide, .inl rfl⟩)
      (.cons (.numeric (p := 13) (q := 14) (r := 0) (s := 0) ⟨by decide, .inr rfl⟩
        ⟨by decide, .inr rfl⟩ ⟨by decide, .inl rfl⟩ ⟨by decide, .inl rfl⟩) .nil)
  have hblank : ∀ c, c ∈ [' ', '\t', '\n', '\r'] → Json.Blank [c] := by
    intro c hc b hb
    simpa [List.mem_singleton.mp hb] using hc
  let others : List (String × Value) := [("sha256sum", .text "y"), ("sha1sum", .text "x"),
    ("note", .array []), ("file_size", .natural 18446744073709551615), ("path", .text "a"),
    ("glob_path", .text "*")]
  have hothers : Spellable (Json.memberTokens (others.map fun m => (Content.ofText m.1, m.2))) := by
    simp [others, Json.spellable_memberTokens_iff, Json.spellable_text, Json.spellable_natural,
      Json.spellable_array_iff]
  have hlayout : Layout (Value.record (("absolute_path", .text "😀") :: others)).tokens _ :=
    .cons (hblank '\n' (by decide)) (.mark .openObject)
      (.token (Json.spells_string _) (.mark .colon (.cons (hblank '\t' (by decide)) (.string hface)
        ((Json.layout_prettyMembers 1 _ hothers).append (.mark .closeObject .empty)))))
  refine read_back.2.2 _ (("absolute_path", .text "😀") :: others) _ ?_ (by simp [fields, others])
  convert hlayout using 1
  cbv

end Descriptor

end ArtifactHarvest
