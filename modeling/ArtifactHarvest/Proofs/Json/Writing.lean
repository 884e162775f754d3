import ArtifactHarvest.Proofs.Json.Parsing

/-!
What is written is laid out as JSON allows (`layout_compact`, `layout_pretty`), so both forms of a
value give it back (`Value.parse?_toCompact`, `Value.parse?_toPretty`), as long as its numbers have
a spelling.
-/

namespace ArtifactHarvest.Json

/-! ### Numbers -/

namespace Number

/-- The digits of a number do not begin with a zero, unless there is no other. -/
theorem whole_toDigits (n : Nat) : Whole (Nat.toDigits 10 n) := by
  have hhead : ∀ n, 0 < n → (Nat.toDigits 10 n).head? ≠ some '0' := by
    intro n
    induction n using Nat.strongRecOn with
    | ind n ih =>
        intro hn
        rw [Nat.toDigits_eq_if (by decide)]
        split
        · simpa using Nat.pos_iff_ne_zero.mp hn
        · rw [List.head?_append_of_ne_nil _ Nat.toDigits_ne_nil]
          exact ih (n / 10) (by omega) (by omega)
  have hdigits : Digits (Nat.toDigits 10 n) :=
    ⟨Nat.toDigits_ne_nil, fun c hc => Nat.isDigit_of_mem_toDigits (by decide) (by decide) hc⟩
  by_cases hn : n = 0
  · subst hn
    exact .zero
  · obtain ⟨c, cs, hcs⟩ := List.exists_cons_of_ne_nil hdigits.1
    have hzero := hhead n (Nat.pos_of_ne_zero hn)
    rw [hcs] at hdigits hzero ⊢
    exact .digits (by simpa using hzero) hdigits

/-- A natural number is spelled as it is written. -/
theorem spells_natural (n : Nat) : Spells (.natural n) (writtenNumber (.natural n)) := by
  have hwritten : writtenNumber (.natural n) = Nat.toDigits 10 n := Nat.toList_repr
  have hspells := Spells.natural (whole_toDigits n)
  rwa [Nat.ofDigitChars_ten_toDigits, ← hwritten] at hspells

end Number

/-! ### Strings -/

/-- The pieces that make up a character each, whatever stands around them. -/
inductive Piece.Alone : Piece → Option Char → Prop where
  | char (c : Char) : Alone (.char c) (some c)
  | unit {u : Nat} : ¬ IsLow u → Alone (.unit u) (Content.ofUnit u)

theorem Content.ofPieces_of_alone {pieces : List Piece} {s : Content}
    (h : List.Forall₂ Piece.Alone pieces s) : ofPieces pieces = s := by
  induction h with
  | nil => rfl
  | @cons piece c pieces s hpiece hrest ih =>
      cases hpiece with
      | char c => rw [ofPieces, ih]
      | unit =>
          cases hrest with
          | nil => rfl
          | cons hnext =>
              cases hnext with
              | char => exact congrArg _ ih
              | unit hlow => rw [ofPieces_high hlow, ih]

theorem fourHex_of_control {n : Nat} (h : n < 0x20) :
    fourHex n = ['0', '0', (n / 16).digitChar, (n % 16).digitChar] := by
  interval_cases n <;> rfl

/-- A control character is written as a unit. -/
theorem spells_control {c : Char} (h : c.toNat < 0x20) :
    Piece.Spells (.unit c.toNat) ('\\' :: 'u' :: fourHex c.toNat) ∧
      Piece.Alone (.unit c.toNat) (some c) := by
  have hunit := Piece.Spells.numeric (p := 0) (q := 0) ⟨by decide, .inl rfl⟩ ⟨by decide, .inl rfl⟩
    ⟨show c.toNat / 16 < 16 by omega, .inl rfl⟩ ⟨show c.toNat % 16 < 16 by omega, .inl rfl⟩
  have hvalue : ((0 * 16 + 0) * 16 + c.toNat / 16) * 16 + c.toNat % 16 = c.toNat := by omega
  have hnone : ¬ (IsHigh c.toNat ∨ IsLow c.toNat) := by
    unfold IsHigh IsLow
    omega
  have halone : Content.ofUnit c.toNat = some c := by
    rw [Content.ofUnit, if_neg hnone, Char.ofNat_toNat]
  rw [hvalue] at hunit
  rw [fourHex_of_control h]
  exact ⟨hunit, halone ▸ .unit fun hlow => hnone (.inr hlow)⟩

/-- Each character is written as a piece that stands alone. -/
theorem exists_piece (c : Option Char) :
    ∃ piece : Piece, piece.Spells (c.elim ['\\', 'u', 'd', '8', '0', '0'] writtenChar) ∧
      piece.Alone c := by
  cases c with
  | none =>
      have hunit : Piece.Spells (.unit 0xD800) ['\\', 'u', 'd', '8', '0', '0'] :=
        .numeric (p := 13) (q := 8) (r := 0) (s := 0) ⟨by decide, .inl rfl⟩ ⟨by decide, .inl rfl⟩
          ⟨by decide, .inl rfl⟩ ⟨by decide, .inl rfl⟩
      exact ⟨_, hunit, .unit (by decide)⟩
  | some c =>
      have hshort : ∀ letter d, (letter, d) ∈ shortEscapes → c = d →
          ∃ piece : Piece, piece.Spells ['\\', letter] ∧ piece.Alone (some c) := by
        rintro letter d hmem rfl
        exact ⟨.char c, .short hmem, .char c⟩
      rw [Option.elim_some, writtenChar]
      split_ifs with hquote hbackslash hb hf hn hr ht hcontrol
      · exact hshort '"' '"' (by decide) hquote
      · exact hshort '\\' '\\' (by decide) hbackslash
      · exact hshort 'b' '\x08' (by decide) hb
      · exact hshort 'f' '\x0c' (by decide) hf
      · exact hshort 'n' '\n' (by decide) hn
      · exact hshort 'r' '\r' (by decide) hr
      · exact hshort 't' '\t' (by decide) ht
      · exact ⟨_, spells_control hcontrol⟩
      · exact ⟨.char c, .plain hquote hbackslash (Nat.not_lt.mp hcontrol), .char c⟩

theorem exists_pieces (s : Content) :
    ∃ pieces, Piece.SpellsAll pieces
        (s.flatMap fun c => c.elim ['\\', 'u', 'd', '8', '0', '0'] writtenChar) ∧
      List.Forall₂ Piece.Alone pieces s := by
  induction s with
  | nil => exact ⟨[], .nil, .nil⟩
  | cons c s ih =>
      obtain ⟨piece, hspells, halone⟩ := exists_piece c
      obtain ⟨pieces, hrest, halones⟩ := ih
      exact ⟨piece :: pieces, .cons hspells hrest, .cons halone halones⟩

theorem spells_string (s : Content) : Token.Spells (.string s) (writtenString s) := by
  obtain ⟨pieces, hspells, halones⟩ := exists_pieces s
  have hstring := Token.Spells.string hspells
  rwa [Content.ofPieces_of_alone halones] at hstring

/-! ### Layouts -/

theorem Layout.of_blank {tokens : List Token} {text gap : List Char} (hgap : Blank gap)
    (h : Layout tokens text) : Layout tokens (gap ++ text) := by
  have hblank : ∀ more : List Char, Blank more → Blank (gap ++ more) := fun more hmore c hc =>
    (List.mem_append.mp hc).elim (hgap c) (hmore c)
  cases h with
  | nil hend => exact .nil (hblank _ hend)
  | cons hfront hspells hrest =>
      rw [List.append_assoc, ← List.append_assoc, ← List.append_assoc]
      exact .cons (hblank _ hfront) hspells hrest

theorem Layout.append {front back : List Token} {text more : List Char} (hfront : Layout front text)
    (hback : Layout back more) : Layout (front ++ back) (text ++ more) := by
  induction hfront with
  | nil hgap => exact hback.of_blank hgap
  | cons hgap hspells _ ih =>
      rw [List.append_assoc, List.cons_append]
      exact .cons hgap hspells ih

theorem Layout.token {token : Token} {rest : List Token} {cs more : List Char}
    (h : token.Spells cs) (hrest : Layout rest more) : Layout (token :: rest) (cs ++ more) :=
  .cons (fun _ hc => absurd hc List.not_mem_nil) h hrest

theorem Layout.mark (m : Mark) {rest : List Token} {more : List Char} (hrest : Layout rest more) :
    Layout (.mark m :: rest) (m.char :: more) :=
  .token (.mark m) hrest

theorem Layout.empty : Layout [] [] :=
  .nil fun _ hc => absurd hc List.not_mem_nil

theorem Layout.single {token : Token} {cs : List Char} (h : token.Spells cs) :
    Layout [token] cs := by
  have hlayout := Layout.token h .empty
  rwa [List.append_nil] at hlayout

theorem blank_newLine (level : Nat) : Blank (newLine level) := by
  intro c hc
  rcases List.mem_cons.mp hc with rfl | hc
  · exact .inr (.inr (.inl rfl))
  · exact .inl (List.eq_of_mem_replicate hc)

theorem blank_space : Blank [' '] :=
  fun _ hc => .inl (List.mem_singleton.mp hc)

/-- Whether all numbers among tokens are spelled as they are written. -/
def Spellable (tokens : List Token) : Prop :=
  ∀ n, Token.number n ∈ tokens → n.Spells (writtenNumber n)

namespace Spellable

variable {token : Token} {front back : List Token}

theorem of_cons (h : Spellable (token :: back)) : Spellable back :=
  fun n hn => h n (List.mem_cons_of_mem token hn)

theorem left (h : Spellable (front ++ back)) : Spellable front :=
  fun n hn => h n (List.mem_append_left back hn)

theorem right (h : Spellable (front ++ back)) : Spellable back :=
  fun n hn => h n (List.mem_append_right front hn)

theorem nil : Spellable [] :=
  fun _ hn => absurd hn List.not_mem_nil

theorem append_iff : Spellable (front ++ back) ↔ Spellable front ∧ Spellable back :=
  ⟨fun h => ⟨h.left, h.right⟩, fun h n hn => (List.mem_append.mp hn).elim (h.1 n) (h.2 n)⟩

theorem mark_iff (m : Mark) : Spellable (.mark m :: back) ↔ Spellable back :=
  ⟨of_cons, fun h n hn => h n ((List.mem_cons.mp hn).resolve_left nofun)⟩

theorem string_iff (s : Content) : Spellable (.string s :: back) ↔ Spellable back :=
  ⟨of_cons, fun h n hn => h n ((List.mem_cons.mp hn).resolve_left nofun)⟩

end Spellable

section Values

variable {v : Value} {vs : List Value} {ms : List (Content × Value)}

open Spellable

theorem spellable_text (s : String) : Spellable (Value.text s).tokens := by
  rw [Value.text, Value.tokens]
  exact (string_iff _).mpr .nil

theorem spellable_natural (n : Nat) : Spellable (Value.natural n).tokens := by
  rw [Value.natural, Value.tokens]
  intro m hm
  obtain rfl : m = .natural n := by simpa using hm
  exact Number.spells_natural n

theorem spellable_itemTokens_iff :
    Spellable (itemTokens vs) ↔ ∀ v ∈ vs, Spellable v.tokens := by
  induction vs with
  | nil => simp [itemTokens, Spellable.nil]
  | cons v vs ih => rw [itemTokens, mark_iff, append_iff, ih, List.forall_mem_cons]

theorem spellable_memberTokens_iff :
    Spellable (memberTokens ms) ↔ ∀ m ∈ ms, Spellable m.2.tokens := by
  induction ms with
  | nil => simp [memberTokens, Spellable.nil]
  | cons m ms ih =>
      rw [memberTokens, mark_iff, string_iff, mark_iff, append_iff, ih, List.forall_mem_cons]

theorem spellable_array_iff :
    Spellable (Value.array vs).tokens ↔ ∀ v ∈ vs, Spellable v.tokens := by
  cases vs with
  | nil => simp [Value.tokens, mark_iff, Spellable.nil]
  | cons v vs =>
      rw [Value.tokens, mark_iff, append_iff, append_iff, mark_iff, spellable_itemTokens_iff,
        List.forall_mem_cons, and_iff_left Spellable.nil]

theorem spellable_object_iff :
    Spellable (Value.object ms).tokens ↔ ∀ m ∈ ms, Spellable m.2.tokens := by
  cases ms with
  | nil => simp [Value.tokens, mark_iff, Spellable.nil]
  | cons m ms =>
      rw [Value.tokens, mark_iff, string_iff, mark_iff, append_iff, append_iff, mark_iff,
        spellable_memberTokens_iff, List.forall_mem_cons, and_iff_left Spellable.nil]

theorem spellable_record_iff {members : List (String × Value)} :
    Spellable (Value.record members).tokens ↔ ∀ m ∈ members, Spellable m.2.tokens := by
  rw [Value.record, spellable_object_iff, List.forall_mem_map]

end Values

mutual

/-- The compact form is laid out without any blank. -/
theorem layout_compact : (v : Value) → Spellable v.tokens → Layout v.tokens (compact v)
  | .null, _ => by
      rw [Value.tokens, compact]
      exact .single .null
  | .bool true, _ => by
      rw [Value.tokens, compact]
      exact .single .yes
  | .bool false, _ => by
      rw [Value.tokens, compact]
      exact .single .no
  | .number n, h => by
      rw [Value.tokens] at h ⊢
      rw [compact]
      exact .single (.number (h n List.mem_cons_self))
  | .string s, _ => by
      rw [Value.tokens, compact]
      exact .single (spells_string s)
  | .array [], _ => by
      rw [Value.tokens, compact]
      exact .mark .openArray (.mark .closeArray .empty)
  | .array (v :: vs), h => by
      rw [Value.tokens] at h ⊢
      rw [compact, List.cons_append, List.cons_append, List.append_assoc]
      exact .mark .openArray ((layout_compact v h.of_cons.left).append
        ((layout_compactItems vs h.of_cons.right.left).append (.mark .closeArray .empty)))
  | .object [], _ => by
      rw [Value.tokens, compact]
      exact .mark .openObject (.mark .closeObject .empty)
  | .object ((key, v) :: ms), h => by
      rw [Value.tokens] at h ⊢
      have hmembers := h.of_cons.of_cons.of_cons
      simp only [compact, List.cons_append, List.append_assoc]
      exact .mark .openObject (.token (spells_string key) (.mark .colon
        ((layout_compact v hmembers.left).append
          ((layout_compactMembers ms hmembers.right.left).append (.mark .closeObject .empty)))))

theorem layout_compactItems : (vs : List Value) → Spellable (itemTokens vs) →
    Layout (itemTokens vs) (compactItems vs)
  | [], _ => by
      rw [itemTokens, compactItems]
      exact .empty
  | v :: vs, h => by
      rw [itemTokens] at h ⊢
      rw [compactItems, List.cons_append]
      exact .mark .comma ((layout_compact v h.of_cons.left).append
        (layout_compactItems vs h.of_cons.right))

theorem layout_compactMembers : (ms : List (Content × Value)) → Spellable (memberTokens ms) →
    Layout (memberTokens ms) (compactMembers ms)
  | [], _ => by
      rw [memberTokens, compactMembers]
      exact .empty
  | (key, v) :: ms, h => by
      rw [memberTokens] at h ⊢
      have hmembers := h.of_cons.of_cons.of_cons
      simp only [compactMembers, List.cons_append, List.append_assoc]
      exact .mark .comma (.token (spells_string key) (.mark .colon
        ((layout_compact v hmembers.left).append (layout_compactMembers ms hmembers.right))))

end

mutual

/-- The pretty form is laid out with a new line in front of each item, each member and each end. -/
theorem layout_pretty : (level : Nat) → (v : Value) → Spellable v.tokens →
    Layout v.tokens (pretty level v)
  | _, .null, _ => by
      rw [Value.tokens, pretty]
      exact .single .null
  | _, .bool true, _ => by
      rw [Value.tokens, pretty]
      exact .single .yes
  | _, .bool false, _ => by
      rw [Value.tokens, pretty]
      exact .single .no
  | _, .number n, h => by
      rw [Value.tokens] at h ⊢
      rw [pretty]
      exact .single (.number (h n List.mem_cons_self))
  | _, .string s, _ => by
      rw [Value.tokens, pretty]
      exact .single (spells_string s)
  | _, .array [], _ => by
      rw [Value.tokens, pretty]
      exact .mark .openArray (.mark .closeArray .empty)
  | level, .array (v :: vs), h => by
      rw [Value.tokens] at h ⊢
      simp only [pretty, List.cons_append, List.append_assoc]
      have hclose := (Layout.mark .closeArray .empty).of_blank (blank_newLine level)
      have hitems := (layout_prettyItems (level + 1) vs h.of_cons.right.left).append hclose
      exact .mark .openArray (((layout_pretty (level + 1) v h.of_cons.left).append hitems).of_blank
        (blank_newLine (level + 1)))
  | _, .object [], _ => by
      rw [Value.tokens, pretty]
      exact .mark .openObject (.mark .closeObject .empty)
  | level, .object ((key, v) :: ms), h => by
      rw [Value.tokens] at h ⊢
      have hmembers := h.of_cons.of_cons.of_cons
      simp only [pretty, List.cons_append, List.append_assoc]
      have hclose := (Layout.mark .closeObject .empty).of_blank (blank_newLine level)
      have hrest := (layout_prettyMembers (level + 1) ms hmembers.right.left).append hclose
      have hvalue := ((layout_pretty (level + 1) v hmembers.left).append hrest).of_blank blank_space
      exact .mark .openObject ((Layout.token (spells_string key) (.mark .colon hvalue)).of_blank
        (blank_newLine (level + 1)))

theorem layout_prettyItems : (level : Nat) → (vs : List Value) → Spellable (itemTokens vs) →
    Layout (itemTokens vs) (prettyItems level vs)
  | _, [], _ => by
      rw [itemTokens, prettyItems]
      exact .empty
  | level, v :: vs, h => by
      rw [itemTokens] at h ⊢
      simp only [prettyItems, List.cons_append, List.append_assoc]
      exact .mark .comma (((layout_pretty level v h.of_cons.left).append
        (layout_prettyItems level vs h.of_cons.right)).of_blank (blank_newLine level))

theorem layout_prettyMembers : (level : Nat) → (ms : List (Content × Value)) →
    Spellable (memberTokens ms) → Layout (memberTokens ms) (prettyMembers level ms)
  | _, [], _ => by
      rw [memberTokens, prettyMembers]
      exact .empty
  | level, (key, v) :: ms, h => by
      rw [memberTokens] at h ⊢
      have hmembers := h.of_cons.of_cons.of_cons
      simp only [prettyMembers, List.cons_append, List.append_assoc]
      have hvalue := ((layout_pretty level v hmembers.left).append
        (layout_prettyMembers level ms hmembers.right)).of_blank blank_space
      exact .mark .comma ((Layout.token (spells_string key) (.mark .colon hvalue)).of_blank
        (blank_newLine level))

end

namespace Value

variable {v : Value}

/-- **The compact form gives the value back.** -/
theorem parse?_toCompact (h : Spellable v.tokens) : parse? v.toCompact = some v := by
  apply parse?_of_layout
  rw [toCompact, String.toList_ofList]
  exact layout_compact v h

/-- **The pretty form gives the value back.** -/
theorem parse?_toPretty (h : Spellable v.tokens) : parse? v.toPretty = some v := by
  apply parse?_of_layout
  rw [toPretty, String.toList_ofList]
  exact layout_pretty 0 v h

end Value

end ArtifactHarvest.Json
