import ArtifactHarvest.Proofs.Json.Grammar
import Mathlib

/-!
The automaton finds the tokens of a text in which they are laid out (`tokens?_of_layout`). What is
left of a text is read from where the automaton stands (`remaining`): a mark and a string end by
themselves, a number or a word ends where a character follows that cannot stand in it.
-/

namespace ArtifactHarvest.Json

/-! ### Numbers -/

namespace Number

/-- Digits are taken up to where something else follows. -/
theorem someDigits_append {digits rest : List Char} (h : Digits digits)
    (hrest : ∀ c ∈ rest.head?, isDigit c = false) : someDigits (digits ++ rest) = some rest := by
  have hnone : rest.takeWhile isDigit = [] ∧ rest.dropWhile isDigit = rest := by
    cases rest with
    | nil => exact ⟨rfl, rfl⟩
    | cons c more =>
        have hc := hrest c rfl
        simp [hc]
  rw [someDigits, List.takeWhile_append_of_pos h.2, List.dropWhile_append_of_pos h.2, hnone.1,
    hnone.2, List.append_nil, if_neg h.1]

theorem integerPart_append {whole rest : List Char} (h : Whole whole)
    (hrest : ∀ c ∈ rest.head?, isDigit c = false) : integerPart (whole ++ rest) = some rest := by
  cases h with
  | zero => rfl
  | digits hzero hdigits =>
      rw [← someDigits_append hdigits hrest, integerPart]
      rintro more hcons
      exact absurd (List.cons.inj hcons).1 hzero

theorem fractionPart_append {fraction rest : List Char} (h : Fraction fraction)
    (hrest : ∀ c ∈ rest.head?, isDigit c = false ∧ c ≠ '.') :
    fractionPart (fraction ++ rest) = some rest := by
  cases h with
  | none =>
      rw [List.nil_append, fractionPart]
      rintro more rfl
      exact absurd rfl (hrest '.' rfl).2
  | point hdigits => exact someDigits_append hdigits fun c hc => (hrest c hc).1

theorem exponentPart_of_exponent {exponent : List Char} (h : Exponent exponent) :
    exponentPart exponent = some [] := by
  cases h with
  | none => rfl
  | @power mark sign digits hmark hsign hdigits =>
      have hend : someDigits (digits ++ []) = some [] := someDigits_append hdigits (by simp)
      rw [List.append_nil] at hend
      rcases hsign with rfl | rfl | rfl
      · obtain ⟨d, ds, rfl⟩ := List.exists_cons_of_ne_nil hdigits.1
        have hd := hdigits.2 d List.mem_cons_self
        simp only [List.cons_append, List.nil_append, exponentPart, hmark, if_true]
        split
        · rename_i hplus
          rw [(List.cons.inj hplus).1] at hd
          cases hd
        · rename_i hminus
          rw [(List.cons.inj hminus).1] at hd
          cases hd
        · exact hend
      · simpa [exponentPart, hmark] using hend
      · simpa [exponentPart, hmark] using hend

/-- Where a fraction and an exponent begin, no digit stands. -/
theorem not_isDigit_of_head_fraction {fraction exponent : List Char} (hfraction : Fraction fraction)
    (hexponent : Exponent exponent) :
    ∀ c ∈ (fraction ++ exponent).head?, isDigit c = false := by
  intro c hc
  cases hfraction with
  | point =>
      obtain rfl := Option.mem_some.mp hc
      rfl
  | none =>
      cases hexponent with
      | none => cases hc
      | power hmark =>
          obtain rfl := Option.mem_some.mp hc
          rcases hmark with rfl | rfl <;> rfl

theorem isDigit_of_whole {whole : List Char} (h : Whole whole) :
    whole ≠ [] ∧ ∀ c ∈ whole, isDigit c = true := by
  cases h with
  | zero => exact ⟨by simp, by simp [isDigit]⟩
  | digits _ hdigits => exact hdigits

theorem ne_minus_of_whole {whole rest : List Char} (h : Whole whole) :
    (whole ++ rest).head? ≠ some '-' := by
  cases h with
  | zero => simp
  | digits _ hdigits =>
      intro hminus
      have hd := hdigits.2 _ List.mem_cons_self
      rw [Option.some.inj hminus] at hd
      cases hd

/-- The parts of a number are taken off one after another. -/
theorem parts_of_number {whole fraction exponent : List Char} (hwhole : Whole whole)
    (hfraction : Fraction fraction) (hexponent : Exponent exponent) :
    ((integerPart (whole ++ (fraction ++ exponent))).bind fractionPart).bind exponentPart =
      some [] := by
  have hpoint : ∀ c ∈ exponent.head?, isDigit c = false ∧ c ≠ '.' := by
    intro c hc
    cases hexponent with
    | none => cases hc
    | power hmark =>
        obtain rfl := Option.mem_some.mp hc
        rcases hmark with rfl | rfl <;> decide
  rw [integerPart_append hwhole (not_isDigit_of_head_fraction hfraction hexponent),
    Option.bind_some, fractionPart_append hfraction hpoint, Option.bind_some,
    exponentPart_of_exponent hexponent]

/-- A sign, a point or a mark of an exponent is no digit. -/
theorem exists_not_isDigit {sign fraction exponent : List Char} (hsign : sign = [] ∨ sign = ['-'])
    (hfraction : Fraction fraction) (hexponent : Exponent exponent)
    (hmore : ¬ (sign = [] ∧ fraction = [] ∧ exponent = [])) (whole : List Char) :
    (sign ++ whole ++ fraction ++ exponent).all isDigit = false := by
  rw [List.all_eq_false]
  rcases hsign with rfl | rfl
  · cases hfraction with
    | point => exact ⟨'.', by simp, by decide⟩
    | none =>
        cases hexponent with
        | none => exact absurd ⟨rfl, rfl, rfl⟩ hmore
        | @power mark _ _ hmark =>
            refine ⟨mark, by simp, ?_⟩
            rcases hmark with rfl | rfl <;> decide
  · exact ⟨'-', by simp, by decide⟩

/-- **A spelled number is read.** -/
theorem ofSpelling?_of_spells {n : Number} {cs : List Char} (h : n.Spells cs) :
    ofSpelling? cs = some n := by
  cases h with
  | natural hwhole =>
      have hparts := parts_of_number hwhole .none .none
      have hminus : (cs ++ []).head? ≠ some '-' := ne_minus_of_whole hwhole
      have hdigits : cs.all isDigit = true := List.all_eq_true.mpr (isDigit_of_whole hwhole).2
      rw [List.append_nil] at hminus
      rw [List.append_nil, List.append_nil] at hparts
      simp only [ofSpelling?, hminus, if_false, hparts, hdigits, if_true]
      rfl
  | @other sign whole fraction exponent hsign hwhole hfraction hexponent hmore =>
      have hparts := parts_of_number hwhole hfraction hexponent
      have hall := exists_not_isDigit hsign hfraction hexponent hmore whole
      have hunsigned : (if (sign ++ whole ++ fraction ++ exponent).head? = some '-' then
          (sign ++ whole ++ fraction ++ exponent).tail else sign ++ whole ++ fraction ++ exponent) =
            whole ++ (fraction ++ exponent) := by
        rcases hsign with rfl | rfl
        · rw [List.nil_append, List.append_assoc, if_neg (ne_minus_of_whole hwhole)]
        · simp
      simp only [ofSpelling?, hunsigned, hparts, hall, Bool.false_eq_true, if_false]

end Number

namespace Mode

theorem isBare_of_isDigit {c : Char} (h : Number.isDigit c = true) : isBare c = true := by
  simp [isBare, h]

theorem isBare_of_digits {digits : List Char} (h : Number.Digits digits) :
    ∀ c ∈ digits, isBare c = true :=
  fun c hc => isBare_of_isDigit (h.2 c hc)

theorem isBare_of_sign {sign : List Char} (h : sign = [] ∨ sign = ['+'] ∨ sign = ['-']) :
    ∀ c ∈ sign, isBare c = true := by
  rcases h with rfl | rfl | rfl <;> simp [isBare]

theorem isBare_of_fraction {fraction : List Char} (h : Number.Fraction fraction) :
    ∀ c ∈ fraction, isBare c = true := by
  cases h with
  | none => exact List.forall_mem_nil _
  | point hdigits => exact List.forall_mem_cons.mpr ⟨rfl, isBare_of_digits hdigits⟩

theorem isBare_of_exponent {exponent : List Char} (h : Number.Exponent exponent) :
    ∀ c ∈ exponent, isBare c = true := by
  cases h with
  | none => exact List.forall_mem_nil _
  | @power mark sign digits hmark hsign hdigits =>
      have hbare : isBare mark = true := by
        rcases hmark with rfl | rfl <;> decide
      rw [List.cons_append, List.forall_mem_cons, List.forall_mem_append]
      exact ⟨hbare, isBare_of_sign hsign, isBare_of_digits hdigits⟩

/-- The characters of a number are bare ones. -/
theorem isBare_of_spells {n : Number} {cs : List Char} (h : n.Spells cs) :
    cs ≠ [] ∧ ∀ c ∈ cs, isBare c = true := by
  cases h with
  | natural hwhole =>
      have hdigits := Number.isDigit_of_whole hwhole
      exact ⟨hdigits.1, isBare_of_digits hdigits⟩
  | other hsign hwhole hfraction hexponent _ =>
      have hdigits := Number.isDigit_of_whole hwhole
      simp only [List.forall_mem_append]
      exact ⟨by simp [hdigits.1],
        ⟨⟨isBare_of_sign (hsign.imp_right .inr), isBare_of_digits hdigits⟩,
          isBare_of_fraction hfraction⟩, isBare_of_exponent hexponent⟩

theorem not_isBare_of_isBlank {c : Char} (h : isBlank c = true) : isBare c = false := by
  simp only [isBlank, Bool.or_eq_true, beq_iff_eq] at h
  obtain ((rfl | rfl) | rfl) | rfl := h <;> decide

theorem bareToken?_of_spells {n : Number} {cs : List Char} (h : n.Spells cs) :
    bareToken? cs = some (.number n) := by
  have hread := Number.ofSpelling?_of_spells h
  have hword : ∀ word : List Char, Number.ofSpelling? word = none → cs ≠ word := by
    rintro word hnone rfl
    rw [hnone] at hread
    cases hread
  rw [bareToken?, if_neg (hword _ (by decide)), if_neg (hword _ (by decide)),
    if_neg (hword _ (by decide)), hread, Option.map_some]

end Mode

/-! ### What is left of a text -/

/-- The tokens of what is left of a text, behind those read so far, the newest first. -/
def remaining (soFar : List Token) (mode : Mode) (text : List Char) : Option (List Token) :=
  (text.foldlM advance (soFar, mode)).bind fun (newestFirst, mode) =>
    mode.finish.map fun last => (last ++ newestFirst).reverse

theorem remaining_cons (soFar : List Token) (mode : Mode) (c : Char) (rest : List Char) :
    remaining soFar mode (c :: rest) =
      (mode.step c).bind fun (tokens, next) => remaining (tokens ++ soFar) next rest := by
  cases h : mode.step c <;> simp [remaining, advance, h]

theorem remaining_of_step {soFar tokens : List Token} {mode next : Mode} {c : Char}
    (h : mode.step c = some (tokens, next)) (rest : List Char) :
    remaining soFar mode (c :: rest) = remaining (tokens ++ soFar) next rest := by
  rw [remaining_cons, h, Option.bind_some]

/-- Blanks are passed over. -/
theorem remaining_blank {gap : List Char} (h : Blank gap) (soFar : List Token) (rest : List Char) :
    remaining soFar .between (gap ++ rest) = remaining soFar .between rest := by
  induction gap with
  | nil => rfl
  | cons c gap ih =>
      have hblank : Mode.isBlank c = true := by
        rcases h c List.mem_cons_self with rfl | rfl | rfl | rfl <;> rfl
      have hstep : Mode.between.step c = some ([], .between) := by
        simp [Mode.step, Mode.start, hblank]
      rw [List.cons_append, remaining_of_step hstep, List.nil_append]
      exact ih fun d hd => h d (List.mem_cons_of_mem c hd)

theorem remaining_mark (m : Mark) (soFar : List Token) (rest : List Char) :
    remaining soFar .between (m.char :: rest) = remaining (.mark m :: soFar) .between rest := by
  have hstep : Mode.between.step m.char = some ([.mark m], .between) := by
    cases m <;> rfl
  exact remaining_of_step hstep rest

/-! ### Numbers and words -/

theorem remaining_more_bare {cs : List Char} (h : ∀ c ∈ cs, Mode.isBare c = true)
    (soFar : List Token) (begun rest : List Char) :
    remaining soFar (.bare begun) (cs ++ rest) =
      remaining soFar (.bare (cs.reverse ++ begun)) rest := by
  induction cs generalizing begun with
  | nil => rfl
  | cons c cs ih =>
      have hstep : (Mode.bare begun).step c = some ([], .bare (c :: begun)) := by
        simp [Mode.step, h c List.mem_cons_self]
      rw [List.cons_append, remaining_of_step hstep, List.nil_append,
        ih (fun d hd => h d (List.mem_cons_of_mem c hd)), List.reverse_cons, List.append_assoc,
        List.singleton_append]

/-- Bare characters make a token where something else follows. -/
theorem remaining_bare {cs rest : List Char} {token : Token} (hne : cs ≠ [])
    (hbare : ∀ c ∈ cs, Mode.isBare c = true) (htoken : Mode.bareToken? cs = some token)
    (hrest : ∀ c ∈ rest.head?, Mode.isBare c = false) (soFar : List Token) :
    remaining soFar .between (cs ++ rest) = remaining (token :: soFar) .between rest := by
  obtain ⟨c, cs, rfl⟩ := List.exists_cons_of_ne_nil hne
  have hc := hbare c List.mem_cons_self
  have hstep : Mode.between.step c = some ([], .bare [c]) := by
    have hblank : Mode.isBlank c = false := by
      refine Bool.eq_false_iff.mpr fun hblank => ?_
      rw [Mode.not_isBare_of_isBlank hblank] at hc
      cases hc
    have hquote : c ≠ '"' := by
      rintro rfl
      exact absurd hc (by decide)
    simp [Mode.step, Mode.start, hblank, hquote, hc]
  rw [List.cons_append, remaining_of_step hstep, List.nil_append,
    remaining_more_bare fun d hd => hbare d (List.mem_cons_of_mem c hd)]
  rw [← List.reverse_cons]
  cases rest with
  | nil => simp [remaining, Mode.finish, htoken]
  | cons d rest =>
      have hd := hrest d rfl
      rw [remaining_cons, remaining_cons]
      simp only [Mode.step, hd, Bool.false_eq_true, if_false, List.reverse_reverse, htoken,
        Option.bind_some]
      cases Mode.start d <;> simp

/-! ### Strings -/

namespace Content

theorem ofPieces_unit {u : Nat} (h : ¬ IsHigh u) (rest : List Piece) :
    ofPieces (.unit u :: rest) = ofUnit u :: ofPieces rest := by
  cases rest with
  | nil => rfl
  | cons piece rest =>
      cases piece with
      | char c => rfl
      | unit l => rw [ofPieces, if_neg fun hpair => h hpair.1]

theorem ofPieces_high {h u : Nat} (hu : ¬ IsLow u) (rest : List Piece) :
    ofPieces (.unit h :: .unit u :: rest) = ofUnit h :: ofPieces (.unit u :: rest) := by
  rw [ofPieces, if_neg fun hpair => hu hpair.2]

theorem ofUnit_of_high {u : Nat} (h : IsHigh u) : ofUnit u = none :=
  if_pos (.inl h)

theorem ofUnit_of_low {u : Nat} (h : IsLow u) : ofUnit u = none :=
  if_pos (.inr h)

end Content

theorem hexValue?_of_hexDigit {c : Char} {value : Nat} (h : HexDigit c value) :
    Mode.hexValue? c = some value := by
  obtain ⟨hvalue, rfl | rfl⟩ := h <;> interval_cases value <;> decide

theorem simpleEscape?_of_mem {letter c : Char} (h : (letter, c) ∈ shortEscapes) :
    letter ≠ 'u' ∧ Mode.simpleEscape? letter = some c := by
  simp only [shortEscapes, List.mem_cons, Prod.mk.injEq, List.not_mem_nil, or_false] at h
  obtain ⟨rfl, rfl⟩ | ⟨rfl, rfl⟩ | ⟨rfl, rfl⟩ | ⟨rfl, rfl⟩ | ⟨rfl, rfl⟩ | ⟨rfl, rfl⟩ | ⟨rfl, rfl⟩ |
    ⟨rfl, rfl⟩ := h <;> decide

/-- The automaton in a string, one piece further. -/
def Piece.onto (soFar : Content) (high : Option Nat) : Piece → Mode
  | .char c => .string (some c :: Mode.settled soFar high) none
  | .unit u => Mode.afterHex soFar high u

theorem step_hex {c : Char} {value : Nat} (h : HexDigit c value) (soFar : Content)
    (high : Option Nat) (u due : Nat) :
    (Mode.hex soFar high u (due + 2)).step c =
      some ([], .hex soFar high (16 * u + value) (due + 1)) := by
  simp [Mode.step, hexValue?_of_hexDigit h]

theorem step_lastHex {c : Char} {value : Nat} (h : HexDigit c value) (soFar : Content)
    (high : Option Nat) (u : Nat) :
    (Mode.hex soFar high u 1).step c =
      some ([], Mode.afterHex soFar high (16 * u + value)) := by
  simp [Mode.step, hexValue?_of_hexDigit h]

theorem remaining_piece {piece : Piece} {cs : List Char} (h : piece.Spells cs)
    (read : List Token) (soFar : Content) (high : Option Nat) (rest : List Char) :
    remaining read (.string soFar high) (cs ++ rest) =
      remaining read (piece.onto soFar high) rest := by
  have hslash : (Mode.string soFar high).step '\\' = some ([], .escape soFar high) := by
    simp [Mode.step]
  cases h with
  | @plain c hquote hbackslash hcontrol =>
      have hstep : (Mode.string soFar high).step c =
          some ([], .string (some c :: Mode.settled soFar high) none) := by
        simp [Mode.step, hquote, hbackslash, Nat.not_lt.mpr hcontrol]
      exact remaining_of_step hstep rest
  | @short letter c hmem =>
      obtain ⟨hu, hescape⟩ := simpleEscape?_of_mem hmem
      have hletter : (Mode.escape soFar high).step letter =
          some ([], .string (some c :: Mode.settled soFar high) none) := by
        simp [Mode.step, hu, hescape]
      exact (remaining_of_step hslash _).trans (remaining_of_step hletter rest)
  | @numeric a b c d p q r s ha hb hc hd =>
      have hnumeric : (Mode.escape soFar high).step 'u' = some ([], .hex soFar high 0 4) := rfl
      have hunit : ((p * 16 + q) * 16 + r) * 16 + s =
          16 * (16 * (16 * (16 * 0 + p) + q) + r) + s := by omega
      simp only [List.cons_append, List.nil_append]
      rw [remaining_of_step hslash, remaining_of_step hnumeric, remaining_of_step (step_hex ha ..),
        remaining_of_step (step_hex hb ..), remaining_of_step (step_hex hc ..),
        remaining_of_step (step_lastHex hd ..), Piece.onto, hunit]
      rfl

namespace Mode

variable {soFar : Content} {high : Option Nat} {u : Nat}

theorem afterHex_high (h : IsHigh u) :
    afterHex soFar high u = .string (settled soFar high) (some u) :=
  if_pos h

theorem afterHex_pair {h : Nat} (hu : IsLow u) :
    afterHex soFar (some h) u = .string (some (Content.ofPair h u) :: soFar) none :=
  (if_neg fun hhigh => Nat.not_lt.mpr hu.1 hhigh.2).trans (if_pos hu)

theorem afterHex_low (hu : IsLow u) : afterHex soFar none u = .string (none :: soFar) none :=
  (if_neg fun hhigh => Nat.not_lt.mpr hu.1 hhigh.2).trans (if_pos hu)

theorem afterHex_plain (hhigh : ¬ IsHigh u) (hlow : ¬ IsLow u) :
    afterHex soFar high u = .string (some (Char.ofNat u) :: settled soFar high) none :=
  (if_neg hhigh).trans (if_neg hlow)

end Mode

/-- One piece further, the automaton is in the string still. What it has, with a half that waits in
front of what is to come, makes up the same content as before. -/
theorem Piece.exists_onto (piece : Piece) (soFar : Content) (high : Option Nat)
    (hhigh : ∀ u ∈ high, IsHigh u) :
    ∃ soFar' high', piece.onto soFar high = .string soFar' high' ∧ (∀ u ∈ high', IsHigh u) ∧
      ∀ more, (Content.ofPieces (high'.toList.map .unit ++ more)).reverse ++ soFar' =
        (Content.ofPieces (high.toList.map .unit ++ piece :: more)).reverse ++ soFar := by
  -- a half that waits stands alone if the piece is not the other half
  have hsettled : Mode.settled soFar high = (high.toList.map Content.ofUnit).reverse ++ soFar := by
    cases high with
    | none => rfl
    | some u => simp [Mode.settled, Content.ofUnit_of_high (hhigh u rfl)]
  cases piece with
  | char c =>
      refine ⟨_, _, rfl, by simp, fun more => ?_⟩
      rw [hsettled]
      cases high <;> simp [Content.ofPieces]
  | unit u =>
      rw [Piece.onto]
      by_cases hu : IsHigh u
      · have hlow : ¬ IsLow u := fun hlow => Nat.not_lt.mpr hlow.1 hu.2
        refine ⟨_, _, Mode.afterHex_high hu, by simpa using hu, fun more => ?_⟩
        rw [hsettled]
        cases high <;> simp [Content.ofPieces_high hlow]
      · by_cases hlow : IsLow u
        · cases high with
          | none =>
              refine ⟨_, _, Mode.afterHex_low hlow, by simp, fun more => ?_⟩
              simp [Content.ofPieces_unit hu, Content.ofUnit_of_low hlow]
          | some h =>
              refine ⟨_, _, Mode.afterHex_pair hlow, by simp, fun more => ?_⟩
              simp [Content.ofPieces, hhigh h rfl, hlow]
        · have hplain : Content.ofUnit u = some (Char.ofNat u) := if_neg (by simp [hu, hlow])
          refine ⟨_, _, Mode.afterHex_plain hu hlow, by simp, fun more => ?_⟩
          rw [hsettled]
          cases high <;> simp [Content.ofPieces_high hlow, Content.ofPieces_unit hu, hplain]

/-- In a string the automaton collects the content of the pieces, behind what it has. -/
theorem remaining_pieces {pieces : List Piece} {cs : List Char} (h : Piece.SpellsAll pieces cs)
    (read : List Token) (soFar : Content) (high : Option Nat) (hhigh : ∀ u ∈ high, IsHigh u)
    (rest : List Char) :
    ∃ soFar' high', remaining read (.string soFar high) (cs ++ rest) =
        remaining read (.string soFar' high') rest ∧
      Mode.settled soFar' high' =
        (Content.ofPieces (high.toList.map .unit ++ pieces)).reverse ++ soFar := by
  induction h generalizing soFar high with
  | nil =>
      refine ⟨soFar, high, rfl, ?_⟩
      cases high with
      | none => rfl
      | some u =>
          have hnone := Content.ofUnit_of_high (hhigh u rfl)
          simp [Mode.settled, Content.ofPieces, hnone]
  | @cons piece pieces cs more hpiece _ ih =>
      obtain ⟨onward, waiting, honto, hwaiting, hsame⟩ := piece.exists_onto soFar high hhigh
      obtain ⟨soFar', high', hread, hcontent⟩ := ih onward waiting hwaiting
      refine ⟨soFar', high', ?_, hcontent.trans (hsame pieces)⟩
      rw [List.append_assoc, remaining_piece hpiece, honto, hread]

theorem remaining_string {pieces : List Piece} {cs : List Char} (h : Piece.SpellsAll pieces cs)
    (read : List Token) (rest : List Char) :
    remaining read .between ('"' :: cs ++ ['"'] ++ rest) =
      remaining (.string (Content.ofPieces pieces) :: read) .between rest := by
  have hopen : Mode.between.step '"' = some ([], .string [] none) := rfl
  obtain ⟨soFar, high, hread, hcontent⟩ := remaining_pieces h read [] none (by simp) ('"' :: rest)
  have hclose : (Mode.string soFar high).step '"' =
      some ([.string (Mode.settled soFar high).reverse], .between) := by simp [Mode.step]
  rw [List.append_assoc, List.cons_append, remaining_of_step hopen, List.nil_append]
  refine hread.trans ((remaining_of_step hclose rest).trans ?_)
  rw [hcontent]
  simp

/-! ### Whole texts -/

namespace Token

/-- Whether a token ends only where a character follows that cannot stand in it. -/
def isBare : Token → Bool
  | .null | .bool _ | .number _ => true
  | .mark _ | .string _ => false

/-- A token that is no word and no number does not begin like one. -/
theorem Spells.head_not_bare {token : Token} {cs : List Char} (h : token.Spells cs)
    (htoken : token.isBare = false) : ∃ c more, cs = c :: more ∧ Mode.isBare c = false := by
  cases h with
  | mark m => exact ⟨_, _, rfl, by cases m <;> decide⟩
  | string => exact ⟨_, _, rfl, by decide⟩
  | null | yes | no | number => cases htoken

/-- One token further. -/
theorem Spells.remaining {token : Token} {cs rest : List Char} (h : token.Spells cs)
    (hrest : token.isBare = true → ∀ c ∈ rest.head?, Mode.isBare c = false) (read : List Token) :
    remaining read .between (cs ++ rest) = Json.remaining (token :: read) .between rest := by
  cases h with
  | mark m => exact remaining_mark m read rest
  | string hpieces => exact remaining_string hpieces read rest
  | null | yes | no =>
      exact remaining_bare (by simp) (List.all_eq_true.mp rfl) rfl (hrest rfl) read
  | number hspells =>
      obtain ⟨hne, hbare⟩ := Mode.isBare_of_spells hspells
      exact remaining_bare hne hbare (Mode.bareToken?_of_spells hspells) (hrest rfl) read

end Token

/-- No two tokens stand side by side that a reader could take for one. -/
def Separated (tokens : List Token) : Prop :=
  tokens.IsChain fun a b => a.isBare = false ∨ b.isBare = false

theorem Blank.not_bare {gap : List Char} (h : Blank gap) : ∀ c ∈ gap, Mode.isBare c = false := by
  intro c hc
  rcases h c hc with rfl | rfl | rfl | rfl <;> decide

/-- Where no bare token comes next, no bare character does. -/
theorem Layout.head_not_bare {tokens : List Token} {text : List Char} (h : Layout tokens text)
    (htokens : ∀ token ∈ tokens.head?, token.isBare = false) :
    ∀ c ∈ text.head?, Mode.isBare c = false := by
  intro c hc
  cases h with
  | nil hgap => exact hgap.not_bare c (List.mem_of_mem_head? hc)
  | @cons gap cs more token rest hgap hspells =>
      cases gap with
      | nil =>
          obtain ⟨first, others, rfl, hbare⟩ := hspells.head_not_bare (htokens token rfl)
          obtain rfl := Option.mem_some.mp hc
          exact hbare
      | cons blank gap =>
          obtain rfl := Option.mem_some.mp hc
          exact hgap.not_bare blank List.mem_cons_self

theorem remaining_layout {tokens : List Token} {text : List Char} (h : Layout tokens text)
    (hseparated : Separated tokens) (read : List Token) :
    remaining read .between text = some (read.reverse ++ tokens) := by
  induction h generalizing read with
  | @nil gap hgap =>
      have hend := remaining_blank hgap read []
      rw [List.append_nil] at hend
      rw [hend]
      simp [remaining, Mode.finish]
  | @cons gap cs more token rest hgap hspells hmore ih =>
      obtain ⟨hfirst, hrest⟩ := List.isChain_cons.mp hseparated
      have hnext : token.isBare = true → ∀ c ∈ more.head?, Mode.isBare c = false := by
        intro htoken
        apply hmore.head_not_bare
        intro next hnext
        exact (hfirst next hnext).resolve_left (by simp [htoken])
      rw [List.append_assoc, remaining_blank hgap, hspells.remaining hnext, ih hrest]
      simp

/-- **The automaton finds the tokens of a text.** -/
theorem tokens?_of_layout {tokens : List Token} {text : List Char} (h : Layout tokens text)
    (hseparated : Separated tokens) : tokens? text = some tokens :=
  remaining_layout h hseparated []

end ArtifactHarvest.Json
