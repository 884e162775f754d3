import ArtifactHarvest.Glob.Reading
import ArtifactHarvest.Proofs.Glob.Deciding
import Mathlib

/-!
The texts that are read as a glob, and the language of such a text, both said of the text itself.
Outside of classes no two stars stand side by side and each bracket opens a class that is closed
(`Glob.WellFormed`), and the text describes names part by part (`Glob.Describes`). The reader takes
exactly these texts (`Glob.wellFormed_iff`), and a glob stands for what its text describes
(`Glob.matches_iff_describes`).
-/

namespace ArtifactHarvest.Glob

/-- Whether what follows a character of a class makes a range of it: a `-` between two characters
that remain. -/
def BeginsRange (rest : List Char) : Prop :=
  ∃ last more, rest = '-' :: last :: more

/-- The characters that the content of a class stands for. It is read from left to right. -/
inductive InClass (c : Char) : List Char → Prop where
  | within {first last : Char} {rest : List Char} :
      first ≤ c → c ≤ last → InClass c (first :: '-' :: last :: rest)
  | behindRange {first last : Char} {rest : List Char} :
      InClass c rest → InClass c (first :: '-' :: last :: rest)
  | here {rest : List Char} : ¬ BeginsRange rest → InClass c (c :: rest)
  | behind {d : Char} {rest : List Char} :
      ¬ BeginsRange rest → InClass c rest → InClass c (d :: rest)

/-- What stands between the brackets of a class. Its content has a first character of any kind, a
closing bracket too, and up to the end no other closing bracket. A `!` in front negates it. -/
inductive ClassText : Bool → List Char → List Char → Prop where
  | plain {first : Char} {more : List Char} :
      first ≠ '!' → ']' ∉ more → ClassText false (first :: more) (first :: more)
  | negated {first : Char} {more : List Char} :
      ']' ∉ more → ClassText true (first :: more) ('!' :: first :: more)

/-- The texts that are read as a glob. -/
inductive WellFormed : List Char → Prop where
  | done : WellFormed []
  | star {rest : List Char} : rest.head? ≠ some '*' → WellFormed rest → WellFormed ('*' :: rest)
  | oneOf {negated : Bool} {content inner rest : List Char} :
      ClassText negated content inner → WellFormed rest → WellFormed ('[' :: inner ++ ']' :: rest)
  | other {c : Char} {rest : List Char} :
      c ≠ '*' → c ≠ '[' → WellFormed rest → WellFormed (c :: rest)

/-- The names that such a text describes. -/
inductive Describes : List Char → List Char → Prop where
  | done : Describes [] []
  | star {rest tail : List Char} (run : List Char) :
      Describes rest tail → Describes ('*' :: rest) (run ++ tail)
  | anyChar {rest tail : List Char} (c : Char) :
      Describes rest tail → Describes ('?' :: rest) (c :: tail)
  | oneOf {negated : Bool} {content inner rest tail : List Char} {c : Char} :
      ClassText negated content inner → (InClass c content ↔ negated = false) →
        Describes rest tail → Describes ('[' :: inner ++ ']' :: rest) (c :: tail)
  | char {c : Char} {rest tail : List Char} :
      c ≠ '*' → c ≠ '?' → c ≠ '[' → Describes rest tail → Describes (c :: rest) (c :: tail)

/-! ### Classes -/

theorem classItems_range (first last : Char) (rest : List Char) :
    classItems (first :: '-' :: last :: rest) = .range first last :: classItems rest := by
  rw [classItems]

theorem classItems_single {c : Char} {rest : List Char} (h : ¬ BeginsRange rest) :
    classItems (c :: rest) = .single c :: classItems rest := by
  rw [classItems]
  rintro last more rfl
  exact h ⟨last, more, rfl⟩

theorem inClass_range_iff {c first last : Char} {rest : List Char} :
    InClass c (first :: '-' :: last :: rest) ↔ first ≤ c ∧ c ≤ last ∨ InClass c rest := by
  have hrange : BeginsRange ('-' :: last :: rest) := ⟨last, rest, rfl⟩
  constructor
  · intro h
    cases h with
    | within hfirst hlast => exact .inl ⟨hfirst, hlast⟩
    | behindRange hrest => exact .inr hrest
    | here hno => exact absurd hrange hno
    | behind hno => exact absurd hrange hno
  · rintro (⟨hfirst, hlast⟩ | hrest)
    · exact .within hfirst hlast
    · exact .behindRange hrest

theorem inClass_single_iff {c d : Char} {rest : List Char} (hno : ¬ BeginsRange rest) :
    InClass c (d :: rest) ↔ c = d ∨ InClass c rest := by
  constructor
  · intro h
    cases h with
    | within => exact absurd ⟨_, _, rfl⟩ hno
    | behindRange => exact absurd ⟨_, _, rfl⟩ hno
    | here => exact .inl rfl
    | behind _ hrest => exact .inr hrest
  · rintro (rfl | hrest)
    · exact .here hno
    · exact .behind hno hrest

/-- The entries that are read hold for the characters that the content stands for. -/
theorem any_holds_iff (c : Char) (content : List Char) :
    (classItems content).any (·.holds c) = true ↔ InClass c content := by
  induction content using classItems.induct with
  | case1 first last rest ih =>
      rw [classItems_range, List.any_cons, Bool.or_eq_true, ih, inClass_range_iff]
      simp [ClassItem.holds]
  | case2 d rest hsingle ih =>
      have hno : ¬ BeginsRange rest := fun ⟨last, more, hrest⟩ => hsingle last more hrest
      rw [classItems_single hno, List.any_cons, Bool.or_eq_true, ih, inClass_single_iff hno]
      simp [ClassItem.holds]
  | case3 =>
      constructor
      · nofun
      · nofun

theorem takes_oneOf_iff {c : Char} {negated : Bool} {content : List Char} (hc : c ≠ '/') :
    (GlobToken.oneOf negated (classItems content)).takes c = true ↔
      (InClass c content ↔ negated = false) := by
  rw [← any_holds_iff]
  cases negated <;> simp [GlobToken.takes, hc]

/-- A class ends at the first closing bracket behind its first character. -/
theorem readClass?_of_classText {negated : Bool} {content inner : List Char}
    (h : ClassText negated content inner) (rest : List Char) :
    readClass? (inner ++ ']' :: rest) = some (.oneOf negated (classItems content), rest) := by
  have hclosed : ∀ more : List Char, ']' ∉ more →
      (more ++ ']' :: rest).dropWhile (· != ']') = ']' :: rest ∧
        (more ++ ']' :: rest).takeWhile (· != ']') = more := by
    intro more hmore
    have hall : ∀ c ∈ more, (c != ']') = true := by
      intro c hc
      rw [bne_iff_ne]
      rintro rfl
      exact hmore hc
    rw [List.dropWhile_append_of_pos hall, List.takeWhile_append_of_pos hall]
    simp
  cases h with
  | @plain first more hfirst hmore =>
      obtain ⟨hdrop, htake⟩ := hclosed more hmore
      simp [readClass?, hfirst, hdrop, htake]
  | @negated first more hmore =>
      obtain ⟨hdrop, htake⟩ := hclosed more hmore
      simp [readClass?, hdrop, htake]

/-- Whatever is read as a class is the text of one. -/
theorem classText_of_readClass? {cs rest : List Char} {t : GlobToken}
    (h : readClass? cs = some (t, rest)) : ∃ negated content inner,
      ClassText negated content inner ∧ cs = inner ++ ']' :: rest ∧
        t = .oneOf negated (classItems content) := by
  simp only [readClass?] at h
  split at h
  · cases h
  · rename_i first more hcs
    split at h
    · cases h
    · rename_i closing after hdrop
      simp only [Option.some.injEq, Prod.mk.injEq] at h
      obtain ⟨rfl, rfl⟩ := h
      obtain rfl : closing = ']' := by
        have hfirst := List.head?_dropWhile_not (· != ']') more
        rw [hdrop] at hfirst
        simpa using hfirst
      have hmore : more = more.takeWhile (· != ']') ++ ']' :: after := by
        rw [← hdrop, List.takeWhile_append_dropWhile]
      have hnone : ']' ∉ more.takeWhile (· != ']') := by
        intro hmem
        have hne := List.mem_takeWhile_imp hmem
        simp at hne
      cases cs with
      | nil => simp at hcs
      | cons c cs =>
          by_cases hc : c = '!'
          · subst hc
            simp only [List.head?_cons, beq_self_eq_true, if_true, List.tail_cons] at hcs
            subst hcs
            refine ⟨true, first :: _, _, .negated hnone, ?_, by simp⟩
            rw [List.cons_append, List.cons_append, ← hmore]
          · simp only [List.head?_cons, Option.some_beq_some, beq_iff_eq, hc, if_false,
              List.cons.injEq] at hcs
            obtain ⟨rfl, rfl⟩ := hcs
            refine ⟨false, _, _, .plain hc hnone, ?_, by simp [hc]⟩
            rw [List.cons_append, ← hmore]

/-! ### The reader -/

section Reader

variable {c : Char} {cs rest after : List Char} {t : GlobToken}

theorem readChars_stars (rest : List Char) :
    ∃ fault, readChars ('*' :: '*' :: rest) = .error fault := by
  by_cases hlong : ∃ more, rest = '*' :: more
  · obtain ⟨more, rfl⟩ := hlong
    exact ⟨.longStar, by rw [readChars]⟩
  · refine ⟨.partialDoubleStar, ?_⟩
    rw [readChars]
    exact fun more hmore => hlong ⟨more, hmore⟩

theorem head?_ne_star (h : ∀ more, rest = '*' :: more → False) : rest.head? ≠ some '*' := by
  intro hstar
  obtain ⟨more, hmore⟩ := List.head?_eq_some_iff.mp hstar
  exact h more hmore

theorem readChars_star (h : rest.head? ≠ some '*') :
    readChars ('*' :: rest) = (readChars rest).map (.anyRun :: ·) := by
  rw [readChars]
  · rintro more rfl
    exact h rfl
  · rintro more rfl
    exact h rfl

theorem readChars_question (rest : List Char) :
    readChars ('?' :: rest) = (readChars rest).map (.anyChar :: ·) := by
  rw [readChars]

theorem readChars_class (h : readClass? rest = some (t, after)) :
    readChars ('[' :: rest) = (readChars after).map (t :: ·) := by
  rw [readChars]
  split
  · rename_i hnone
    rw [h] at hnone
    cases hnone
  · rename_i hsome
    rw [h] at hsome
    cases hsome
    rfl

theorem readChars_open (h : readClass? rest = none) :
    readChars ('[' :: rest) = .error .openClass := by
  rw [readChars]
  split
  · rfl
  · rename_i hsome
    rw [h] at hsome
    cases hsome

theorem readChars_char (hstar : c ≠ '*') (hquestion : c ≠ '?') (hbracket : c ≠ '[') :
    readChars (c :: rest) = (readChars rest).map (.char c :: ·) := by
  rw [readChars] <;> intros <;> simp_all

/-- A text is read as what its first part and what is behind it are read as. -/
theorem ok_of_map {t : GlobToken} {read : Except GlobFault Glob} {g : Glob}
    (h : read.map (t :: ·) = .ok g) : ∃ more, read = .ok more ∧ g = t :: more := by
  cases read with
  | error fault => cases h
  | ok more => exact ⟨more, rfl, (Except.ok.inj h).symm⟩

/-- Exactly the well-formed texts are read. -/
theorem wellFormed_iff {cs : List Char} : WellFormed cs ↔ ∃ g, readChars cs = .ok g := by
  constructor
  · intro h
    induction h with
    | done => exact ⟨[], readChars_nil⟩
    | star hhead _ ih =>
        obtain ⟨g, hg⟩ := ih
        exact ⟨_, by rw [readChars_star hhead, hg]; rfl⟩
    | oneOf htext _ ih =>
        obtain ⟨g, hg⟩ := ih
        exact ⟨_, by
          rw [List.cons_append, readChars_class (readClass?_of_classText htext _), hg]
          rfl⟩
    | @other c rest hstar hbracket _ ih =>
        obtain ⟨g, hg⟩ := ih
        by_cases hquestion : c = '?'
        · subst hquestion
          exact ⟨_, by rw [readChars_question, hg]; rfl⟩
        · exact ⟨_, by rw [readChars_char hstar hquestion hbracket, hg]; rfl⟩
  · rintro ⟨g, hg⟩
    induction cs using readChars.induct generalizing g with
    | case1 => exact .done
    | case2 rest | case3 rest =>
        obtain ⟨fault, hfault⟩ := readChars_stars _
        rw [hfault] at hg
        cases hg
    | case4 rest _ hsingle ih =>
        rw [readChars_star (head?_ne_star hsingle)] at hg
        obtain ⟨more, hmore, _⟩ := ok_of_map hg
        exact .star (head?_ne_star hsingle) (ih more hmore)
    | case5 rest ih =>
        rw [readChars_question] at hg
        obtain ⟨more, hmore, _⟩ := ok_of_map hg
        exact .other (by decide) (by decide) (ih more hmore)
    | case6 rest hopen =>
        rw [readChars_open hopen] at hg
        cases hg
    | case7 rest token after hclass _ ih =>
        rw [readChars_class hclass] at hg
        obtain ⟨more, hmore, _⟩ := ok_of_map hg
        obtain ⟨negated, content, inner, htext, rfl, _⟩ := classText_of_readClass? hclass
        exact .oneOf htext (ih more hmore)
    | case8 c rest _ _ hstar hquestion hbracket ih =>
        rw [readChars_char hstar hquestion hbracket] at hg
        obtain ⟨more, hmore, _⟩ := ok_of_map hg
        exact .other hstar hbracket (ih more hmore)

end Reader

/-! ### The language -/

section Language

variable {c : Char} {g : Glob} {cs rest name : List Char}

theorem describes_nil_iff : Describes [] name ↔ name = [] := by
  constructor
  · rintro ⟨⟩
    rfl
  · rintro rfl
    exact .done

theorem describes_star_iff :
    Describes ('*' :: rest) name ↔ ∃ run tail, name = run ++ tail ∧ Describes rest tail := by
  constructor
  · intro h
    cases h with
    | star run htail => exact ⟨run, _, rfl, htail⟩
    | char hstar => exact absurd rfl hstar
  · rintro ⟨run, tail, rfl, htail⟩
    exact .star run htail

theorem describes_question_iff :
    Describes ('?' :: rest) name ↔ ∃ c tail, name = c :: tail ∧ Describes rest tail := by
  constructor
  · intro h
    cases h with
    | anyChar c htail => exact ⟨c, _, rfl, htail⟩
    | char _ hquestion => exact absurd rfl hquestion
  · rintro ⟨c, tail, rfl, htail⟩
    exact .anyChar c htail

theorem describes_char_iff (hstar : c ≠ '*') (hquestion : c ≠ '?') (hbracket : c ≠ '[') :
    Describes (c :: rest) name ↔ ∃ tail, name = c :: tail ∧ Describes rest tail := by
  constructor
  · intro h
    cases h with
    | star => exact absurd rfl hstar
    | anyChar => exact absurd rfl hquestion
    | oneOf => exact absurd rfl hbracket
    | char _ _ _ htail => exact ⟨_, rfl, htail⟩
  · rintro ⟨tail, rfl, htail⟩
    exact .char hstar hquestion hbracket htail

/-- A class is taken as it is read, for a character that is no slash. -/
theorem describes_class_iff {t : GlobToken} (h : readClass? cs = some (t, rest))
    (hname : '/' ∉ name) : Describes ('[' :: cs) name ↔
      ∃ c tail, name = c :: tail ∧ t.takes c = true ∧ Describes rest tail := by
  constructor
  · intro hdescribes
    generalize htext : '[' :: cs = text at hdescribes
    cases hdescribes with
    | done | star | anyChar => cases htext
    | char _ _ hbracket => exact absurd (List.cons.inj htext).1.symm hbracket
    | @oneOf negated content inner after tail c hclass hin htail =>
        rw [List.cons_append] at htext
        rw [(List.cons.inj htext).2, readClass?_of_classText hclass] at h
        obtain ⟨rfl, rfl⟩ := Prod.mk.inj (Option.some.inj h)
        have hc : c ≠ '/' := fun hslash => hname (hslash ▸ List.mem_cons_self)
        exact ⟨c, tail, rfl, (takes_oneOf_iff hc).mpr hin, htail⟩
  · rintro ⟨c, tail, rfl, htakes, htail⟩
    obtain ⟨negated, content, inner, hclass, rfl, rfl⟩ := classText_of_readClass? h
    have hc : c ≠ '/' := fun hslash => hname (hslash ▸ List.mem_cons_self)
    exact .oneOf hclass ((takes_oneOf_iff hc).mp htakes) htail

theorem matches_run_iff :
    Matches (.anyRun :: g) name ↔
      ∃ run tail, name = run ++ tail ∧ '/' ∉ run ∧ Matches g tail := by
  induction name with
  | nil => simp [matches_run_nil]
  | cons c name ih =>
      rw [matches_run_cons, ih]
      constructor
      · rintro (hhere | ⟨hc, run, tail, rfl, hrun, htail⟩)
        · exact ⟨[], c :: name, rfl, List.not_mem_nil, hhere⟩
        · refine ⟨c :: run, tail, rfl, ?_, htail⟩
          rw [List.mem_cons, not_or]
          exact ⟨hc.symm, hrun⟩
      · rintro ⟨run, tail, hsplit, hrun, htail⟩
        cases run with
        | nil => exact .inl (hsplit ▸ htail)
        | cons d run =>
            obtain ⟨rfl, rfl⟩ := List.cons.inj hsplit
            rw [List.mem_cons, not_or] at hrun
            exact .inr ⟨fun hc => hrun.1 hc.symm, run, tail, rfl, hrun.2, htail⟩

theorem matches_one_iff {t : GlobToken} (ht : t ≠ .anyRun) :
    Matches (t :: g) name ↔ ∃ c tail, name = c :: tail ∧ t.takes c = true ∧ Matches g tail := by
  cases name with
  | nil => simp [matches_one_nil ht]
  | cons c name => simp [matches_one_cons ht]

/-- **A glob stands for the names that its text describes.** -/
theorem matches_iff_describes (h : readChars cs = .ok g) (hname : '/' ∉ name) :
    Matches g name ↔ Describes cs name := by
  induction cs using readChars.induct generalizing g name with
  | case1 =>
      rw [readChars] at h
      cases h
      rw [matches_nil_iff, describes_nil_iff]
  | case2 rest | case3 rest =>
      obtain ⟨fault, hfault⟩ := readChars_stars _
      rw [hfault] at h
      cases h
  | case4 rest _ hsingle ih =>
      rw [readChars_star (head?_ne_star hsingle)] at h
      obtain ⟨more, hmore, rfl⟩ := ok_of_map h
      rw [matches_run_iff, describes_star_iff]
      constructor
      · rintro ⟨run, tail, rfl, _, htail⟩
        exact ⟨run, tail, rfl, (ih hmore fun hs => hname (List.mem_append_right _ hs)).mp htail⟩
      · rintro ⟨run, tail, rfl, htail⟩
        exact ⟨run, tail, rfl, fun hs => hname (List.mem_append_left _ hs),
          (ih hmore fun hs => hname (List.mem_append_right _ hs)).mpr htail⟩
  | case5 rest ih =>
      rw [readChars_question] at h
      obtain ⟨more, hmore, rfl⟩ := ok_of_map h
      rw [matches_one_iff (by simp), describes_question_iff]
      constructor
      · rintro ⟨c, tail, rfl, _, htail⟩
        exact ⟨c, tail, rfl, (ih hmore fun hs => hname (List.mem_cons_of_mem c hs)).mp htail⟩
      · rintro ⟨c, tail, rfl, htail⟩
        rw [List.mem_cons, not_or] at hname
        exact ⟨c, tail, rfl, by simpa [GlobToken.takes] using Ne.symm hname.1,
          (ih hmore hname.2).mpr htail⟩
  | case6 rest hopen =>
      rw [readChars_open hopen] at h
      cases h
  | case7 rest token after hclass _ ih =>
      rw [readChars_class hclass] at h
      obtain ⟨more, hmore, rfl⟩ := ok_of_map h
      have htoken : token ≠ .anyRun := by
        obtain ⟨negated, content, inner, _, _, rfl⟩ := classText_of_readClass? hclass
        simp
      rw [matches_one_iff htoken, describes_class_iff hclass hname]
      constructor
      · rintro ⟨c, tail, rfl, htakes, htail⟩
        exact ⟨c, tail, rfl, htakes,
          (ih hmore fun hs => hname (List.mem_cons_of_mem c hs)).mp htail⟩
      · rintro ⟨c, tail, rfl, htakes, htail⟩
        exact ⟨c, tail, rfl, htakes,
          (ih hmore fun hs => hname (List.mem_cons_of_mem c hs)).mpr htail⟩
  | case8 c rest _ _ hstar hquestion hbracket ih =>
      rw [readChars_char hstar hquestion hbracket] at h
      obtain ⟨more, hmore, rfl⟩ := ok_of_map h
      rw [matches_one_iff (by simp), describes_char_iff hstar hquestion hbracket]
      constructor
      · rintro ⟨d, tail, rfl, htakes, htail⟩
        obtain rfl : d = c := by simpa [GlobToken.takes] using htakes
        exact ⟨tail, rfl, (ih hmore fun hs => hname (List.mem_cons_of_mem d hs)).mp htail⟩
      · rintro ⟨tail, rfl, htail⟩
        exact ⟨c, tail, rfl, by simp [GlobToken.takes],
          (ih hmore fun hs => hname (List.mem_cons_of_mem c hs)).mpr htail⟩

end Language

end ArtifactHarvest.Glob
