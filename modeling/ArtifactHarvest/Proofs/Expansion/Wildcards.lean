import ArtifactHarvest.Expansion
import ArtifactHarvest.Proofs.Glob.Reading
import ArtifactHarvest.Proofs.Pattern.Splitting
import ArtifactHarvest.Proofs.Text.Lossy

/-!
What a component of a pattern is taken for, by its text. A text that asks for matching is read as a
glob, but `**` is none, and a text that is no glob makes the whole pattern invalid
(`Pattern.plan_eq_error_iff`). Main statement: `View.component_language`.
-/

namespace ArtifactHarvest

/-- A text with one of these characters asks for matching. -/
def Glob.Asks (text : String) : Prop :=
  '*' ∈ text.toList ∨ '?' ∈ text.toList ∨ '[' ∈ text.toList

theorem Glob.isMeant_iff {text : String} : isMeant text = true ↔ Asks text := by
  simp only [isMeant, List.any_eq_true, Bool.or_eq_true, beq_iff_eq, Asks]
  constructor
  · rintro ⟨c, hc, (rfl | rfl) | rfl⟩
    · exact .inl hc
    · exact .inr (.inl hc)
    · exact .inr (.inr hc)
  · rintro (hc | hc | hc)
    · exact ⟨_, hc, .inl (.inl rfl)⟩
    · exact ⟨_, hc, .inl (.inr rfl)⟩
    · exact ⟨_, hc, .inr rfl⟩

namespace Segment

variable {n : Name}

theorem ofComponent_doubleStar (h : n.text = "**") :
    ofComponent (.name n) = .ok (some .anyDepth) := by
  simp [ofComponent, h]

theorem ofComponent_asks (hasks : Glob.Asks n.text) (hstars : n.text ≠ "**") :
    ofComponent (.name n) = (Glob.readChars n.text.toList).map fun g => some (.matching g) := by
  simp only [ofComponent, hstars, Glob.isMeant_iff.mpr hasks, if_false, if_true, Glob.read]

theorem ofComponent_plain (h : ¬ Glob.Asks n.text) :
    ofComponent (.name n) = .ok (some (.named n)) := by
  have hplain : (Component.name n).isPlain = true := by
    rw [← Glob.isMeant_iff, Bool.not_eq_true] at h
    simp [Component.isPlain, h]
  exact ofComponent_of_isPlain hplain

/-- A name stands for a glob when its text is one. -/
theorem ofComponent_eq_matching_iff {g : Glob} :
    ofComponent (.name n) = .ok (some (.matching g)) ↔
      Glob.Asks n.text ∧ n.text ≠ "**" ∧ Glob.readChars n.text.toList = .ok g := by
  by_cases hstars : n.text = "**"
  · simp [ofComponent_doubleStar hstars, hstars]
  · by_cases hasks : Glob.Asks n.text
    · rw [ofComponent_asks hasks hstars]
      cases Glob.readChars n.text.toList <;> simp [Except.map, hasks, hstars]
    · simp [ofComponent_plain hasks, hasks]

theorem ofComponent_eq_error_iff {fault : GlobFault} :
    ofComponent (.name n) = .error fault ↔
      Glob.Asks n.text ∧ n.text ≠ "**" ∧ Glob.readChars n.text.toList = .error fault := by
  by_cases hstars : n.text = "**"
  · simp [ofComponent_doubleStar hstars, hstars]
  · by_cases hasks : Glob.Asks n.text
    · rw [ofComponent_asks hasks hstars]
      cases Glob.readChars n.text.toList <;> simp [Except.map, hasks, hstars]
    · simp [ofComponent_plain hasks, hasks]

end Segment

namespace Pattern

/-- One component at fault makes all of them be at fault. -/
theorem segmentsOf_eq_error_iff {cs : List Component} :
    (∃ fault, segmentsOf cs = .error fault) ↔
      ∃ c ∈ cs, ∃ fault, Segment.ofComponent c = .error fault := by
  induction cs with
  | nil => simp [segmentsOf, pure, Except.pure, Except.map]
  | cons c cs ih =>
      simp only [segmentsOf, List.mapM_cons] at ih ⊢
      simp only [List.mem_cons, exists_eq_or_imp, ← ih]
      cases Segment.ofComponent c with
      | error fault => simp [bind, Except.bind, Except.map]
      | ok s => cases cs.mapM Segment.ofComponent <;>
          simp [bind, Except.bind, pure, Except.pure, Except.map]

/-- A pattern is invalid for a name that asks for matching and is read as no glob. -/
theorem plan_eq_error_iff {text : String} {root : Path} :
    (∃ fault, plan text root = .error fault) ↔
      ∃ n, .name n ∈ (Path.ofText text).components ∧ Glob.Asks n.text ∧ n.text ≠ "**" ∧
        ¬ Glob.WellFormed n.text.toList := by
  have hplan : (∃ fault, plan text root = .error fault) ↔
      ∃ fault, segmentsOf (Path.ofText text).components = .error fault := by
    simp only [plan, segments_eq]
    cases segmentsOf (Path.ofText text).components <;> simp [bind, Except.bind, pure, Except.pure]
  have hread : ∀ n : Name, ¬ Glob.WellFormed n.text.toList ↔
      ∃ fault, Glob.readChars n.text.toList = .error fault := by
    intro n
    rw [Glob.wellFormed_iff]
    cases Glob.readChars n.text.toList <;> simp
  rw [hplan, segmentsOf_eq_error_iff]
  constructor
  · rintro ⟨c, hc, fault, hfault⟩
    cases c with
    | root | here | up => cases hfault
    | name n =>
        obtain ⟨hasks, hstars, hfault⟩ := Segment.ofComponent_eq_error_iff.mp hfault
        exact ⟨n, hc, hasks, hstars, (hread n).mpr ⟨fault, hfault⟩⟩
  · rintro ⟨n, hn, hasks, hstars, hnone⟩
    obtain ⟨fault, hfault⟩ := (hread n).mp hnone
    exact ⟨_, hn, fault, Segment.ofComponent_eq_error_iff.mpr ⟨hasks, hstars, hfault⟩⟩

/-- Whether a pattern is invalid, and why, does not depend on the root. -/
theorem plan_eq_error_of_root {text : String} {root : Path} {fault : GlobFault}
    (h : plan text root = .error fault) (root' : Path) : plan text root' = .error fault := by
  simp only [plan] at h ⊢
  cases hall : segments text with
  | error other => simpa [hall, bind, Except.bind] using h
  | ok all => simp [hall, bind, Except.bind, pure, Except.pure] at h

/-- A component to be matched leaves its segment to the walk. -/
theorem mem_segments_of_mem_components {text : String} {root : Path} {p : Plan}
    (h : plan text root = .ok p) {c : Component} (hc : c ∈ (Path.ofText text).components)
    {s : Segment} (hs : Segment.ofComponent c = .ok (some s)) (hloose : s.isFixed = false) :
    s ∈ p.segments := by
  obtain ⟨all, hall, _, hsegments, _⟩ := plan_spec h
  obtain ⟨front, back, hsplit⟩ := List.append_of_mem hc
  rw [hsplit, segmentsOf_insert hs] at hall
  cases hfront : segmentsOf front with
  | error fault => simp [hfront, Except.bind] at hall
  | ok a =>
      cases hback : segmentsOf back with
      | error fault => simp [hfront, hback, Except.bind, Except.map] at hall
      | ok b =>
          rw [hfront, hback] at hall
          obtain rfl : a ++ s :: b = all := Except.ok.inj hall
          rw [hsegments]
          have hmem : s ∈ (a ++ s :: b).takeWhile Segment.isFixed ++
              (a ++ s :: b).dropWhile Segment.isFixed := by
            rw [List.takeWhile_append_dropWhile]
            exact List.mem_append_right _ List.mem_cons_self
          rcases List.mem_append.mp hmem with hfixed | hdropped
          · have hfixed := List.mem_takeWhile_imp hfixed
            rw [hloose] at hfixed
            cases hfixed
          · exact hdropped

end Pattern

namespace View

/-- **What a component of a pattern is taken for.** It is a wildcard exactly when its text asks for
matching, is not `**`, and is well formed. Then its segment is left to the walk. A text that asks
for matching, is not `**` and is not well formed makes every pattern it stands in invalid. A text
that asks for none is the name itself. The entries that a wildcard matches are those whose text is
described by its own. -/
theorem component_language (n : Name) :
    ((∃ g, Segment.ofComponent (.name n) = .ok (some (.matching g))) ↔
      Glob.Asks n.text ∧ n.text ≠ "**" ∧ Glob.WellFormed n.text.toList) ∧
    (Segment.ofComponent (.name n) = .ok (some .anyDepth) ↔ n.text = "**") ∧
    (Segment.ofComponent (.name n) = .ok (some (.named n)) ↔ ¬ Glob.Asks n.text) ∧
    (Glob.Asks n.text → n.text ≠ "**" → ¬ Glob.WellFormed n.text.toList →
      ∀ p, .name n ∈ (Path.ofText p).components → ∃ fault, ∀ (v : View) root cancelled,
        v.expand root cancelled p = .error (.invalid p fault)) ∧
    ∀ g, Segment.ofComponent (.name n) = .ok (some (.matching g)) →
      (∀ p root plan, Pattern.plan p root = .ok plan → .name n ∈ (Path.ofText p).components →
        .matching g ∈ plan.segments) ∧
      ∀ m : Name, (g.accepts m.text = true ↔ Glob.Describes n.text.toList m.text.toList) ∧
        ∀ (v : View) dir, m ∈ v.candidates dir (.matching g) ↔
          m ∈ v.workspace.entries dir ∧ Glob.Describes n.text.toList m.text.toList := by
  refine ⟨?_, ?_, ?_, ?_, ?_⟩
  · simp only [Segment.ofComponent_eq_matching_iff, Glob.wellFormed_iff, exists_and_left]
  · constructor
    · intro hdepth
      by_contra hstars
      by_cases hasks : Glob.Asks n.text
      · rw [Segment.ofComponent_asks hasks hstars] at hdepth
        cases hread : Glob.readChars n.text.toList <;> simp [hread, Except.map] at hdepth
      · rw [Segment.ofComponent_plain hasks] at hdepth
        cases hdepth
    · exact Segment.ofComponent_doubleStar
  · refine ⟨fun hnamed hasks => ?_, Segment.ofComponent_plain⟩
    by_cases hstars : n.text = "**"
    · rw [Segment.ofComponent_doubleStar hstars] at hnamed
      cases hnamed
    · rw [Segment.ofComponent_asks hasks hstars] at hnamed
      cases hread : Glob.readChars n.text.toList <;> simp [hread, Except.map] at hnamed
  · intro hasks hstars hnone p hp
    obtain ⟨fault, hfault⟩ : ∃ fault, Pattern.plan p Path.empty = .error fault :=
      Pattern.plan_eq_error_iff.mpr ⟨n, hp, hasks, hstars, hnone⟩
    refine ⟨fault, fun v root cancelled => ?_⟩
    rw [expand, Pattern.plan_eq_error_of_root hfault]
  · intro g hg
    obtain ⟨-, -, hread⟩ := Segment.ofComponent_eq_matching_iff.mp hg
    refine ⟨fun p root plan hplan hn =>
      Pattern.mem_segments_of_mem_components hplan hn hg rfl, fun m => ?_⟩
    have haccepts : g.accepts m.text = true ↔ Glob.Describes n.text.toList m.text.toList := by
      rw [Glob.accepts_iff, Glob.matches_iff_describes hread m.slash_notMem_text]
    refine ⟨haccepts, fun v dir => ?_⟩
    rw [candidates, List.mem_filter, haccepts]

end View

end ArtifactHarvest
