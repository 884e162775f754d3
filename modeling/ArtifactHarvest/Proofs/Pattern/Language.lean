import ArtifactHarvest.Expansion.Walk
import ArtifactHarvest.Proofs.Glob.Deciding

/-!
The sequences of names that a list of segments stands for (`Segment.Takes`), with one rule for each
kind of segment that goes down (`takes_single_iff`, `takes_anyDepth_iff`,
`takes_anyDepth_last_iff`).
-/

namespace ArtifactHarvest

namespace Segment

/-- Whether the segment is matched by exactly one name. -/
def takesOne : Segment → Bool
  | .named _ | .matching _ => true
  | .anyDepth | .parent => false

/-- The names that a segment for one name stands for. A glob is held against the name as text. -/
def Accepts : Segment → Name → Prop
  | .named m, n => n = m
  | .matching g, n => Glob.Matches g n.text.toList
  | .anyDepth, _ | .parent, _ => False

/-- The names that lead down through the segments, each taking its part in turn. `**` takes any
number of names, but at least one in last position. -/
inductive Takes : List Segment → List Name → Prop where
  | done : Takes [] []
  | one {segment : Segment} {n : Name} {rest : List Segment} {names : List Name} :
      segment.Accepts n → Takes rest names → Takes (segment :: rest) (n :: names)
  | anyDepth {front names : List Name} {rest : List Segment} :
      (rest = [] → front ≠ []) → Takes rest names → Takes (.anyDepth :: rest) (front ++ names)

theorem takes_nil_iff {names : List Name} : Takes [] names ↔ names = [] := by
  constructor
  · rintro ⟨⟩
    rfl
  · rintro rfl
    exact .done

/-- Only where nothing is left to match are no names asked for. -/
theorem eq_nil_of_takes_nil {segments : List Segment} (h : Takes segments []) : segments = [] := by
  generalize hnames : ([] : List Name) = names at h
  induction h with
  | done => rfl
  | one => cases hnames
  | anyDepth hfront hrest ih =>
      obtain ⟨hnone, hnil⟩ := List.append_eq_nil_iff.mp hnames.symm
      exact absurd hnone (hfront (ih hnil.symm))

theorem ne_nil_of_takes {segments : List Segment} {names : List Name} (h : Takes segments names)
    (hsegments : segments ≠ []) : names ≠ [] := by
  rintro rfl
  exact hsegments (eq_nil_of_takes_nil h)

theorem takes_single_iff {segment : Segment} {rest : List Segment} {names : List Name}
    (hone : segment.takesOne = true) :
    Takes (segment :: rest) names ↔
      ∃ n more, names = n :: more ∧ segment.Accepts n ∧ Takes rest more := by
  constructor
  · intro h
    cases h with
    | one haccepts hrest => exact ⟨_, _, rfl, haccepts, hrest⟩
    | anyDepth => cases hone
  · rintro ⟨n, more, rfl, haccepts, hrest⟩
    exact .one haccepts hrest

/-- Before the last segment `**` lets the rest match here or one name further down. -/
theorem takes_anyDepth_iff {rest : List Segment} {names : List Name} (hrest : rest ≠ []) :
    Takes (.anyDepth :: rest) names ↔
      Takes rest names ∨ ∃ n more, names = n :: more ∧ Takes (.anyDepth :: rest) more := by
  constructor
  · intro h
    cases h with
    | one haccepts => cases haccepts
    | @anyDepth front names _ _ hmore =>
        cases front with
        | nil => exact .inl hmore
        | cons n front =>
            have hlonger : Takes (.anyDepth :: rest) (front ++ names) :=
              .anyDepth (fun hnil => absurd hnil hrest) hmore
            exact .inr ⟨n, front ++ names, rfl, hlonger⟩
  · rintro (hhere | ⟨n, more, rfl, hmore⟩)
    · have h : Takes (.anyDepth :: rest) ([] ++ names) :=
        .anyDepth (fun hnil => absurd hnil hrest) hhere
      exact h
    · cases hmore with
      | one haccepts => cases haccepts
      | @anyDepth front names _ _ hnames =>
          have h : Takes (.anyDepth :: rest) (n :: front ++ names) :=
            .anyDepth (fun _ => List.cons_ne_nil n front) hnames
          exact h

theorem takes_anyDepth_last_iff {names : List Name} : Takes [.anyDepth] names ↔ names ≠ [] := by
  constructor
  · intro h
    exact ne_nil_of_takes h (List.cons_ne_nil _ _)
  · intro hnames
    have h : Takes [.anyDepth] (names ++ []) := .anyDepth (fun _ => hnames) .done
    rwa [List.append_nil] at h

end Segment

namespace View

/-- The names that a directory is asked about are those that the segment stands for, a glob's as far
as the directory lists them. -/
theorem mem_candidates_iff {v : View} {dir : Path} {segment : Segment} {n : Name}
    (hn : n ∈ v.workspace.entries dir) : n ∈ v.candidates dir segment ↔ segment.Accepts n := by
  cases segment with
  | named m => simp [candidates, Segment.Accepts]
  | matching g => simp [candidates, Segment.Accepts, Glob.accepts_iff, hn]
  | anyDepth | parent => simp [candidates, Segment.Accepts]

theorem accepts_of_mem_candidates {v : View} {dir : Path} {segment : Segment} {n : Name}
    (hn : n ∈ v.candidates dir segment) : segment.Accepts n := by
  cases segment with
  | named m => simpa [candidates, Segment.Accepts] using hn
  | matching g => exact (Glob.accepts_iff g n.text).mp (List.mem_filter.mp hn).2
  | anyDepth | parent => cases hn

end View

end ArtifactHarvest
