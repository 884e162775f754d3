import ArtifactHarvest.Proofs.Pattern.Language
import ArtifactHarvest.Proofs.Pattern.Splitting
import Mathlib.Data.List.TakeWhile

/-!
Plans that go down from the root, name by name (`Plan.under`), as those of relative patterns without
`..` do (`Pattern.plan_under`). Of two such patterns that differ in one component, which asks for a
name in one and for a wildcard in the other, both go down by the names in front
(`Pattern.plans_of_singled`).
-/

namespace ArtifactHarvest

/-- The plan of a relative pattern without `..`: some names lead down from the root, and some
segments are left to match. -/
def Plan.under (root : Path) (names : List Name) (segments : List Segment) : Plan :=
  ⟨⟨root.descend names, root⟩, false, segments⟩

theorem Segment.takes_named_append_iff {names more : List Name} {segments : List Segment} :
    Takes (names.map .named ++ segments) more ↔
      ∃ back, more = names ++ back ∧ Takes segments back := by
  induction names generalizing more with
  | nil => simp
  | cons n names ih =>
      rw [List.map_cons, List.cons_append, takes_single_iff rfl]
      constructor
      · rintro ⟨_, rest, rfl, rfl, hrest⟩
        obtain ⟨back, rfl, hback⟩ := ih.mp hrest
        exact ⟨back, rfl, hback⟩
      · rintro ⟨back, rfl, hback⟩
        exact ⟨n, names ++ back, rfl, rfl, ih.mpr ⟨back, rfl, hback⟩⟩

theorem takeWhile_append_cons_of_not {α : Type} {f : α → Bool} {x : α} (h : f x = false)
    (xs ys : List α) : (xs ++ x :: ys).takeWhile f = xs.takeWhile f := by
  induction xs with
  | nil => simp [h]
  | cons y xs ih => simp only [List.cons_append, List.takeWhile_cons, ih]

theorem dropWhile_append_cons_of_not {α : Type} {f : α → Bool} {x : α} (h : f x = false)
    (xs ys : List α) : (xs ++ x :: ys).dropWhile f = xs.dropWhile f ++ x :: ys := by
  induction xs with
  | nil => simp [h]
  | cons y xs ih =>
      simp only [List.cons_append, List.dropWhile_cons, ih]
      split <;> rfl

namespace Pattern

/-- A plan without `..` goes down by the names in front. -/
theorem plan_under {text : String} {root : Path} {all : List Segment} {names : List Name}
    (hrelative : (Path.ofText text).isAbsolute = false)
    (hall : segmentsOf (Path.ofText text).components = .ok all)
    (hnames : all.takeWhile Segment.isFixed = names.map .named) :
    plan text root = .ok (.under root names (all.dropWhile Segment.isFixed)) := by
  rw [plan_of_relative root hrelative, hall, Except.map, hnames, begun, foldl_follow_named]
  rfl

/-- A component that has to be matched leaves a segment that has to be. -/
theorem dropWhile_isFixed_ne_nil {cs : List Component} {all : List Segment}
    (h : segmentsOf cs = .ok all) {c : Component} (hc : c ∈ cs) (hplain : c.isPlain = false) :
    all.dropWhile Segment.isFixed ≠ [] := by
  have hrest : cs.dropWhile Component.isPlain ≠ [] := by
    intro hnil
    have hall := List.dropWhile_eq_nil_iff.mp hnil c hc
    rw [hplain] at hall
    cases hall
  obtain ⟨first, more, hcons⟩ := List.exists_cons_of_ne_nil hrest
  have hfirst := List.head?_dropWhile_not Component.isPlain cs
  rw [hcons] at hfirst
  have hsegments := dropWhile_isFixed h
  rw [hcons] at hsegments
  obtain ⟨s, rest, hs, _, hall⟩ := segmentsOf_cons hsegments
  rw [hall]
  rcases Segment.ofComponent_of_not_isPlain (by simpa using hfirst) hs with rfl | ⟨g, rfl⟩ <;> simp

/-- The names that segments begin with, one more name among them: those in front of it, and further
ones unless something else has to be matched in front. -/
theorem exists_names_around {a b : List Segment} (n : Name) (ha : Segment.parent ∉ a)
    (hb : Segment.parent ∉ b) :
    ∃ names more : List Name, a.takeWhile Segment.isFixed = names.map .named ∧
      (a ++ .named n :: b).takeWhile Segment.isFixed = (names ++ more).map .named ∧
      a.dropWhile Segment.isFixed ++ .named n :: b =
        more.map .named ++ (a ++ .named n :: b).dropWhile Segment.isFixed ∧
      Segment.parent ∉ (a ++ .named n :: b).dropWhile Segment.isFixed ∧
      (a.dropWhile Segment.isFixed ≠ [] → more = []) := by
  have hrest : Segment.parent ∉ a.dropWhile Segment.isFixed ++ .named n :: b := by
    rw [List.mem_append, List.mem_cons, not_or, not_or]
    exact ⟨fun hmem => ha ((List.dropWhile_sublist _).mem hmem), by simp, hb⟩
  obtain ⟨names, hnames⟩ := takeWhile_isFixed_names ha
  obtain ⟨more, hmore⟩ := takeWhile_isFixed_names hrest
  have hfixed : ∀ s ∈ names.map Segment.named, s.isFixed = true := by
    simp [Segment.isFixed]
  have hwhole : a ++ .named n :: b =
      names.map .named ++ (a.dropWhile Segment.isFixed ++ .named n :: b) := by
    rw [← List.append_assoc, ← hnames, List.takeWhile_append_dropWhile]
  have hdrop : (a ++ Segment.named n :: b).dropWhile Segment.isFixed =
      (a.dropWhile Segment.isFixed ++ .named n :: b).dropWhile Segment.isFixed := by
    rw [hwhole, List.dropWhile_append_of_pos hfixed]
  refine ⟨names, more, hnames, ?_, ?_, ?_, ?_⟩
  · rw [hwhole, List.takeWhile_append_of_pos hfixed, hmore, List.map_append]
  · rw [hdrop, ← hmore, List.takeWhile_append_dropWhile]
  · rw [hdrop]
    exact fun hmem => hrest ((List.dropWhile_sublist _).mem hmem)
  · intro hsome
    obtain ⟨first, later, hcons⟩ := List.exists_cons_of_ne_nil hsome
    have hfirst := List.head?_dropWhile_not Segment.isFixed a
    rw [hcons] at hmore hfirst
    have hloose : first.isFixed = false := by simpa using hfirst
    simpa [hloose] using hmore.symm

/-- The plans of two relative patterns without `..` that differ in one component, which asks for a
name in the first and for a wildcard in the second. The second goes down by the names in front of
the wildcard, the first by further names as long as nothing else has to be matched in front. -/
theorem plans_of_singled (root : Path) {p q : String} {front back : List Component} {n m : Name}
    {g : Glob} (hrelative : (Path.ofText p).isAbsolute = false)
    (hp : (Path.ofText p).components = front ++ .name n :: back)
    (hq : (Path.ofText q).components = front ++ .name m :: back)
    (hup : Component.up ∉ front ++ back) (hplain : (Component.name n).isPlain = true)
    (hm : Segment.ofComponent (.name m) = .ok (some (.matching g))) :
    (∃ fault, plan p root = .error fault ∧ plan q root = .error fault) ∨
    ∃ names more between rest tail, plan p root = .ok (.under root (names ++ more) rest) ∧
      plan q root = .ok (.under root names (between ++ .matching g :: tail)) ∧
      between ++ .named n :: tail = more.map .named ++ rest ∧ Segment.parent ∉ rest ∧
      ((∃ c ∈ front, c.isPlain = false) → more = []) := by
  have hrelative' : (Path.ofText q).isAbsolute = false := by
    rw [← Bool.not_eq_true, Path.isAbsolute_iff_root_mem] at hrelative ⊢
    rw [hp] at hrelative
    rw [hq]
    simpa using hrelative
  have hn : Segment.ofComponent (.name n) = .ok (some (.named n)) :=
    Segment.ofComponent_of_isPlain hplain
  have hplan := plan_of_relative root hrelative
  have hplan' := plan_of_relative root hrelative'
  rw [hp, segmentsOf_insert hn] at hplan
  rw [hq, segmentsOf_insert hm] at hplan'
  cases hfront : segmentsOf front with
  | error fault =>
      rw [hfront] at hplan hplan'
      exact .inl ⟨fault, hplan, hplan'⟩
  | ok a =>
  cases hback : segmentsOf back with
  | error fault =>
      rw [hfront, hback] at hplan hplan'
      exact .inl ⟨fault, hplan, hplan'⟩
  | ok b =>
      have hall : segmentsOf (Path.ofText p).components = .ok (a ++ .named n :: b) := by
        rw [hp, segmentsOf_insert hn, hfront, hback]
        rfl
      have hall' : segmentsOf (Path.ofText q).components = .ok (a ++ .matching g :: b) := by
        rw [hq, segmentsOf_insert hm, hfront, hback]
        rfl
      rw [List.mem_append, not_or] at hup
      obtain ⟨names, more, hnames, hboth, hsplit, hrest, hmore⟩ :=
        exists_names_around n (parent_notMem hfront hup.1) (parent_notMem hback hup.2)
      have hnames' : (a ++ Segment.matching g :: b).takeWhile Segment.isFixed =
          names.map .named := by
        rw [takeWhile_append_cons_of_not rfl, hnames]
      refine .inr ⟨names, more, a.dropWhile Segment.isFixed, _, b,
        plan_under hrelative hall hboth, ?_, hsplit, hrest, ?_⟩
      · rw [plan_under hrelative' hall' hnames', dropWhile_append_cons_of_not rfl]
      · rintro ⟨c, hc, hmatched⟩
        exact hmore (dropWhile_isFixed_ne_nil hfront hc hmatched)

end Pattern

end ArtifactHarvest
