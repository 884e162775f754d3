import ArtifactHarvest.Pattern.Plan
import ArtifactHarvest.Proofs.Path.Steps

/-!
How a pattern's components become a plan. Each component is read on its own (`segmentsOf_cons`), the
fixed segments are those of the plain components in front (`takeWhile_isFixed`), and a plan is what
following them from the origin leads to (`plan_spec`).
-/

namespace ArtifactHarvest

namespace Component

/-- Whether a component of a pattern asks for no matching. -/
def isPlain : Component → Bool
  | .name n => !Glob.isMeant n.text
  | .root | .here | .up => true

end Component

namespace Segment

/-- The segment that a plain component stands for. -/
def ofPlain? : Component → Option Segment
  | .name n => some (.named n)
  | .up => some .parent
  | .root | .here => none

theorem ofComponent_of_isPlain {c : Component} (h : c.isPlain = true) :
    ofComponent c = .ok (ofPlain? c) := by
  cases c with
  | root | here | up => rfl
  | name n =>
      have hmeant : Glob.isMeant n.text = false := by simpa [Component.isPlain] using h
      have hstars : n.text ≠ "**" := by
        intro he
        rw [he] at hmeant
        exact absurd hmeant (by decide)
      simp [ofComponent, hstars, hmeant, ofPlain?]

theorem ofComponent_of_not_isPlain {c : Component} {s : Option Segment}
    (h : c.isPlain = false) (hs : ofComponent c = .ok s) :
    s = some .anyDepth ∨ ∃ g, s = some (.matching g) := by
  cases c with
  | root | here | up => cases h
  | name n =>
      have hmeant : Glob.isMeant n.text = true := by simpa [Component.isPlain] using h
      simp only [ofComponent, hmeant, if_true] at hs
      split at hs
      · cases hs
        exact .inl rfl
      · cases hg : Glob.read n.text with
        | error fault => simp [hg, Except.map] at hs
        | ok g =>
            simp only [hg, Except.map, Except.ok.injEq] at hs
            exact .inr ⟨g, hs.symm⟩

theorem isFixed_of_ofPlain? {c : Component} {s : Segment} (h : ofPlain? c = some s) :
    s.isFixed = true := by
  cases c <;> simp only [ofPlain?, Option.some.injEq, reduceCtorEq] at h <;> subst h <;> rfl

/-- What a path begins with asks for no matching. -/
theorem isPlain_of_mem_lead {p : Path} {c : Component} (h : c ∈ p.lead) : c.isPlain = true := by
  unfold Path.lead at h
  split at h
  · rw [List.mem_singleton.mp h]
    rfl
  · split at h
    · rw [List.mem_singleton.mp h]
      rfl
    · cases h

theorem filterMap_ofPlain?_lead (p : Path) : p.lead.filterMap ofPlain? = [] := by
  unfold Path.lead
  split
  · rfl
  · split <;> rfl

theorem filterMap_ofPlain?_names (names : List Name) :
    (names.map .name).filterMap ofPlain? = names.map .named := by
  induction names with
  | nil => rfl
  | cons n names ih =>
      rw [List.map_cons, List.map_cons, ← ih]
      rfl

end Segment

namespace Pattern

/-- The segments that components stand for. -/
def segmentsOf (cs : List Component) : Except GlobFault (List Segment) :=
  (cs.mapM Segment.ofComponent).map (·.filterMap id)

theorem segments_eq (text : String) : segments text = segmentsOf (Path.ofText text).components :=
  rfl

theorem segmentsOf_cons {c : Component} {cs : List Component} {all : List Segment}
    (h : segmentsOf (c :: cs) = .ok all) :
    ∃ s rest, Segment.ofComponent c = .ok s ∧ segmentsOf cs = .ok rest ∧
      all = s.toList ++ rest := by
  simp only [segmentsOf, List.mapM_cons] at h ⊢
  cases hc : Segment.ofComponent c with
  | error fault => simp [hc, bind, Except.bind, Except.map] at h
  | ok s =>
      cases hcs : cs.mapM Segment.ofComponent with
      | error fault => simp [hc, hcs, bind, Except.bind, Except.map] at h
      | ok rest =>
          simp only [hc, hcs, bind, Except.bind, pure, Except.pure, Except.map,
            Except.ok.injEq] at h
          refine ⟨s, rest.filterMap id, rfl, rfl, h.symm.trans ?_⟩
          cases s <;> rfl

/-- The components around one that stands for a segment are read without it. -/
theorem segmentsOf_insert {c : Component} {s : Segment} (hc : Segment.ofComponent c = .ok (some s))
    (front back : List Component) :
    segmentsOf (front ++ c :: back) =
      (segmentsOf front).bind fun a => (segmentsOf back).map fun b => a ++ s :: b := by
  simp only [segmentsOf, List.mapM_append, List.mapM_cons, hc]
  cases front.mapM Segment.ofComponent with
  | error fault => rfl
  | ok a =>
      cases back.mapM Segment.ofComponent with
      | error fault => rfl
      | ok b => simp [bind, Except.bind, pure, Except.pure, Except.map]

/-- The fixed beginning of the segments comes from the plain beginning of the components. -/
theorem takeWhile_isFixed {cs : List Component} {all : List Segment}
    (h : segmentsOf cs = .ok all) :
    all.takeWhile Segment.isFixed =
      (cs.takeWhile Component.isPlain).filterMap Segment.ofPlain? := by
  induction cs generalizing all with
  | nil =>
      cases h
      rfl
  | cons c cs ih =>
      obtain ⟨s, rest, hs, hrest, rfl⟩ := segmentsOf_cons h
      cases hc : c.isPlain with
      | true =>
          have heq : s = Segment.ofPlain? c := by
            rw [Segment.ofComponent_of_isPlain hc] at hs
            exact (Except.ok.inj hs).symm
          subst heq
          rw [List.takeWhile_cons_of_pos hc]
          cases hseg : Segment.ofPlain? c with
          | none =>
              rw [List.filterMap_cons_none hseg, Option.toList_none, List.nil_append, ih hrest]
          | some seg =>
              rw [List.filterMap_cons_some hseg, Option.toList_some, List.singleton_append,
                List.takeWhile_cons_of_pos (Segment.isFixed_of_ofPlain? hseg), ih hrest]
      | false =>
          rw [List.takeWhile_cons_of_neg (by simp [hc]), List.filterMap_nil]
          rcases Segment.ofComponent_of_not_isPlain hc hs with rfl | ⟨g, rfl⟩ <;>
            simp [Segment.isFixed]

/-- What follows the fixed beginning of the segments comes from what follows the plain beginning of
the components. -/
theorem dropWhile_isFixed {cs : List Component} {all : List Segment}
    (h : segmentsOf cs = .ok all) :
    segmentsOf (cs.dropWhile Component.isPlain) = .ok (all.dropWhile Segment.isFixed) := by
  induction cs generalizing all with
  | nil =>
      cases h
      rfl
  | cons c cs ih =>
      obtain ⟨s, rest, hs, hrest, rfl⟩ := segmentsOf_cons h
      cases hc : c.isPlain with
      | true =>
          rw [List.dropWhile_cons_of_pos hc, ih hrest]
          rw [Segment.ofComponent_of_isPlain hc] at hs
          cases hs
          cases hseg : Segment.ofPlain? c with
          | none => rw [Option.toList_none, List.nil_append]
          | some seg =>
              rw [Option.toList_some, List.singleton_append,
                List.dropWhile_cons_of_pos (Segment.isFixed_of_ofPlain? hseg)]
      | false =>
          rw [List.dropWhile_cons_of_neg (by simp [hc]), h]
          rcases Segment.ofComponent_of_not_isPlain hc hs with rfl | ⟨g, rfl⟩ <;>
            simp [Segment.isFixed]

theorem parent_notMem {cs : List Component} {all : List Segment} (h : segmentsOf cs = .ok all)
    (hup : Component.up ∉ cs) : Segment.parent ∉ all := by
  induction cs generalizing all with
  | nil =>
      cases h
      exact List.not_mem_nil
  | cons c cs ih =>
      obtain ⟨s, rest, hs, hrest, rfl⟩ := segmentsOf_cons h
      have hmore := ih hrest fun hmem => hup (List.mem_cons_of_mem c hmem)
      have hc : c ≠ .up := fun he => hup (he ▸ List.mem_cons_self)
      cases hplain : c.isPlain with
      | true =>
          rw [Segment.ofComponent_of_isPlain hplain] at hs
          cases hs
          cases c with
          | up => exact absurd rfl hc
          | root | here | name n => simpa [Segment.ofPlain?] using hmore
      | false =>
          rcases Segment.ofComponent_of_not_isPlain hplain hs with rfl | ⟨g, rfl⟩ <;>
            simpa using hmore

/-- Where a pattern starts from: the collection root, or `/` for an absolute pattern. -/
def origin (text : String) (root : Path) : Path :=
  if (Path.ofText text).isAbsolute then ⟨[slash]⟩ else root

theorem isAbsolute_origin {root : Path} (text : String) (h : root.isAbsolute = true) :
    (origin text root).isAbsolute = true := by
  unfold origin
  split
  · rfl
  · exact h

/-- The start that fixed segments lead to. -/
def begun (origin : Path) (fixed : List Segment) : Start :=
  fixed.foldl Start.follow ⟨origin, origin⟩

theorem plan_spec {text : String} {root : Path} {p : Plan} (h : plan text root = .ok p) :
    ∃ all, segmentsOf (Path.ofText text).components = .ok all ∧
      p.isAbsolute = (Path.ofText text).isAbsolute ∧
      p.segments = all.dropWhile Segment.isFixed ∧
      p.base = (begun (origin text root) (all.takeWhile Segment.isFixed)).base ∧
      p.anchor = if p.isAbsolute then p.base
        else (begun (origin text root) (all.takeWhile Segment.isFixed)).anchor := by
  simp only [plan, segments_eq] at h
  cases hall : segmentsOf (Path.ofText text).components with
  | error fault => simp [hall, bind, Except.bind] at h
  | ok all =>
      simp only [hall, bind, Except.bind, pure, Except.pure, Except.ok.injEq] at h
      subst h
      exact ⟨all, rfl, rfl, rfl, rfl, rfl⟩

/-- The plan of a relative pattern starts from the root. -/
theorem plan_of_relative {text : String} (root : Path)
    (h : (Path.ofText text).isAbsolute = false) :
    plan text root = (segmentsOf (Path.ofText text).components).map fun all =>
      ⟨begun root (all.takeWhile Segment.isFixed), false, all.dropWhile Segment.isFixed⟩ := by
  simp only [plan, segments_eq, h]
  cases segmentsOf (Path.ofText text).components <;> rfl

/-- A pattern with no `..` behind its plain beginning leaves none to the walk. -/
theorem parent_notMem_segments {text : String} {root : Path} {p : Plan}
    (h : plan text root = .ok p)
    (hup : Component.up ∉ (Path.ofText text).components.dropWhile Component.isPlain) :
    Segment.parent ∉ p.segments := by
  obtain ⟨all, hall, _, hsegments, _⟩ := plan_spec h
  rw [hsegments]
  exact parent_notMem (dropWhile_isFixed hall) hup

/-- Where the walk of a pattern starts; for an invalid pattern, the root itself. -/
def start (text : String) (root : Path) : Start :=
  match plan text root with
  | .ok p => p.toStart
  | .error _ => ⟨root, root⟩

theorem start_of_plan {text : String} {root : Path} {p : Plan} (h : plan text root = .ok p) :
    start text root = p.toStart := by
  simp only [start, h]

/-- Fixed segments without `..` are names. -/
theorem exists_names_of_isFixed {fixed : List Segment}
    (hfixed : ∀ segment ∈ fixed, segment.isFixed = true) (hup : Segment.parent ∉ fixed) :
    ∃ names : List Name, fixed = names.map .named := by
  induction fixed with
  | nil => exact ⟨[], rfl⟩
  | cons segment fixed ih =>
      obtain ⟨names, rfl⟩ := ih (fun t ht => hfixed t (List.mem_cons_of_mem segment ht))
        fun ht => hup (List.mem_cons_of_mem segment ht)
      cases segment with
      | named n => exact ⟨n :: names, rfl⟩
      | parent => exact absurd List.mem_cons_self hup
      | matching | anyDepth =>
          exact absurd (hfixed _ List.mem_cons_self) (by simp [Segment.isFixed])

theorem takeWhile_isFixed_names {all : List Segment} (hup : Segment.parent ∉ all) :
    ∃ names : List Name, all.takeWhile Segment.isFixed = names.map .named :=
  exists_names_of_isFixed (List.all_eq_true.mp List.all_takeWhile)
    fun hmem => hup ((List.takeWhile_sublist _).mem hmem)

/-- Names lead down. -/
theorem foldl_follow_named (names : List Name) (s : Start) :
    (names.map Segment.named).foldl Start.follow s = ⟨s.base.descend names, s.anchor⟩ := by
  induction names generalizing s with
  | nil => rfl
  | cons n names ih => exact ih (s.follow (.named n))

/-- A pattern without `..` goes down from its origin, name by name. -/
theorem plan_of_up_notMem {text : String} {root : Path} {p : Plan} (h : plan text root = .ok p)
    (hup : Component.up ∉ (Path.ofText text).components) :
    ∃ literal, p.base = (origin text root).descend literal ∧
      p.anchor = (if p.isAbsolute then p.base else root) ∧ Segment.parent ∉ p.segments := by
  obtain ⟨all, hall, habs, hsegments, hbase, hanchor⟩ := plan_spec h
  have hparent := parent_notMem hall hup
  obtain ⟨literal, hnames⟩ := takeWhile_isFixed_names hparent
  have hliteral := foldl_follow_named literal ⟨origin text root, origin text root⟩
  rw [← hnames] at hliteral
  refine ⟨literal, ?_, ?_, ?_⟩
  · rw [hbase, begun, hliteral]
  · rw [hanchor, begun, hliteral]
    split
    · rfl
    · rename_i hrel
      rw [habs] at hrel
      simp [origin, hrel]
  · rw [hsegments]
    exact fun hmem => hparent ((List.dropWhile_sublist _).mem hmem)

end Pattern

end ArtifactHarvest
