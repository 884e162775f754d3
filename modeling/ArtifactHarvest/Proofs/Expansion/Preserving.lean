import ArtifactHarvest.Proofs.Expansion.Outset
import ArtifactHarvest.Proofs.Pattern.Splitting

/-!
What going down by a name and climbing preserve, an expansion preserves: it holds of the base of a
plan (`Pattern.base_of_plan`) and of every match (`View.of_mem_found`) if it holds of the origin of
the pattern. Matches are absolute (`View.isAbsolute_of_mem_found`), and climbs take steps back
instead of writing them down (`View.up_notMem_of_mem_found`).
-/

namespace ArtifactHarvest

variable {holds : Path → Prop}

theorem Start.base_foldl_follow (child : ∀ p n, holds p → holds (p.child n))
    (up : ∀ p, holds p → holds p.up) (segments : List Segment) {s : Start} (h : holds s.base) :
    holds (segments.foldl follow s).base := by
  induction segments generalizing s with
  | nil => exact h
  | cons segment segments ih =>
      refine ih ?_
      cases segment with
      | named n => exact child s.base n h
      | parent => exact up s.base h
      | matching | anyDepth => exact h

theorem Pattern.base_of_plan (child : ∀ p n, holds p → holds (p.child n))
    (up : ∀ p, holds p → holds p.up) {text : String} {root : Path} {plan : Plan}
    (horigin : holds (origin text root)) (h : Pattern.plan text root = .ok plan) :
    holds plan.base := by
  obtain ⟨all, _, _, _, hbase, _⟩ := plan_spec h
  exact hbase ▸ Start.base_foldl_follow child up _ horigin

namespace View

variable {v : View} {root : Option Path} {cancelled : Bool} {pattern : String} {e : Expansion}

theorem of_mem_carryOut (child : ∀ p n, holds p → holds (p.child n))
    (up : ∀ p, holds p → holds p.up) {plan : Plan} {found : List Path} (hbase : holds plan.base)
    (h : v.carryOut cancelled pattern plan = .ok found) : ∀ m ∈ found, holds m := by
  intro m hm
  have hfound := carryOut_of_cancelled h
  obtain ⟨_, ⟨_, rfl, _⟩ | ⟨_, _, _, _, hwalk⟩⟩ := mem_carryOut_iff.mp ⟨found, hfound, hm⟩
  · exact hbase
  · obtain ⟨dir, n, hdir, rfl, _⟩ :=
      mem_matchesBelow_of_invariant (fun dir n _ hdir _ => child dir n hdir) up hbase hwalk
    exact child dir n hdir

/-- An expansion found its matches from a plan, which without a root is that of an absolute
pattern. -/
theorem plan_of_expand (h : v.expand root cancelled pattern = .ok e) :
    ∃ plan found, Pattern.plan pattern (root.getD Path.empty) = .ok plan ∧
      (plan.isAbsolute = true ∨ root.isSome = true) ∧
      v.carryOut cancelled pattern plan = .ok found ∧
      e = ⟨pattern, plan.isAbsolute, Path.distinct found⟩ := by
  unfold expand at h
  split at h
  · cases h
  · rename_i plan hplan
    split at h
    · cases h
    · rename_i hreported
      split at h
      · cases h
      · rename_i found hfound
        cases h
        refine ⟨plan, found, hplan, ?_, hfound, rfl⟩
        cases habs : plan.isAbsolute <;> cases root <;> simp_all

/-- What going down and climbing preserve holds of every match. -/
theorem of_mem_found (child : ∀ p n, holds p → holds (p.child n))
    (up : ∀ p, holds p → holds p.up) (hslash : holds ⟨[slash]⟩) (hroot : ∀ r ∈ root, holds r)
    (h : v.expand root cancelled pattern = .ok e) : ∀ m ∈ e.found, holds m := by
  obtain ⟨plan, found, hplan, hreported, hfound, rfl⟩ := plan_of_expand h
  have horigin : holds (Pattern.origin pattern (root.getD Path.empty)) := by
    obtain ⟨_, _, habs, _⟩ := Pattern.plan_spec hplan
    unfold Pattern.origin
    split
    · exact hslash
    · rename_i hrelative
      obtain ⟨r, rfl⟩ := Option.isSome_iff_exists.mp (hreported.resolve_left (habs ▸ hrelative))
      exact hroot r rfl
  have hall := of_mem_carryOut child up (Pattern.base_of_plan child up horigin hplan) hfound
  exact fun m hm => hall m (Path.mem_of_mem_distinct hm)

theorem isAbsolute_of_mem_found (hroot : ∀ r ∈ root, r.isAbsolute = true)
    (h : v.expand root cancelled pattern = .ok e) : ∀ m ∈ e.found, m.isAbsolute = true :=
  of_mem_found (fun _ => Path.isAbsolute_child) (fun _ => Path.isAbsolute_up) rfl hroot h

/-- Without a root only an absolute pattern is expanded. -/
theorem reported_of_expand (h : v.expand root cancelled pattern = .ok e) :
    e.isAbsolute = true ∨ root.isSome = true := by
  obtain ⟨_, _, _, hreported, _, rfl⟩ := plan_of_expand h
  exact hreported

/-- No match has a `..` among its steps that the root has not. -/
theorem up_notMem_of_mem_found (hroot : ∀ r ∈ root, r.isAbsolute = true ∧ Component.up ∉ r.steps)
    (h : v.expand root cancelled pattern = .ok e) : ∀ m ∈ e.found, Component.up ∉ m.steps := by
  have hboth : ∀ m ∈ e.found, m.isAbsolute = true ∧ Component.up ∉ m.steps := by
    refine of_mem_found ?_ ?_ ⟨rfl, by simp [Path.steps_slash]⟩ hroot h
    · rintro p n ⟨habs, hup⟩
      refine ⟨Path.isAbsolute_child n habs, ?_⟩
      simpa using hup
    · rintro p ⟨habs, hup⟩
      refine ⟨Path.isAbsolute_up habs, ?_⟩
      rw [Path.steps_up habs]
      exact fun hmem => hup ((List.dropLast_sublist _).mem hmem)
  exact fun m hm => (hboth m hm).2

end View

end ArtifactHarvest
