import ArtifactHarvest.Proofs.Path.Logical

/-!
The clean form of any path, absolute or not. A route is found again in the path that is written from
it (`route_toPath`), so a clean path has the components of its route (`components_clean_eq`) and is
cleaned to itself (`clean_clean`). What is joined behind a path goes on from its route
(`route_join`), so cleaning in between makes no difference (`clean_join`).
-/

namespace ArtifactHarvest

namespace Route

/-- A beginning at the root, and no other component, makes a route rooted. -/
theorem rooted_foldl_step {cs : List Component} (hcs : .root ∉ cs) (r : Route) :
    (cs.foldl step r).rooted = r.rooted := by
  induction cs generalizing r with
  | nil => rfl
  | cons c cs ih =>
      rw [List.foldl_cons, ih fun hmem => hcs (List.mem_cons_of_mem c hmem)]
      cases c with
      | root => exact absurd List.mem_cons_self hcs
      | here | name n => rfl
      | up =>
          rw [step, climb]
          split
          · rfl
          · split <;> rfl

/-- With no name to take back, each climb leads further out. -/
theorem foldl_step_climbs (k : Nat) :
    (List.replicate k .up).foldl step start = ⟨false, k, [], by simp⟩ := by
  induction k with
  | zero => rfl
  | succ k ih =>
      rw [List.replicate_succ', List.foldl_append, ih]
      rfl

theorem foldl_step_names (names : List Name) (r : Route) :
    (names.map .name).foldl step r = { r with names := names.reverse ++ r.names } := by
  induction names generalizing r with
  | nil => rfl
  | cons n names ih =>
      rw [List.map_cons, List.foldl_cons, ih]
      simp [step]

/-- Its components lead to a route again. -/
theorem foldl_step_components (r : Route) : r.components.foldl step start = r := by
  obtain ⟨rooted, climbs, names, grounded⟩ := r
  rw [components, List.foldl_append, List.foldl_append, foldl_step_names]
  cases rooted with
  | true =>
      obtain rfl : climbs = 0 := grounded rfl
      simp [step, ground]
  | false => simp [foldl_step_climbs]

/-- The components of a route are written as they are. -/
theorem components_toPath (r : Route) : r.toPath.components = r.components := by
  cases hrooted : r.rooted with
  | true =>
      have hcs : r.components = .root :: r.names.reverse.map .name := by
        simp [components, hrooted, r.grounded hrooted]
      rw [toPath, hcs, Path.components_of_isAbsolute (Path.isAbsolute_ofComponents_root _),
        Path.steps_ofComponents (Path.isStep_of_mem_names _)]
  | false =>
      have hcs : r.components = List.replicate r.climbs .up ++ r.names.reverse.map .name := by
        simp [components, hrooted]
      rw [toPath, hcs, Path.components_ofComponents (Path.isStep_of_mem_climbs _ _)]

theorem route_toPath (r : Route) : r.toPath.route = r := by
  rw [Path.route, components_toPath, foldl_step_components]

end Route

namespace Path

variable {a b p : Path}

theorem components_clean_eq (p : Path) : p.clean.components = p.route.components :=
  Route.components_toPath p.route

theorem route_clean (p : Path) : p.clean.route = p.route :=
  Route.route_toPath p.route

theorem clean_clean (p : Path) : p.clean.clean = p.clean := by
  rw [clean, route_clean, clean]

theorem rooted_route (p : Path) : p.route.rooted = p.isAbsolute := by
  cases habs : p.isAbsolute with
  | true => exact (route_of_isAbsolute habs).1
  | false =>
      have hroot : Component.root ∉ p.components := by
        rw [← isAbsolute_iff_root_mem, habs]
        exact Bool.false_ne_true
      exact Route.rooted_foldl_step hroot Route.start

theorem isAbsolute_clean (p : Path) : p.clean.isAbsolute = p.isAbsolute := by
  rw [← rooted_route, route_clean, rooted_route]

/-- A leading `.` leads nowhere. -/
theorem foldl_step_components (hrel : b.isAbsolute = false) (r : Route) :
    b.components.foldl Route.step r = b.steps.foldl Route.step r := by
  rw [components_eq, List.foldl_append]
  simp only [lead, hrel, Bool.false_eq_true, if_false]
  split <;> rfl

/-- What is joined goes on from where the path in front leads. -/
theorem route_join (hb : b.isAbsolute = false) (a : Path) :
    (a.join b).route = b.steps.foldl Route.step a.route := by
  by_cases ha : a.bytes = []
  · have hempty : a = empty := eq_of_bytes ha
    rw [join_of_bytes_nil ha, route, foldl_step_components hb, hempty]
    rfl
  · rw [route, components_join ha hb, List.foldl_append, route]

/-- **Cleaning in between makes no difference.** -/
theorem clean_join (hb : b.isAbsolute = false) (a : Path) :
    (a.clean.join b).clean = (a.join b).clean := by
  have hroute : (a.clean.join b).route = (a.join b).route := by
    rw [route_join hb, route_join hb, route_clean]
  rw [clean, hroute, clean]

end Path

end ArtifactHarvest
