import ArtifactHarvest.Proofs.Collection.Stages
import ArtifactHarvest.Proofs.Expansion.Preserving
import ArtifactHarvest.Proofs.Path.Writing

/-!
The two forms of reported paths make no difference to a collection. Its root and all its matches are
absolute (`Order.isAbsolute_of_resolveRoot`), so each match has one text in both forms
(`Collection.pending_of_expand`). Main statement: `collect_of_either_form`.
-/

namespace ArtifactHarvest

theorem eq_ok_of_toOption {ε α : Type} {r : Except ε α} {x : α} (h : r.toOption = some x) :
    r = .ok x := by
  cases r with
  | error fault => cases h
  | ok y => exact congrArg _ (Option.some.inj h)

theorem Location.isAbsolute_path (loc : Location) : loc.path.isAbsolute = true := rfl

/-- The collection root is absolute, wherever it comes from. -/
theorem Order.isAbsolute_of_resolveRoot {o : Order} {w : Workspace} {root : Path}
    (h : o.resolveRoot w = .ok root) : root.isAbsolute = true := by
  have hhere : ∀ dir, w.currentDirectory = .ok dir → dir.isAbsolute = true := by
    intro dir hdir
    unfold Workspace.currentDirectory at hdir
    split at hdir
    · cases hdir
      exact Location.isAbsolute_path _
    · cases hdir
  unfold resolveRoot at h
  split at h
  · split at h
    · cases h
      assumption
    · cases hdir : w.currentDirectory with
      | error fault =>
          rw [hdir] at h
          cases h
      | ok dir =>
          rw [hdir] at h
          cases h
          exact Path.isAbsolute_join (hhere dir hdir)
  · exact hhere root h

namespace Collection

variable {o : Order} {w : Workspace}

/-- What an expansion finds is reported alike in both forms. -/
theorem pending_of_expand {pattern : String} {cancelled : Bool} {e : Expansion}
    (h : (o.ground w).view.expand (o.ground w).root cancelled pattern = .ok e)
    (useForward useForward' : Bool) :
    pending (o.ground w).root useForward e = pending (o.ground w).root useForward' e := by
  have hroot : ∀ r ∈ (o.ground w).root, r.isAbsolute = true := by
    intro r hr
    exact Order.isAbsolute_of_resolveRoot (eq_ok_of_toOption hr)
  have hfound := View.isAbsolute_of_mem_found hroot h
  have hreported := View.reported_of_expand h
  refine List.map_congr_left fun m hm => ?_
  rw [Path.normalized_logical useForward (hfound m hm) hroot hreported,
    Path.normalized_logical useForward' (hfound m hm) hroot hreported]

/-- A search that comes to its end yields what each pattern yields by itself. -/
theorem expandAll_eq_ok {g : Ground} {cancelled : Bool} {patterns : List String}
    {events : List SearchEvent} {expansions : List Expansion}
    (h : (expandAll g cancelled patterns events).outcome = .ok expansions) :
    expansions = g.expansions patterns := by
  by_cases hcancelled : cancelled = true ∨ .cancel ∈ events
  · rw [expandAll_of_cancelled g patterns hcancelled] at h
    cases h
  · rw [not_or, Bool.not_eq_true] at hcancelled
    obtain ⟨rfl, hevents⟩ := hcancelled
    rw [expandAll_of_quiet g patterns hevents] at h
    exact (Except.ok.inj h).symm

theorem pending_of_expandAll {patterns : List String} {cancelled : Bool}
    {events : List SearchEvent} {expansions : List Expansion}
    (h : (expandAll (o.ground w) cancelled patterns events).outcome = .ok expansions)
    (useForward useForward' : Bool) :
    expansions.flatMap (pending (o.ground w).root useForward) =
      expansions.flatMap (pending (o.ground w).root useForward') := by
  rw [expandAll_eq_ok h]
  refine List.flatMap_congr fun e he => ?_
  obtain ⟨pattern, _, hexpand⟩ := List.mem_filterMap.mp he
  exact pending_of_expand (eq_ok_of_toOption hexpand) useForward useForward'

end Collection

/-- **The form of reported paths makes no difference.** Whatever the order, the workspace and the
course of the collection, the answer to the experiment decides nothing but whether asking for it
cancels: with it on and with it off, the same descriptors or the same fault come out, and the same
records are logged. -/
theorem collect_of_either_form (o : Order) (w : Workspace) (course : Course)
    (on on' cancels : String → Bool) :
    collect o w (fun name => ⟨on name, cancels name⟩) course =
      collect o w (fun name => ⟨on' name, cancels name⟩) course := by
  by_cases hpatterns : Pattern.declared o.paths = []
  · simp only [collect, hpatterns, if_true]
  · simp only [collect, hpatterns, if_false]
    split
    · rfl
    · rename_i expansions hexpand
      have hsame := Collection.pending_of_expandAll (o := o) (w := w) hexpand
        (on Experiments.normalisedUploadPaths) (on' Experiments.normalisedUploadPaths)
      simp only [Order.ground] at hsame
      rw [hsame]

end ArtifactHarvest
