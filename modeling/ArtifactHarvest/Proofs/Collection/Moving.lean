import ArtifactHarvest.Proofs.Collection.Counting
import ArtifactHarvest.Proofs.Collection.Renaming
import ArtifactHarvest.Proofs.Expansion.Moving

/-!
A collection at two directories that hold the same tree. A match is reported by the names that lead
down to it from the root (`Site.logical_path`), so the same artifacts are kept at both
(`Twins.kept`), and each is read alike (`Twins.sameReads`). Main statement: `collect_at_twins`.
-/

namespace ArtifactHarvest

theorem Site.logical_path (s : Site) (names : List Name) :
    (s.path names).logical (some s.root) false = Path.ofComponents (names.map .name) :=
  Path.logical_descend s.absolute names

theorem firsts_map {f : Pending → Pending} (h : ∀ a, (f a).path = a.path)
    (artifacts : List Pending) : firsts (artifacts.map f) = (firsts artifacts).map f := by
  induction artifacts with
  | nil => rfl
  | cons a rest ih =>
      rw [List.map_cons, firsts, firsts, ih, List.map_cons, List.filter_map]
      simp [Function.comp_def, h]

namespace Order

/-- The same order for another root. -/
def below (o : Order) (root : Path) : Order :=
  { o with root := some root }

/-- All patterns are relative and without `..`. -/
def GoesDown (o : Order) : Prop :=
  ∀ pattern ∈ Pattern.declared o.paths,
    (Path.ofText pattern).isAbsolute = false ∧ Component.up ∉ (Path.ofText pattern).components

instance (o : Order) : Decidable o.GoesDown :=
  inferInstanceAs (Decidable (∀ _ ∈ _, _))

end Order

namespace Twins

variable {s t : Site} {o : Order} {pattern : String} {useForward : Bool}

theorem matchedBy (h : Twins s t) (hrelative : (Path.ofText pattern).isAbsolute = false)
    (hup : Component.up ∉ (Path.ofText pattern).components) :
    (o.below t.root).matchedBy t.workspace useForward pattern =
      ((o.below s.root).matchedBy s.workspace useForward pattern).map
        (·.renamed (s.moved t)) := by
  have hfound : (View.mk t.workspace o.followsLinks).found t.root pattern =
      ((View.mk s.workspace o.followsLinks).found s.root pattern).map (s.moved t) :=
    h.found hrelative hup
  have hhere := Order.matchedBy_of_root (o := o.below s.root) (w := s.workspace) rfl s.absolute
    hrelative useForward
  have hthere := Order.matchedBy_of_root (o := o.below t.root) (w := t.workspace) rfl t.absolute
    hrelative useForward
  rw [hhere, hthere, List.map_map]
  refine (congrArg (List.map _) hfound).trans ?_
  rw [List.map_map]
  apply List.map_congr_left
  intro m hm
  obtain ⟨names, rfl, _⟩ := Site.exists_names_of_mem_found hrelative hup hm
  simp only [Function.comp, Site.moved_path, Pending.renamed, Site.logical_path]

/-- The artifacts that are kept at one site are those that are kept at the other, moved. -/
theorem kept (h : Twins s t) (hdown : o.GoesDown) (useForward : Bool) :
    (o.below t.root).kept t.workspace useForward =
      ((o.below s.root).kept s.workspace useForward).map (·.renamed (s.moved t)) := by
  have hmatched :
      (Pattern.declared o.paths).flatMap ((o.below t.root).matchedBy t.workspace useForward) =
        ((Pattern.declared o.paths).flatMap
          ((o.below s.root).matchedBy s.workspace useForward)).map (·.renamed (s.moved t)) := by
    rw [List.map_flatMap]
    apply List.flatMap_congr
    intro pattern hpattern
    obtain ⟨hrelative, hup⟩ := hdown pattern hpattern
    exact h.matchedBy hrelative hup
  refine (congrArg firsts hmatched).trans ?_
  apply firsts_map
  intro a
  rfl

/-- A file is read alike at both sites. -/
theorem sameReads (h : Twins s t) {names : List Name}
    (hfile : s.workspace.LeadsToFile (s.path names)) :
    Collection.SameReads s.workspace t.workspace (s.moved t) (s.path names) := by
  obtain ⟨_, o, hlook, _⟩ := hfile
  obtain ⟨inner, rfl, hlook'⟩ := h.lookup (.inl rfl) hlook
  rw [Collection.SameReads, Site.moved_path]
  simp only [Checksum.readsOf, hlook, hlook']
  cases o <;> rfl

end Twins

namespace Site

/-- What is kept leads to a file below the root. -/
theorem exists_names_of_mem_kept {s : Site} {o : Order} (hdown : o.GoesDown) {useForward : Bool}
    {a : Pending} (ha : a ∈ (o.below s.root).kept s.workspace useForward) :
    ∃ names, a.absolutePath = s.path names ∧ s.workspace.LeadsToFile (s.path names) := by
  obtain ⟨pattern, hpattern, ha⟩ := List.mem_flatMap.mp (mem_of_mem_firsts ha)
  obtain ⟨hrelative, hup⟩ := hdown pattern hpattern
  rw [Order.matchedBy_of_root rfl s.absolute hrelative] at ha
  obtain ⟨m, hm, rfl⟩ := List.mem_map.mp ha
  obtain ⟨names, rfl, hfile⟩ := exists_names_of_mem_found hrelative hup hm
  exact ⟨names, rfl, hfile⟩

end Site

/-- **A collection does not depend on where the tree stands.** At two directories that hold the same
tree, relative patterns without `..` come to descriptors that agree one by one in path, pattern,
size and digests, or the collection fails for the same file at both. The two roots may be spelled
in any way and lead through links. -/
theorem collect_at_twins {s t : Site} {feature : String → FlagAnswer} {course : Course}
    (h : Twins s t) (o : Order) (hdown : o.GoesDown)
    (hfeature : (feature Experiments.normalisedUploadPaths).cancels = false)
    (hcourse : course.Quiet) :
    (∃ ds es, (collect (o.below s.root) s.workspace feature course).outcome = .ok ds ∧
        (collect (o.below t.root) t.workspace feature course).outcome = .ok es ∧
        List.Forall₂ Descriptor.Agrees ds es) ∨
      ∃ names cause,
        (collect (o.below s.root) s.workspace feature course).outcome =
          .error (.unreadable (s.path names) cause) ∧
        (collect (o.below t.root) t.workspace feature course).outcome =
          .error (.unreadable (t.path names) cause) := by
  have hread : ∀ a ∈ (o.below s.root).kept s.workspace
      (feature Experiments.normalisedUploadPaths).isOn,
      Collection.SameReads s.workspace t.workspace (s.moved t) a.absolutePath := by
    intro a ha
    obtain ⟨names, hname, hfile⟩ := Site.exists_names_of_mem_kept hdown ha
    rw [hname]
    exact h.sameReads hfile
  have hagree : Collection.Agree (s.moved t)
      (collect (o.below s.root) s.workspace feature course).outcome
      (collect (o.below t.root) t.workspace feature course).outcome := by
    rw [collect_outcome_of_quiet hfeature hcourse, collect_outcome_of_quiet hfeature hcourse,
      h.kept hdown]
    exact Collection.describeAll_renamed hread course.checking
  have hfails : ∀ fault, (collect (o.below s.root) s.workspace feature course).outcome =
      .error fault → ∃ names cause, fault = .unreadable (s.path names) cause := by
    intro fault hfault
    rw [collect_outcome_of_quiet hfeature hcourse] at hfault
    obtain ⟨a, ha, _, cause, rfl⟩ :=
      Collection.exists_unreadable_of_failed hcourse.checking hfault
    obtain ⟨names, hname, _⟩ := Site.exists_names_of_mem_kept hdown ha
    exact ⟨names, cause, by rw [hname]⟩
  generalize (collect (o.below s.root) s.workspace feature course).outcome = here
    at hagree hfails ⊢
  generalize (collect (o.below t.root) t.workspace feature course).outcome = there at hagree ⊢
  cases hagree with
  | described hds => exact .inl ⟨_, _, rfl, rfl, hds⟩
  | failed fault =>
      obtain ⟨names, cause, rfl⟩ := hfails fault rfl
      exact .inr ⟨names, cause, rfl, by rw [CollectionFault.renamed, Site.moved_path]⟩

/-! ### Roots behind links -/

/-- The way into `y` and back, so many times, and then into `y`. -/
def Path.toAndFro (k : Nat) : Path :=
  ⟨(List.replicate k [121, slash, dot, dot, slash]).flatten ++ [121]⟩

/-- A workspace with a directory `/s` that holds `file` and a `link` to it, links `/y` and `/z` to
the directory, and a link `/k` that goes there through `/y` thirty-nine times. -/
def Workspace.knotted : Workspace where
  files := {
    objects := [
      ([⟨[115], by decide⟩], .directory),
      ([⟨[102, 105, 108, 101], by decide⟩, ⟨[115], by decide⟩], .file []),
      ([⟨[108, 105, 110, 107], by decide⟩, ⟨[115], by decide⟩], .link ⟨[102, 105, 108, 101]⟩),
      ([⟨[121], by decide⟩], .link ⟨[115]⟩),
      ([⟨[122], by decide⟩], .link ⟨[115]⟩),
      ([⟨[107], by decide⟩], .link (.toAndFro 38))]
    distinct := by decide }
  here := none

namespace Site

def plain : Site := ⟨.knotted, ⟨[slash, 115]⟩, [⟨[115], by decide⟩], by decide, by cbv⟩

def linkedY : Site := ⟨.knotted, ⟨[slash, 121]⟩, [⟨[115], by decide⟩], by decide, by cbv⟩

def linkedZ : Site := ⟨.knotted, ⟨[slash, 122]⟩, [⟨[115], by decide⟩], by decide, by cbv⟩

set_option maxRecDepth 2000 in
def knot : Site := ⟨.knotted, ⟨[slash, 107]⟩, [⟨[115], by decide⟩], by decide, by cbv⟩

theorem short_knotted : Workspace.knotted.files.Short :=
  FileSystem.short_of_objects (by decide)

theorem enclosed_knotted : plain.tree.Enclosed := by
  intro n inner target h
  have hmem := FileSystem.mem_objects_of_objectAt (List.cons_ne_nil _ _) h
  obtain ⟨⟨rfl, rfl⟩, -⟩ : (n = ⟨[108, 105, 110, 107], by decide⟩ ∧ inner = []) ∧
      target = ⟨[102, 105, 108, 101]⟩ := by
    simpa [plain, Workspace.knotted] using hmem
  have hstays : plain.tree.walk false maxLinks [] [[108, 105, 110, 107]] =
      some (.ok (.object [⟨[102, 105, 108, 101], by decide⟩], 39)) := by cbv
  rw [hstays]
  exact Option.some_ne_none _

end Site

theorem knotted_found_at_both :
    let o : Order := ⟨"*", false, none, .abort⟩
    let feature : String → FlagAnswer := fun _ => ⟨false, false⟩
    let course := Course.inOrder false
    Twins .linkedY .linkedZ ∧ o.GoesDown ∧ course.Quiet ∧
      ∃ ds es, (collect (o.below Site.linkedY.root) .knotted feature course).outcome = .ok ds ∧
        (collect (o.below Site.linkedZ.root) .knotted feature course).outcome = .ok es ∧
        List.Forall₂ Descriptor.Agrees ds es ∧ ds.length = 2 := by
  intro o feature course
  have hquiet : course.Quiet := Course.inOrder_quiet
  have hfeature : (feature Experiments.normalisedUploadPaths).cancels = false := rfl
  have hdown : o.GoesDown := by decide
  have hsame : SameTree .linkedY .linkedZ :=
    .of_length_eq rfl rfl Site.enclosed_knotted Site.short_knotted (by decide) (by decide) rfl
  have htwins : Twins .linkedY .linkedZ := hsame.twins (by cbv)
  have hkept : (o.below Site.linkedY.root).kept .knotted false =
      [⟨"file", Path.ofText "/y/file", "*"⟩, ⟨"link", Path.ofText "/y/link", "*"⟩] := by cbv
  have hread : ∀ a ∈ (o.below Site.linkedY.root).kept .knotted false,
      Workspace.knotted.Readable a.absolutePath := by
    have hfile : Workspace.knotted.Readable (Path.ofText "/y/file") := ⟨_, _, by cbv⟩
    have hlink : Workspace.knotted.Readable (Path.ofText "/y/link") := ⟨_, _, by cbv⟩
    rw [hkept]
    simpa using ⟨hfile, hlink⟩
  obtain ⟨cs, hcs, hlength⟩ := exists_collect_of_kept hfeature hquiet hread
  refine ⟨htwins, hdown, hquiet, ?_⟩
  rcases collect_at_twins htwins o hdown hfeature hquiet with
    ⟨ds, es, hds, hes, hagree⟩ | ⟨names, cause, hfault, _⟩
  · refine ⟨ds, es, hds, hes, hagree, ?_⟩
    obtain rfl : cs = ds := Except.ok.inj (hcs.symm.trans hds)
    rw [hlength, hkept]
    rfl
  · cases hcs.symm.trans hfault

set_option maxRecDepth 2000 in
/-- On the way to `/k` all links are spent, so `link` is not seen to lead to a file there. -/
theorem knotted_link_lost :
    let o : Order := ⟨"*", false, none, .abort⟩
    let feature : String → FlagAnswer := fun _ => ⟨false, false⟩
    let course := Course.inOrder false
    SameTree .plain .knot ∧ o.GoesDown ∧ course.Quiet ∧
      ∃ ds es, (collect (o.below Site.plain.root) .knotted feature course).outcome = .ok ds ∧
        (collect (o.below Site.knot.root) .knotted feature course).outcome = .ok es ∧
        ds.length = 2 ∧ es.length = 1 := by
  intro o feature course
  have hquiet : course.Quiet := Course.inOrder_quiet
  have hfeature : (feature Experiments.normalisedUploadPaths).cancels = false := rfl
  have hsame : SameTree .plain .knot :=
    .of_length_eq rfl rfl Site.enclosed_knotted Site.short_knotted (by decide) (by decide) rfl
  have hkeptPlain : (o.below Site.plain.root).kept .knotted false =
      [⟨"file", Path.ofText "/s/file", "*"⟩, ⟨"link", Path.ofText "/s/link", "*"⟩] := by cbv
  have hkeptKnot : (o.below Site.knot.root).kept .knotted false =
      [⟨"file", Path.ofText "/k/file", "*"⟩] := by cbv
  have hreadPlain : ∀ a ∈ (o.below Site.plain.root).kept .knotted false,
      Workspace.knotted.Readable a.absolutePath := by
    have hfile : Workspace.knotted.Readable (Path.ofText "/s/file") := ⟨_, _, by cbv⟩
    have hlink : Workspace.knotted.Readable (Path.ofText "/s/link") := ⟨_, _, by cbv⟩
    rw [hkeptPlain]
    simpa using ⟨hfile, hlink⟩
  have hreadKnot : ∀ a ∈ (o.below Site.knot.root).kept .knotted false,
      Workspace.knotted.Readable a.absolutePath := by
    have hfile : Workspace.knotted.Readable (Path.ofText "/k/file") := ⟨_, _, by cbv⟩
    rw [hkeptKnot]
    simpa using hfile
  obtain ⟨ds, hds, hlength⟩ := exists_collect_of_kept hfeature hquiet hreadPlain
  obtain ⟨es, hes, hlength'⟩ := exists_collect_of_kept hfeature hquiet hreadKnot
  refine ⟨hsame, by decide, hquiet, ds, es, hds, hes, ?_, ?_⟩
  · rw [hlength, hkeptPlain]
    rfl
  · rw [hlength', hkeptKnot]
    rfl

end ArtifactHarvest
