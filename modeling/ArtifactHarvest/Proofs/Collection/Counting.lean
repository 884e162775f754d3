import ArtifactHarvest.Proofs.Collection.Forms
import ArtifactHarvest.Proofs.Collection.Reporting
import ArtifactHarvest.Proofs.Expansion.Naming
import ArtifactHarvest.Proofs.Path.Repeats
import ArtifactHarvest.Proofs.Text.Encoding
import Mathlib.Data.List.Dedup

/-!
How many artifacts a single pattern comes to. One is kept for each text under which a match is
reported (`length_firsts`), and texts differ where the reported paths do and their bytes are texts
(`Path.IsText.text_inj`). Main statement: `length_collect_of_single`.
-/

namespace ArtifactHarvest

/-! ### Bytes that are a text -/

namespace Path

/-- A path is a text if its bytes are those of its text. -/
def IsText (p : Path) : Prop :=
  Text.Utf8.encode p.text = p.bytes

theorem IsText.text_inj {p q : Path} (hp : p.IsText) (hq : q.IsText) (h : p.text = q.text) :
    p = q := by
  rw [IsText, h, hq] at hp
  exact eq_of_bytes hp.symm

/-- Steps are written as a text where their names are texts. -/
theorem isText_ofComponents {cs : List Component} (h : ∀ c ∈ cs, c.isStep = true)
    (hnames : ∀ n, .name n ∈ cs → n.IsText) : (ofComponents cs).IsText := by
  rw [IsText, text, bytes_ofComponents h, Text.Utf8.decodeLossy_intercalate,
    Text.Utf8.encode_intercalate, List.map_map, List.map_map]
  refine congrArg (List.intercalate [slash]) (List.map_congr_left fun c hc => ?_)
  cases c with
  | root | here => exact absurd (h _ hc) Bool.false_ne_true
  | up => decide
  | name n => exact hnames n hc

/-- A reported path is a text where its names are texts. -/
theorem isText_logical {found base : Path} (hfound : found.isAbsolute = true)
    (hbase : base.isAbsolute = true)
    (hnames : ∀ n, .name n ∈ (found.logical (some base) false).components → n.IsText) :
    (found.logical (some base) false).IsText := by
  have hroot : ∀ r ∈ some base, r.isAbsolute = true := by simpa using hbase
  have hreported : false = true ∨ (some base).isSome = true := .inr rfl
  obtain ⟨cs, hcs, hlogical⟩ := exists_steps_of_logical hfound hroot hreported
  rw [hlogical, components_ofComponents hcs] at hnames
  rw [hlogical]
  exact isText_ofComponents hcs hnames

/-- No two of the kept paths have the same components. -/
theorem nodup_components_distinct (paths : List Path) :
    ((distinct paths).map components).Nodup := by
  have hkept : ∀ xs : List (List Component × Path),
      ((distinct.keepFirst xs).map Prod.fst).Nodup := by
    intro xs
    induction xs with
    | nil => exact .nil
    | cons first rest ih =>
        rw [distinct.keepFirst, List.map_cons, List.nodup_cons]
        refine ⟨fun hmem => ?_, ih.sublist (List.filter_sublist.map _)⟩
        obtain ⟨x, hx, hsame⟩ := List.mem_map.mp hmem
        simpa [hsame] using (List.mem_filter.mp hx).2
  exact map_components_distinct paths ▸ hkept _

end Path

/-! ### The matches of one pattern -/

theorem View.exists_of_mem_found {v : View} {root : Path} {pattern : String} {m : Path}
    (h : m ∈ v.found root pattern) :
    ∃ e, v.expand (some root) false pattern = .ok e ∧ m ∈ e.found := by
  unfold found at h
  split at h
  · rename_i e he
    exact ⟨e, he, h⟩
  · cases h

theorem View.nodup_components_found (v : View) (root : Path) (pattern : String) :
    ((v.found root pattern).map Path.components).Nodup := by
  cases hplan : Pattern.plan pattern root with
  | error fault =>
      rw [View.found_of_fault hplan]
      exact .nil
  | ok plan =>
      rw [View.found_of_plan hplan]
      exact Path.nodup_components_distinct _

/-- One artifact is kept for each path. -/
theorem length_firsts (artifacts : List Pending) :
    (firsts artifacts).length = (artifacts.map Pending.path).dedup.length := by
  have hperm : ((firsts artifacts).map Pending.path).Perm (artifacts.map Pending.path).dedup :=
    (List.perm_ext_iff_of_nodup (nodup_paths_firsts artifacts) (List.nodup_dedup _)).mpr
      fun path => by rw [mem_paths_firsts_iff, List.mem_dedup]
  rw [← List.length_map (f := Pending.path), hperm.length_eq]

/-- As many are different as there are exactly if there are no repeats. -/
theorem length_dedup_eq_iff {α : Type} [DecidableEq α] {xs : List α} :
    xs.dedup.length = xs.length ↔ xs.Nodup := by
  constructor
  · intro h
    exact List.dedup_eq_self.mp ((List.dedup_sublist xs).eq_of_length h)
  · intro h
    rw [h.dedup]

section Single

variable {o : Order} {w : Workspace} {root : Path} {pattern : String}

theorem Order.resolveRoot_of_isAbsolute (hroot : o.root = some root)
    (habs : root.isAbsolute = true) : o.resolveRoot w = .ok root := by
  simp only [resolveRoot, hroot, habs, if_true]

theorem Order.expanded_of_root (hroot : o.root = some root) (habs : root.isAbsolute = true) :
    o.expanded w pattern = (View.mk w o.followsLinks).expand (some root) false pattern := by
  simp only [expanded, ground, resolveRoot_of_isAbsolute hroot habs, Except.toOption]

/-- The artifacts of a relative pattern are its matches, reported as seen from the root. -/
theorem Order.matchedBy_of_root (hroot : o.root = some root) (habs : root.isAbsolute = true)
    (hrelative : (Path.ofText pattern).isAbsolute = false) (useForward : Bool) :
    o.matchedBy w useForward pattern =
      ((View.mk w o.followsLinks).found root pattern).map fun m =>
        ⟨(m.logical (some root) false).normalized useForward, m, pattern⟩ := by
  have hground : (o.ground w).root = some root := by
    simp only [ground, resolveRoot_of_isAbsolute hroot habs, Except.toOption]
  have hexpanded : o.expanded w pattern = _ := expanded_of_root hroot habs
  cases he : (View.mk w o.followsLinks).expand (some root) false pattern with
  | error fault =>
      rw [expanded, he] at hexpanded
      simp [matchedBy, hexpanded, View.found, he]
  | ok e =>
      obtain ⟨plan, _, hplan, _, _, rfl⟩ := View.plan_of_expand he
      obtain ⟨_, _, hreported, _⟩ := Pattern.plan_spec hplan
      rw [he] at hexpanded
      simp only [matchedBy_of_expanded hexpanded, View.found, he, reported, hground, hreported,
        hrelative]

theorem View.isAbsolute_of_mem_found_of_root {v : View} {m : Path} (habs : root.isAbsolute = true)
    (hm : m ∈ v.found root pattern) : m.isAbsolute = true := by
  obtain ⟨e, he, hm⟩ := View.exists_of_mem_found hm
  have hrootAbs : ∀ r ∈ some root, r.isAbsolute = true := by simpa using habs
  exact View.isAbsolute_of_mem_found hrootAbs he m hm

/-- They stand under the texts of the matches' paths. -/
theorem Order.paths_matchedBy (hroot : o.root = some root) (habs : root.isAbsolute = true)
    (hrelative : (Path.ofText pattern).isAbsolute = false) (useForward : Bool) :
    (o.matchedBy w useForward pattern).map Pending.path =
      ((View.mk w o.followsLinks).found root pattern).map
        fun m => (m.logical (some root) false).text := by
  have hrootAbs : ∀ r ∈ some root, r.isAbsolute = true := by simpa using habs
  rw [matchedBy_of_root hroot habs hrelative, List.map_map]
  apply List.map_congr_left
  intro m hm
  exact Path.normalized_logical useForward (View.isAbsolute_of_mem_found_of_root habs hm) hrootAbs
    (.inr rfl)

/-- **One pattern loses no match whose path is a text.** When nobody cancels and every match of a
single relative pattern can be read, the collection has as many descriptors as there are different
texts among the matches' paths, so as many as there are matches exactly if no two of them have the
same text. From a root without `..` the matches' paths all differ in their bytes, and where all
names are texts no match is lost. -/
theorem length_collect_of_single {feature : String → FlagAnswer} {course : Course}
    (hfeature : (feature Experiments.normalisedUploadPaths).cancels = false)
    (hcourse : course.Quiet) (hroot : o.root = some root) (habs : root.isAbsolute = true)
    (hup : Component.up ∉ root.components) (hpattern : Pattern.declared o.paths = [pattern])
    (hrelative : (Path.ofText pattern).isAbsolute = false)
    (hread : ∀ m ∈ (View.mk w o.followsLinks).found root pattern, w.Readable m) :
    let found := (View.mk w o.followsLinks).found root pattern
    let texts := found.map fun m => (m.logical (some root) false).text
    ∃ ds, (collect o w feature course).outcome = .ok ds ∧
      ds.length = texts.dedup.length ∧ (ds.length = found.length ↔ texts.Nodup) ∧
      (found.map fun m => (m.logical (some root) false).bytes).Nodup ∧
      ((∀ m ∈ found, ∀ n, .name n ∈ (m.logical (some root) false).components → n.IsText) →
        ds.length = found.length) := by
  intro found texts
  have hrootUp : ∀ r ∈ some root, r.isAbsolute = true ∧ Component.up ∉ r.steps := by
    rw [Path.components_of_isAbsolute habs, List.mem_cons, not_or] at hup
    simpa using ⟨habs, hup.2⟩
  have hmatch : ∀ m ∈ found, m.isAbsolute = true ∧ Component.up ∉ m.steps := by
    intro m hm
    obtain ⟨e, he, hfound⟩ := View.exists_of_mem_found hm
    exact ⟨View.isAbsolute_of_mem_found_of_root habs hm,
      View.up_notMem_of_mem_found hrootUp he m hfound⟩
  have hcomponents := (View.mk w o.followsLinks).nodup_components_found root pattern
  have hinj : ∀ m ∈ found, ∀ m' ∈ found,
      m.logical (some root) false = m'.logical (some root) false → m = m' := by
    intro m hm m' hm' hsame
    refine List.inj_on_of_nodup_map hcomponents hm hm' ?_
    exact Path.components_eq_of_logical (hmatch m hm).1 (hmatch m' hm').1 habs (hmatch m hm).2
      (hmatch m' hm').2 hsame
  have hkept : o.kept w (feature Experiments.normalisedUploadPaths).isOn =
      firsts (o.matchedBy w (feature Experiments.normalisedUploadPaths).isOn pattern) := by
    rw [Order.kept, hpattern, List.flatMap_singleton]
  have hreadable : ∀ a ∈ o.kept w (feature Experiments.normalisedUploadPaths).isOn,
      w.Readable a.absolutePath := by
    intro a ha
    rw [hkept] at ha
    have hmatched := mem_of_mem_firsts ha
    rw [Order.matchedBy_of_root hroot habs hrelative] at hmatched
    obtain ⟨m, hm, rfl⟩ := List.mem_map.mp hmatched
    exact hread m hm
  obtain ⟨ds, hds, hlength⟩ := exists_collect_of_kept hfeature hcourse hreadable
  rw [hkept, length_firsts, Order.paths_matchedBy hroot habs hrelative] at hlength
  have hfound : texts.length = found.length := List.length_map _
  have hall : texts.dedup.length = found.length ↔ texts.Nodup := hfound ▸ length_dedup_eq_iff
  refine ⟨ds, hds, hlength, hlength ▸ hall, ?_, ?_⟩
  · exact hcomponents.of_map.map_on fun m hm m' hm' hsame =>
      hinj m hm m' hm' (Path.eq_of_bytes hsame)
  · intro hnames
    rw [hlength]
    refine hall.mpr (hcomponents.of_map.map_on fun m hm m' hm' hsame => hinj m hm m' hm' ?_)
    exact Path.IsText.text_inj (Path.isText_logical (hmatch m hm).1 habs (hnames m hm))
      (Path.isText_logical (hmatch m' hm').1 habs (hnames m' hm')) hsame

end Single

theorem small_star_counted :
    let o : Order := ⟨"*", false, some (Path.ofText "/r"), .abort⟩
    let feature : String → FlagAnswer := fun _ => ⟨false, false⟩
    let course := Course.inOrder false
    course.Quiet ∧ Component.up ∉ (Path.ofText "/r").components ∧
      Pattern.declared o.paths = ["*"] ∧ (Path.ofText "*").isAbsolute = false ∧
      (View.mk .small false).found (Path.ofText "/r") "*" = [Path.ofText "/r/x"] ∧
      Workspace.small.Readable (Path.ofText "/r/x") ∧
      ∃ ds, (collect o .small feature course).outcome = .ok ds ∧ ds.length = 1 := by
  intro o feature course
  have hquiet : course.Quiet := Course.inOrder_quiet
  have hup : Component.up ∉ (Path.ofText "/r").components := by decide
  have hdeclared : Pattern.declared o.paths = ["*"] := by decide
  have hfound : (View.mk .small false).found (Path.ofText "/r") "*" = [Path.ofText "/r/x"] := by
    cbv
  have hreadable : Workspace.small.Readable (Path.ofText "/r/x") := ⟨_, _, by cbv⟩
  have hread : ∀ m ∈ (View.mk .small o.followsLinks).found (Path.ofText "/r") "*",
      Workspace.small.Readable m := by
    intro m hm
    rw [hfound] at hm
    rwa [List.mem_singleton.mp hm]
  have hfeature : (feature Experiments.normalisedUploadPaths).cancels = false := rfl
  obtain ⟨ds, hds, _, hlength, _⟩ := length_collect_of_single hfeature hquiet rfl (by decide) hup
    hdeclared (by decide) hread
  refine ⟨hquiet, hup, hdeclared, by decide, hfound, hreadable, ds, hds, ?_⟩
  rw [hfound] at hlength
  exact hlength.mpr (by simp)

/-- A workspace with a directory `/odd` that holds two empty files, whose names are the bytes FE and
FF. -/
def Workspace.undecodable : Workspace where
  files := {
    objects := [
      ([⟨[111, 100, 100], by decide⟩], .directory),
      ([⟨[0xFE], by decide⟩, ⟨[111, 100, 100], by decide⟩], .file []),
      ([⟨[0xFF], by decide⟩, ⟨[111, 100, 100], by decide⟩], .file [])]
    distinct := by decide }
  here := none

/-- Two files are found and one is reported: as text, both names are U+FFFD. -/
theorem undecodable_star_lost :
    let o : Order := ⟨"*", false, some (Path.ofText "/odd"), .abort⟩
    let feature : String → FlagAnswer := fun _ => ⟨false, false⟩
    let course := Course.inOrder false
    course.Quiet ∧ Component.up ∉ (Path.ofText "/odd").components ∧
      Pattern.declared o.paths = ["*"] ∧ (Path.ofText "*").isAbsolute = false ∧
      (∀ m ∈ (View.mk .undecodable false).found (Path.ofText "/odd") "*",
        Workspace.undecodable.Readable m) ∧
      ((View.mk .undecodable false).found (Path.ofText "/odd") "*").length = 2 ∧
      ∃ ds, (collect o .undecodable feature course).outcome = .ok ds ∧ ds.length = 1 := by
  intro o feature course
  have hquiet : course.Quiet := Course.inOrder_quiet
  have hdeclared : Pattern.declared o.paths = ["*"] := by decide
  have hfound : (View.mk .undecodable false).found (Path.ofText "/odd") "*" =
      [⟨[47, 111, 100, 100, 47, 0xFE]⟩, ⟨[47, 111, 100, 100, 47, 0xFF]⟩] := by cbv
  have hread : ∀ m ∈ (View.mk .undecodable false).found (Path.ofText "/odd") "*",
      Workspace.undecodable.Readable m := by
    have hfirst : Workspace.undecodable.Readable ⟨[47, 111, 100, 100, 47, 0xFE]⟩ := ⟨_, _, by cbv⟩
    have hsecond : Workspace.undecodable.Readable ⟨[47, 111, 100, 100, 47, 0xFF]⟩ := ⟨_, _, by cbv⟩
    rw [hfound]
    simpa using ⟨hfirst, hsecond⟩
  have hkept : o.kept .undecodable false =
      [⟨"\uFFFD", ⟨[47, 111, 100, 100, 47, 0xFE]⟩, "*"⟩] := by cbv
  have hreadable : ∀ a ∈ o.kept .undecodable false,
      Workspace.undecodable.Readable a.absolutePath := by
    have hfirst : Workspace.undecodable.Readable ⟨[47, 111, 100, 100, 47, 0xFE]⟩ := ⟨_, _, by cbv⟩
    rw [hkept]
    simpa using hfirst
  have hfeature : (feature Experiments.normalisedUploadPaths).cancels = false := rfl
  obtain ⟨ds, hds, hlength⟩ := exists_collect_of_kept hfeature hquiet hreadable
  rw [hkept] at hlength
  exact ⟨hquiet, by decide, hdeclared, by decide, hread, by rw [hfound]; rfl, ds, hds, hlength⟩

end ArtifactHarvest
