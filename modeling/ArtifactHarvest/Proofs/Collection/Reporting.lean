import ArtifactHarvest.Proofs.Collection.Stages
import ArtifactHarvest.Proofs.Digest.Standard

/-!
What the descriptors of a collection say. When nobody cancels and every match can be read, each
match is reported once under its path, and each descriptor tells the truth about one match: the
first under its path, with the size and the digests of the content that this match leads to
(`collect_complete_and_truthful`).
-/

namespace ArtifactHarvest

namespace Order

/-- What a pattern comes to against the ground of an order. -/
def expanded (o : Order) (w : Workspace) (pattern : String) : Collection.Expanded :=
  (o.ground w).view.expand (o.ground w).root false pattern

/-- The path under which a match is reported. -/
def reported (o : Order) (w : Workspace) (useForward : Bool) (e : Expansion) (m : Path) : String :=
  (m.logical (o.ground w).root e.isAbsolute).normalized useForward

/-- The descriptor tells the truth about a match. The match is the first one with the reported path,
over the declared patterns and among the matches of its own, and size and digests are those of the
content that it leads to. -/
structure Tells (o : Order) (w : Workspace) (useForward : Bool) (d : Descriptor) (e : Expansion)
    (m : Path) (content : Bytes) : Prop where
  expanded : o.expanded w d.pattern = .ok e
  path : d.path = o.reported w useForward e m
  firstPattern : ∃ earlier later, Pattern.declared o.paths = earlier ++ d.pattern :: later ∧
    ∀ pattern ∈ earlier, ∀ before, o.expanded w pattern = .ok before →
      ∀ other ∈ before.found, o.reported w useForward before other ≠ d.path
  firstMatch : ∃ front back, e.found = front ++ m :: back ∧
    ∀ other ∈ front, o.reported w useForward e other ≠ d.path
  absolutePath : d.absolutePath = m.text
  leadsTo : ∃ loc, w.lookup false m = .ok (loc, .file content)
  size : d.size = UInt64.ofNat content.length
  sha1 : d.sha1 = Digest.sha1.ofMessage content
  sha256 : d.sha256 = Digest.sha256.ofMessage content
  digits : Digest.IsHex 40 d.sha1 ∧ Digest.IsHex 64 d.sha256

variable {o : Order} {w : Workspace} {useForward : Bool} {pattern : String} {e : Expansion}

theorem matchedBy_of_expanded (h : o.expanded w pattern = .ok e) :
    o.matchedBy w useForward pattern =
      e.found.map fun m => ⟨o.reported w useForward e m, m, pattern⟩ := by
  have hpattern : e.pattern = pattern := View.pattern_of_expand h
  rw [expanded] at h
  simp only [matchedBy, h, Collection.pending, hpattern]
  rfl

/-- What is matched comes from an expansion. -/
theorem expanded_of_mem_matchedBy {a : Pending} (h : a ∈ o.matchedBy w useForward pattern) :
    ∃ e, o.expanded w pattern = .ok e := by
  cases hexpanded : o.expanded w pattern with
  | ok e => exact ⟨e, rfl⟩
  | error fault =>
      rw [expanded] at hexpanded
      simp [matchedBy, hexpanded] at h

theorem readable_of_mem_matchedBy
    (hread : ∀ e, o.expanded w pattern = .ok e → ∀ m ∈ e.found, w.Readable m) :
    ∀ a ∈ o.matchedBy w useForward pattern, w.Readable a.absolutePath := by
  intro a ha
  obtain ⟨e, he⟩ := expanded_of_mem_matchedBy ha
  rw [matchedBy_of_expanded he] at ha
  obtain ⟨m, hm, rfl⟩ := List.mem_map.mp ha
  exact hread e he m hm

/-- The reported paths are those of the matches. -/
theorem mem_paths_described_iff {patterns : List String} {path : String}
    (hread : ∀ pattern ∈ patterns, ∀ a ∈ o.matchedBy w useForward pattern,
      w.Readable a.absolutePath) :
    path ∈ (o.described w useForward patterns).map Descriptor.path ↔
      ∃ pattern ∈ patterns, path ∈ (o.matchedBy w useForward pattern).map Pending.path := by
  rw [map_path_described hread, mem_paths_firsts_iff, List.map_flatMap, List.mem_flatMap]

/-- Each match is reported exactly once under its path. -/
theorem countP_described {patterns : List String} (hpattern : pattern ∈ patterns)
    (he : o.expanded w pattern = .ok e) {m : Path} (hm : m ∈ e.found)
    (hread : ∀ pattern ∈ patterns, ∀ a ∈ o.matchedBy w useForward pattern,
      w.Readable a.absolutePath) :
    (o.described w useForward patterns).countP
      (fun d => d.path = o.reported w useForward e m) = 1 := by
  have hmem : o.reported w useForward e m ∈
      (o.described w useForward patterns).map Descriptor.path := by
    refine (mem_paths_described_iff hread).mpr ⟨pattern, hpattern, ?_⟩
    rw [matchedBy_of_expanded he, List.map_map]
    exact List.mem_map_of_mem hm
  have hcount := List.count_eq_one_of_mem (nodup_paths_described o w useForward patterns) hmem
  rwa [List.count, List.countP_map] at hcount

/-- Each descriptor tells the truth about a match. -/
theorem tells_of_mem_described {d : Descriptor}
    (h : d ∈ o.described w useForward (Pattern.declared o.paths)) :
    ∃ e m content, o.Tells w useForward d e m content := by
  obtain ⟨a, ha, hd⟩ := List.mem_filterMap.mp h
  obtain ⟨earlier, pattern, later, hdeclared, hkept, hearlier⟩ := source_of_mem_firsts ha
  obtain ⟨e, he⟩ := expanded_of_mem_matchedBy (mem_of_mem_firsts hkept)
  rw [Collection.describe?_eq, Option.map_eq_some_iff] at hd
  obtain ⟨content, hcontent, rfl⟩ := hd
  rw [matchedBy_of_expanded he] at hkept
  obtain ⟨front, back, hfound, hfront⟩ := first_of_mem_firsts hkept
  obtain ⟨before, tail, hsplit, rfl, htail⟩ := List.map_eq_append_iff.mp hfound
  obtain ⟨m, after, rfl, rfl, rfl⟩ := List.map_eq_cons_iff.mp htail
  refine ⟨e, m, content, he, rfl, ⟨earlier, later, hdeclared, ?_⟩, ⟨before, after, hsplit, ?_⟩,
    rfl, Workspace.content?_eq_some_iff.mp hcontent, rfl, rfl, rfl,
    Digest.sha1_isHex content, Digest.sha256_isHex content⟩
  · intro other hother e' he' m' hm' hsame
    refine hearlier other hother ?_
    rw [matchedBy_of_expanded he', List.map_map]
    exact List.mem_map.mpr ⟨m', hm', hsame⟩
  · exact fun m' hm' => hfront _ (List.mem_map_of_mem hm')

end Order

/-- **Complete and truthful.** When nobody cancels and every match can be read, the collection
succeeds, each match of each declared pattern is reported exactly once under its path, and each
descriptor tells the truth about a match. -/
theorem collect_complete_and_truthful {o : Order} {w : Workspace} {feature : String → FlagAnswer}
    {course : Course} (hfeature : (feature Experiments.normalisedUploadPaths).cancels = false)
    (hcourse : course.Quiet)
    (hread : ∀ pattern ∈ Pattern.declared o.paths, ∀ e, o.expanded w pattern = .ok e →
      ∀ m ∈ e.found, w.Readable m) :
    let useForward := (feature Experiments.normalisedUploadPaths).isOn
    ∃ ds : List Descriptor, (collect o w feature course).outcome = .ok ds ∧
      (∀ pattern ∈ Pattern.declared o.paths, ∀ e, o.expanded w pattern = .ok e →
        ∀ m ∈ e.found, ds.countP (fun d => d.path = o.reported w useForward e m) = 1) ∧
      ∀ d ∈ ds, ∃ e m content, o.Tells w useForward d e m content := by
  intro useForward
  have hmatched : ∀ pattern ∈ Pattern.declared o.paths,
      ∀ a ∈ o.matchedBy w useForward pattern, w.Readable a.absolutePath :=
    fun pattern hpattern => Order.readable_of_mem_matchedBy (hread pattern hpattern)
  refine ⟨_, collect_of_readable hfeature hcourse hmatched, ?_, ?_⟩
  · exact fun pattern hpattern e he m hm => Order.countP_described hpattern he hm hmatched
  · exact fun d hd => Order.tells_of_mem_described hd

theorem small_star_told :
    let o : Order := ⟨"*", false, some (Path.ofText "/r"), .abort⟩
    let feature : String → FlagAnswer := fun _ => ⟨false, false⟩
    let course := Course.inOrder false
    course.Quiet ∧
      (∀ pattern ∈ Pattern.declared o.paths, ∀ e, o.expanded .small pattern = .ok e →
        ∀ m ∈ e.found, Workspace.small.Readable m) ∧
      ∃ ds, (collect o .small feature course).outcome = .ok ds ∧
        ∀ d ∈ ds, ∃ e m content, o.Tells .small false d e m content := by
  intro o feature course
  have hfeature : (feature Experiments.normalisedUploadPaths).cancels = false := rfl
  have hquiet : course.Quiet := Course.inOrder_quiet
  have hread : ∀ pattern ∈ Pattern.declared o.paths, ∀ e, o.expanded .small pattern = .ok e →
      ∀ m ∈ e.found, Workspace.small.Readable m := by
    have hdeclared : Pattern.declared o.paths = ["*"] := by decide
    have hstar : o.expanded .small "*" = .ok ⟨"*", false, [Path.ofText "/r/x"]⟩ := by cbv
    have hlook : Workspace.small.Readable (Path.ofText "/r/x") := ⟨_, _, by cbv⟩
    rw [hdeclared]
    intro pattern hpattern e he m hm
    rw [List.mem_singleton.mp hpattern, hstar] at he
    cases he
    rwa [List.mem_singleton.mp hm]
  obtain ⟨ds, hds, _, htells⟩ := collect_complete_and_truthful hfeature hquiet hread
  exact ⟨hquiet, hread, ds, hds, htells⟩

end ArtifactHarvest
