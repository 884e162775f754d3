import ArtifactHarvest.Proofs.Expansion.Links
import ArtifactHarvest.Proofs.Expansion.Turns
import ArtifactHarvest.Proofs.Path.Ancestors

/-!
The trails of a walk that follows links: the stands that lead from the base of a plan to a match
(`mem_matchesBelow_iff_trail`). At each stand the branch tells where the directory and those above
it really are, as far as it goes (`tracked_turn`), and it ends above no directory from the base on
(`bounded_turn`). Main statement: `not_entered_again`, on the directories that are not entered
again below themselves.
-/

namespace ArtifactHarvest

namespace Workspace

variable {w : Workspace}

theorem lookup_ancestor_child {dir : Path} {n : Name} {i : Nat} {loc : Location}
    (habs : dir.isAbsolute = true) (hchild : (dir.child n).Admissible)
    (h : w.lookup false (dir.ancestor i) = .ok (loc, .directory)) :
    w.lookup false ((dir.child n).ancestor (i + 1)) = .ok (loc, .directory) := by
  have hchildAbs := Path.isAbsolute_child n habs
  have hadmissible := hchild.of_begins (Path.prefix_bytes_ancestor hchildAbs (i + 1))
  rw [lookup_directory_iff (Path.steps_ancestor hchildAbs _).1 hadmissible,
    Path.steps_ancestor_child n habs]
  exact hasAt_of_lookup (Path.steps_ancestor habs i).1 h

theorem leadsToDirectory_up {dir : Path} (habs : dir.isAbsolute = true)
    (h : w.LeadsToDirectory dir) : w.LeadsToDirectory dir.up := by
  obtain ⟨loc, hlook⟩ := h
  have hadmissible := admissible_of_lookup habs hlook
  have hat := hasAt_of_lookup habs hlook
  obtain ⟨outer, houter⟩ : ∃ outer, w.HasAt false dir.up.steps outer .directory := by
    rw [Path.steps_up habs]
    by_cases hnil : dir.steps = []
    · rw [hnil] at hat
      exact ⟨loc, by simpa [hnil] using hat⟩
    · rw [← List.dropLast_concat_getLast hnil] at hat
      exact hat.directory (List.cons_ne_nil _ _)
  exact ⟨outer, (lookup_directory_iff (Path.isAbsolute_up habs)
    (hadmissible.of_begins (Path.prefix_bytes_up habs))).mpr houter⟩

end Workspace

namespace View

variable {v : View}

/-- Stands that lead one to the next and in the end to a file. -/
inductive Trail (v : View) : List Stand → Path → Prop where
  | last {s : Stand} {p : Path} : .find p ∈ v.turns s → Trail v [s] p
  | onward {s t : Stand} {stands : List Stand} {p : Path} :
      .onward t ∈ v.turns s → Trail v (t :: stands) p → Trail v (s :: t :: stands) p

/-- Each match has a trail, and what a trail leads to is a match. -/
theorem mem_matchesBelow_iff_trail {s : Stand} {p : Path} :
    p ∈ v.matchesBelow s.segments s.dir s.branch ↔ ∃ stands, v.Trail (s :: stands) p := by
  constructor
  · intro hp
    induction hrank : v.rank s using Nat.strongRecOn generalizing s with
    | ind rank ih =>
        rw [matchesBelow_eq_flatMap_turns, List.mem_flatMap] at hp
        obtain ⟨turn, hturn, hp⟩ := hp
        cases turn with
        | find q =>
            obtain rfl : p = q := List.mem_singleton.mp hp
            exact ⟨[], .last hturn⟩
        | onward t =>
            obtain ⟨stands, htrail⟩ := ih _ (hrank ▸ rank_lt_of_mem_turns hturn) hp rfl
            exact ⟨t :: stands, .onward hturn htrail⟩
  · rintro ⟨stands, htrail⟩
    generalize hs : s :: stands = all at htrail
    induction htrail generalizing s stands with
    | last hfind =>
        obtain ⟨rfl, _⟩ := List.cons.inj hs
        rw [matchesBelow_eq_flatMap_turns]
        exact List.mem_flatMap.mpr ⟨_, hfind, List.mem_singleton_self _⟩
    | onward hturn _ ih =>
        obtain ⟨rfl, _⟩ := List.cons.inj hs
        rw [matchesBelow_eq_flatMap_turns]
        exact List.mem_flatMap.mpr ⟨_, hturn, ih _ rfl⟩

/-- What holds at the first stand and is kept by each turn holds all along a trail. -/
theorem Trail.forall_of_turn {holds : Stand → Prop} {s : Stand} {stands : List Stand} {p : Path}
    (htrail : v.Trail (s :: stands) p) (hs : holds s)
    (hturn : ∀ s t, holds s → .onward t ∈ v.turns s → holds t) : ∀ t ∈ s :: stands, holds t := by
  induction stands generalizing s with
  | nil => simpa using hs
  | cons t stands ih =>
      cases htrail with
      | onward hstep hrest =>
          have hrest := ih hrest (hturn s t hs hstep)
          exact List.forall_mem_cons.mpr ⟨hs, hrest⟩

/-- The branch tells where the directory and those above it really are, as far as it goes. -/
structure Tracked (v : View) (s : Stand) : Prop where
  absolute : s.dir.isAbsolute = true
  directory : v.workspace.LeadsToDirectory s.dir
  distinct : s.branch.Nodup
  located : ∀ i loc, s.branch[i]? = some loc →
    v.workspace.lookup false (s.dir.ancestor i) = .ok (loc, .directory)

theorem tracked_turn (hv : v.followsLinks = true) {s t : Stand} (hs : v.Tracked s)
    (h : .onward t ∈ v.turns s) : v.Tracked t := by
  rcases onward_mem_turns_cases h with ⟨rest, _, rfl⟩ | ⟨rest, _, rfl⟩ |
    ⟨n, loc, inner, hkind, henter, hdir, hbranch, _⟩
  · have hup := Workspace.leadsToDirectory_up hs.absolute hs.directory
    refine ⟨Path.isAbsolute_up hs.absolute, hup, ?_, ?_⟩
    · simpa only [leave, hv, if_true] using hs.distinct.tail
    · intro i loc hi
      rw [leave, if_pos hv, List.getElem?_tail] at hi
      rw [Path.ancestor_up]
      exact hs.located (i + 1) loc hi
  · exact ⟨hs.absolute, hs.directory, hs.distinct, hs.located⟩
  · have hlook := (classify_eq_directory_iff_of_follows hv).mp hkind
    have habs := Path.isAbsolute_child n hs.absolute
    have hadmissible := Workspace.admissible_of_lookup habs hlook
    obtain ⟨_, hfresh, rfl⟩ := (enter?_eq_some_iff hv).mp henter
    refine ⟨hdir ▸ habs, hdir ▸ ⟨loc, hlook⟩, ?_, ?_⟩
    · rw [hbranch]
      exact List.nodup_cons.mpr ⟨hfresh, hs.distinct⟩
    · intro i found hi
      rw [hbranch] at hi
      rw [hdir]
      cases i with
      | zero =>
          rw [List.getElem?_cons_zero, Option.some.injEq] at hi
          exact hi ▸ hlook
      | succ i =>
          rw [List.getElem?_cons_succ] at hi
          exact Workspace.lookup_ancestor_child hs.absolute hadmissible (hs.located i found hi)

/-- What lies above the branch lies at or above the top. -/
structure Bounded (top : Path) (s : Stand) : Prop where
  absolute : s.dir.isAbsolute = true
  above : (s.dir.ancestor s.branch.length).steps <+: top.steps

theorem bounded_turn (hv : v.followsLinks = true) {top : Path} {s t : Stand} (hs : Bounded top s)
    (h : .onward t ∈ v.turns s) : Bounded top t := by
  obtain ⟨habs, habove⟩ := hs
  rcases onward_mem_turns_cases h with ⟨rest, _, rfl⟩ | ⟨rest, _, rfl⟩ |
    ⟨n, loc, inner, _, henter, hdir, hbranch, _⟩
  · refine ⟨Path.isAbsolute_up habs, ?_⟩
    rw [leave, if_pos hv, Path.ancestor_up]
    cases hbranch : s.branch with
    | nil =>
        rw [hbranch] at habove
        have hup : s.dir.up.steps <+: s.dir.steps := Path.prefix_steps_of_ancestor habs 1
        exact hup.trans habove
    | cons loc outer => rwa [hbranch] at habove
  · exact ⟨habs, habove⟩
  · obtain ⟨_, _, rfl⟩ := (enter?_eq_some_iff hv).mp henter
    refine ⟨hdir ▸ Path.isAbsolute_child n habs, ?_⟩
    rw [hdir, hbranch, List.length_cons, Path.steps_ancestor_child n habs]
    exact habove

/-! ### From a directory to a match below it -/

/-- A trail to a match below a directory that never stands in that directory stays below it. -/
theorem Trail.prefix_of_ne {cs : List Component} {stands : List Stand} {p : Path}
    (htrail : v.Trail stands p) (habs : ∀ s ∈ stands, s.dir.isAbsolute = true)
    (hcs : cs <+: p.steps) (hp : cs ≠ p.steps) (hne : ∀ s ∈ stands, s.dir.steps ≠ cs) :
    ∀ s ∈ stands, cs <+: s.dir.steps := by
  induction htrail with
  | @last s p hfind =>
      obtain ⟨n, rfl, _⟩ := find_mem_turns hfind
      rw [Path.steps_child] at hcs hp
      have hbelow := (List.prefix_concat_iff.mp hcs).resolve_left hp
      simpa using hbelow
  | @onward s t stands p hturn _ ih =>
      obtain ⟨hsAbs, hrestAbs⟩ := List.forall_mem_cons.mp habs
      have hrest := ih hrestAbs hcs hp fun r hr => hne r (List.mem_cons_of_mem s hr)
      refine List.forall_mem_cons.mpr ⟨?_, hrest⟩
      have ht := hrest t List.mem_cons_self
      have htne := hne t (List.mem_cons_of_mem s List.mem_cons_self)
      rcases onward_mem_turns_cases hturn with ⟨rest, _, rfl⟩ | ⟨rest, _, rfl⟩ |
        ⟨n, loc, inner, _, _, hdir, _⟩
      · rw [Path.steps_up hsAbs] at ht
        exact ht.trans (List.dropLast_prefix _)
      · exact ht
      · rw [hdir, Path.steps_child] at ht htne
        exact (List.prefix_concat_iff.mp ht).resolve_left htne.symm

/-- The directory lies on the way to where the walk stands, and the branch reaches up to it. -/
structure Covers (cs : List Component) (s : Stand) : Prop where
  begins : cs <+: s.dir.steps
  reached : s.dir.steps.length < cs.length + s.branch.length

theorem covers_turn (hv : v.followsLinks = true) {cs : List Component} {s t : Stand}
    (habs : s.dir.isAbsolute = true) (hs : Covers cs s) (hturn : .onward t ∈ v.turns s)
    (hbegins : cs <+: t.dir.steps) (hne : t.dir.steps ≠ cs) : Covers cs t := by
  refine ⟨hbegins, ?_⟩
  have hreached := hs.reached
  rcases onward_mem_turns_cases hturn with ⟨rest, _, rfl⟩ | ⟨rest, _, rfl⟩ |
    ⟨n, loc, inner, _, henter, hdir, hbranch, _⟩
  · -- the step back ends below the directory, so it takes a step and an entry of the branch back
    have hlonger : cs.length < s.dir.up.steps.length := by
      refine Nat.lt_of_le_of_ne hbegins.length_le fun hlength => ?_
      exact hne (hbegins.eq_of_length hlength).symm
    simp only [leave, hv, if_true, List.length_tail, Path.steps_up habs,
      List.length_dropLast] at hlonger ⊢
    omega
  · exact hreached
  · obtain ⟨_, _, rfl⟩ := (enter?_eq_some_iff hv).mp henter
    rw [hdir, hbranch, Path.steps_child, List.length_append, List.length_singleton,
      List.length_cons]
    omega

/-- What is covered at a stand is covered where the trail ends, if the trail stays below it. -/
theorem Trail.covers_last (hv : v.followsLinks = true) {cs : List Component} {s : Stand}
    {stands : List Stand} {p : Path} (htrail : v.Trail (s :: stands) p)
    (habs : ∀ t ∈ s :: stands, t.dir.isAbsolute = true) (hs : Covers cs s)
    (hbelow : ∀ t ∈ stands, cs <+: t.dir.steps) (hne : ∀ t ∈ stands, t.dir.steps ≠ cs) :
    ∃ last ∈ s :: stands, .find p ∈ v.turns last ∧ Covers cs last := by
  induction stands generalizing s with
  | nil =>
      cases htrail with
      | last hfind => exact ⟨s, List.mem_cons_self, hfind, hs⟩
  | cons t stands ih =>
      cases htrail with
      | onward hturn hrest =>
          obtain ⟨hsAbs, hrestAbs⟩ := List.forall_mem_cons.mp habs
          obtain ⟨ht, hbelow⟩ := List.forall_mem_cons.mp hbelow
          obtain ⟨htne, hne⟩ := List.forall_mem_cons.mp hne
          obtain ⟨last, hlast, hfind, hcovers⟩ :=
            ih hrest hrestAbs (covers_turn hv hsAbs hs hturn ht htne) hbelow hne
          exact ⟨last, List.mem_cons_of_mem s hlast, hfind, hcovers⟩

/-- On a tracked way, a directory that the branch reaches up to is none of those below it. -/
theorem Tracked.lookup_ne {s : Stand} (hs : v.Tracked s) {cs : List Component} {outer : Location}
    {k : Nat} (hcovers : Covers cs s) (hat : v.workspace.HasAt false cs outer .directory)
    (hlonger : cs.length < (s.dir.ancestor k).steps.length) :
    ∃ inner, v.workspace.lookup false (s.dir.ancestor k) = .ok (inner, .directory) ∧
      inner ≠ outer := by
  have hlength := fun d => Path.length_steps_ancestor hs.absolute d
  have hreached := hcovers.reached
  rw [hlength] at hlonger
  have hproper : cs ≠ s.dir.steps := by
    rintro rfl
    omega
  obtain ⟨i, hi, hsame⟩ := (Path.exists_ancestor_iff hs.absolute).mpr ⟨hcovers.begins, hproper⟩
  have hheight := hlength (i + 1)
  rw [hsame] at hheight
  have hki : k < i + 1 := by omega
  have hbranch : i + 1 < s.branch.length := by omega
  have hinner := hs.located k _ (List.getElem?_eq_getElem (hki.trans hbranch))
  have houter := hs.located (i + 1) _ (List.getElem?_eq_getElem hbranch)
  have hplace := Workspace.hasAt_of_lookup (Path.steps_ancestor hs.absolute (i + 1)).1 houter
  rw [hsame] at hplace
  refine ⟨_, hinner, ?_⟩
  rw [hat.loc_eq hplace, ne_eq, hs.distinct.getElem_inj_iff]
  omega

theorem Trail.suffix {front back : List Stand} {s : Stand} {p : Path}
    (h : v.Trail (front ++ s :: back) p) : v.Trail (s :: back) p := by
  induction front with
  | nil => exact h
  | cons r front ih =>
      obtain ⟨next, more, hmore⟩ := List.exists_cons_of_ne_nil
        (List.append_ne_nil_of_right_ne_nil front (List.cons_ne_nil s back))
      rw [List.cons_append, hmore] at h
      cases h with
      | onward _ hrest => exact ih (hmore ▸ hrest)

theorem Trail.isAbsolute {stands : List Stand} {p : Path} (h : v.Trail stands p)
    (habs : ∀ s ∈ stands, s.dir.isAbsolute = true) : p.isAbsolute = true := by
  induction h with
  | @last s p hfind =>
      obtain ⟨n, rfl, _⟩ := find_mem_turns hfind
      exact Path.isAbsolute_child n (habs s List.mem_cons_self)
  | onward _ _ ih => exact ih fun t ht => habs t (List.mem_cons_of_mem _ ht)

/-- Below a directory whose place is on the branch, a trail that does not come back to it passes
through other directories only. -/
theorem Trail.locate_ne (hv : v.followsLinks = true) {s : Stand} {back : List Stand} {p : Path}
    {k : Nat} (htrail : v.Trail (s :: back) p) (htracked : ∀ t ∈ s :: back, v.Tracked t)
    (hbranch : s.branch ≠ []) (hback : ∀ t ∈ back, t.dir.steps ≠ s.dir.steps)
    (hbelow : s.dir.steps <+: (p.ancestor (k + 1)).steps)
    (hne : (p.ancestor (k + 1)).steps ≠ s.dir.steps) :
    v.workspace.locate false (p.ancestor (k + 1)) ≠ v.workspace.locate false s.dir := by
  have habs : ∀ t ∈ s :: back, t.dir.isAbsolute = true := fun t ht => (htracked t ht).absolute
  have hpAbs := htrail.isAbsolute habs
  have hancestor := Path.prefix_steps_of_ancestor hpAbs (k + 1)
  have hlonger : s.dir.steps.length < (p.ancestor (k + 1)).steps.length :=
    Nat.lt_of_le_of_ne hbelow.length_le fun hlength => hne (hbelow.eq_of_length hlength).symm
  have hstays : ∀ t ∈ back, s.dir.steps <+: t.dir.steps := by
    cases htrail with
    | last => exact nofun
    | onward _ hrest =>
        have hproper : s.dir.steps ≠ p.steps := by
          intro hsame
          have hle := hancestor.length_le
          rw [← hsame] at hle
          omega
        exact hrest.prefix_of_ne (List.forall_mem_cons.mp habs).2 (hbelow.trans hancestor) hproper
          hback
  have hstart : Covers s.dir.steps s :=
    ⟨List.prefix_refl _, Nat.lt_add_of_pos_right (List.length_pos_iff.mpr hbranch)⟩
  obtain ⟨last, hlast, hfind, hcovers⟩ := htrail.covers_last hv habs hstart hstays hback
  have hlastTracked := htracked last hlast
  have hlastAbs := hlastTracked.absolute
  obtain ⟨n, rfl, hfile⟩ := find_mem_turns hfind
  rw [Path.steps_ancestor_child n hlastAbs] at hlonger
  obtain ⟨loc, hloc⟩ := (htracked s List.mem_cons_self).directory
  have hat := Workspace.hasAt_of_lookup (habs s List.mem_cons_self) hloc
  obtain ⟨inner, hinner, hother⟩ := hlastTracked.lookup_ne hcovers hat hlonger
  have hchild := Workspace.lookup_ancestor_child hlastAbs (hfile.admissible hpAbs) hinner
  rw [(Workspace.lookup_eq hchild).1, (Workspace.lookup_eq hloc).1, ne_eq, Except.ok.injEq]
  exact hother

/-- A trail from the base of a plan to what it matches. -/
def Explores (v : View) (plan : Plan) (stands : List Stand) (p : Path) : Prop :=
  ∃ loc rest, v.workspace.lookup false plan.base = .ok (loc, .directory) ∧
    loc ∉ v.workspace.files.unlisted ∧
    stands = ⟨plan.segments, plan.base, v.firstBranch plan.base loc⟩ :: rest ∧ v.Trail stands p

/-- Where a trail may stand with nothing left on the branch: above the base, or in it where its
canonical path cannot be made out. -/
def bareTop (v : View) (base : Path) : Path :=
  if v.workspace.resolves base then base.up else base

theorem isAbsolute_bareTop {base : Path} (habs : base.isAbsolute = true) :
    (v.bareTop base).isAbsolute = true := by
  unfold bareTop
  split
  · exact Path.isAbsolute_up habs
  · exact habs

theorem tracked_of_explores (hv : v.followsLinks = true) {plan : Plan} {stands : List Stand}
    {p : Path} (habs : plan.base.isAbsolute = true) (h : v.Explores plan stands p) :
    ∀ s ∈ stands, v.Tracked s := by
  obtain ⟨loc, rest, hlook, _, rfl, htrail⟩ := h
  refine htrail.forall_of_turn ⟨habs, ⟨loc, hlook⟩, ?_, ?_⟩ fun s t => tracked_turn hv
  · unfold firstBranch
    split
    · exact List.nodup_singleton loc
    · exact List.nodup_nil
  · intro i found hi
    unfold firstBranch at hi
    split at hi
    · rw [List.getElem?_singleton] at hi
      split at hi
      · rename_i hzero
        cases hi
        subst hzero
        exact hlook
      · cases hi
    · cases hi

theorem bounded_of_explores (hv : v.followsLinks = true) {plan : Plan} {stands : List Stand}
    {p : Path} (habs : plan.base.isAbsolute = true) (h : v.Explores plan stands p) :
    ∀ s ∈ stands, Bounded (v.bareTop plan.base) s := by
  obtain ⟨loc, rest, _, _, rfl, htrail⟩ := h
  refine htrail.forall_of_turn ⟨habs, ?_⟩ fun s t => bounded_turn hv
  cases hresolves : v.workspace.resolves plan.base <;>
    simp [firstBranch, bareTop, hv, hresolves, Path.ancestor]

/-- **Directories that are not entered again.** Every match that is not the base itself has a trail.
At each stand of a trail the directory's place is on the branch unless the branch is empty, as it
can be only in a directory above the base, at `/`, or in a base whose canonical path cannot be made
out. As long as it is on the branch, the directory is not entered again below itself: from the last
time that the trail stands there, no directory strictly between it and the match is the same one.
-/
theorem not_entered_again {w : Workspace} {root : Path} {pattern : String} {plan : Plan}
    {cancelled : Bool} {e : Expansion} (habs : root.isAbsolute = true)
    (hplan : Pattern.plan pattern root = .ok plan)
    (hexpand : (View.mk w true).expand (some root) cancelled pattern = .ok e) :
    (∀ p ∈ e.found, plan.segments = [] ∧ p = plan.base ∨
      ∃ stands, (View.mk w true).Explores plan stands p) ∧
    ∀ p front s back, (View.mk w true).Explores plan (front ++ s :: back) p →
      (∃ loc, w.locate false s.dir = .ok loc ∧ (loc ∈ s.branch ↔ s.branch ≠ [])) ∧
      (s.branch = [] → ((View.mk w true).bareTop plan.base).startsWith s.dir = true) ∧
      (s.branch ≠ [] → (∀ t ∈ back, t.dir.components ≠ s.dir.components) →
        ∀ k, s.dir.components <+: (p.ancestor (k + 1)).components →
          (p.ancestor (k + 1)).components ≠ s.dir.components →
          w.locate false (p.ancestor (k + 1)) ≠ w.locate false s.dir) := by
  have hbaseAbs : plan.base.isAbsolute = true := (Pattern.plan_anchored habs hplan).base
  constructor
  · obtain ⟨found, hfound, rfl⟩ := (expand_eq_ok_iff hplan).mp hexpand
    intro p hp
    have hp := Path.mem_of_mem_distinct hp
    obtain ⟨_, ⟨hsegments, rfl, _⟩ | ⟨_, loc, hlook, hlisted, hp⟩⟩ :=
      mem_carryOut_iff.mp ⟨found, carryOut_of_cancelled hfound, hp⟩
    · exact .inl ⟨hsegments, rfl⟩
    · obtain ⟨rest, htrail⟩ := (mem_matchesBelow_iff_trail
        (s := ⟨plan.segments, plan.base, (View.mk w true).firstBranch plan.base loc⟩)).mp hp
      exact .inr ⟨_, loc, rest, hlook, hlisted, rfl, htrail⟩
  · intro p front s back hexplores
    have htracked := tracked_of_explores rfl hbaseAbs hexplores
    have hs : s ∈ front ++ s :: back := List.mem_append_right front List.mem_cons_self
    obtain ⟨hsAbs, ⟨loc, hloc⟩, _, hlocated⟩ := htracked s hs
    have hlocate := (Workspace.lookup_eq hloc).1
    refine ⟨⟨loc, hlocate, ?_⟩, ?_, ?_⟩
    · constructor
      · exact List.ne_nil_of_mem
      · intro hbranch
        obtain ⟨first, more, hcons⟩ := List.exists_cons_of_ne_nil hbranch
        have hfirst := hlocated 0 first (by rw [hcons]; rfl)
        rw [Path.ancestor, hloc] at hfirst
        cases hfirst
        exact hcons ▸ List.mem_cons_self
    · intro hbranch
      have habove := (bounded_of_explores rfl hbaseAbs hexplores s hs).above
      rw [hbranch, List.length_nil, Path.ancestor] at habove
      rw [Path.startsWith, List.isPrefixOf_iff_prefix,
        Path.components_prefix_iff hsAbs (isAbsolute_bareTop hbaseAbs)]
      exact habove
    · intro hbranch hback k hbelow hne
      obtain ⟨_, _, _, _, _, htrail⟩ := hexplores
      have hrest := fun t ht => htracked t (List.mem_append_right front ht)
      have hpAbs := htrail.isAbsolute fun t ht => (htracked t ht).absolute
      have hancestorAbs := (Path.steps_ancestor hpAbs (k + 1)).1
      rw [Path.components_prefix_iff hsAbs hancestorAbs] at hbelow
      rw [ne_eq, Path.components_eq_iff hancestorAbs hsAbs] at hne
      refine htrail.suffix.locate_ne rfl hrest hbranch ?_ hbelow hne
      intro t ht hsame
      have htAbs := (hrest t (List.mem_cons_of_mem s ht)).absolute
      exact hback t ht ((Path.components_eq_iff htAbs hsAbs).mpr hsame)

theorem down_and_up_and_down :
    (Path.ofText "/").isAbsolute = true ∧
      Pattern.plan "*/../*/x" (Path.ofText "/") =
        .ok ⟨⟨Path.ofText "/", Path.ofText "/"⟩, false,
          [.matching [.anyRun], .parent, .matching [.anyRun], .named ⟨[120], by decide⟩]⟩ ∧
      (View.mk .small true).expand (some (Path.ofText "/")) false "*/../*/x" =
        .ok ⟨"*/../*/x", false, [Path.ofText "/r/x"]⟩ ∧
      Workspace.small.locate false ((Path.ofText "/r/x").ancestor 1) ≠
        Workspace.small.locate false (Path.ofText "/") := by
  have habs : (Path.ofText "/").isAbsolute = true := by decide
  have hplan : Pattern.plan "*/../*/x" (Path.ofText "/") =
      .ok ⟨⟨Path.ofText "/", Path.ofText "/"⟩, false,
        [.matching [.anyRun], .parent, .matching [.anyRun], .named ⟨[120], by decide⟩]⟩ := by
    have hsegments : Pattern.segments "*/../*/x" = .ok [.matching [.anyRun], .parent,
        .matching [.anyRun], .named ⟨[120], by decide⟩] := by cbv
    have hrelative : (Path.ofText "*/../*/x").isAbsolute = false := by decide
    simp only [Pattern.plan, hrelative, hsegments]
    simp [bind, Except.bind, pure, Except.pure, Segment.isFixed, List.takeWhile, List.dropWhile]
  have hfound : (View.mk .small true).carryOut false "*/../*/x" ⟨⟨Path.ofText "/", Path.ofText "/"⟩,
      false, [.matching [.anyRun], .parent, .matching [.anyRun], .named ⟨[120], by decide⟩]⟩ =
      .ok [Path.ofText "/r/x"] := by cbv
  -- down to `/r`, back up to `/`, and down to `/r` again
  have hdown : (View.mk .small true).turns ⟨[.matching [.anyRun], .parent, .matching [.anyRun],
        .named ⟨[120], by decide⟩], Path.ofText "/", [[]]⟩ =
      [.onward ⟨[.parent, .matching [.anyRun], .named ⟨[120], by decide⟩], Path.ofText "/r",
        [[⟨[114], by decide⟩], []]⟩] := by cbv
  have hup : (View.mk .small true).turns ⟨[.parent, .matching [.anyRun],
        .named ⟨[120], by decide⟩], Path.ofText "/r", [[⟨[114], by decide⟩], []]⟩ =
      [.onward ⟨[.matching [.anyRun], .named ⟨[120], by decide⟩], Path.ofText "/", [[]]⟩] := by cbv
  have hagain : (View.mk .small true).turns ⟨[.matching [.anyRun], .named ⟨[120], by decide⟩],
        Path.ofText "/", [[]]⟩ =
      [.onward ⟨[.named ⟨[120], by decide⟩], Path.ofText "/r",
        [[⟨[114], by decide⟩], []]⟩] := by cbv
  have hfind : (View.mk .small true).turns ⟨[.named ⟨[120], by decide⟩], Path.ofText "/r",
      [[⟨[114], by decide⟩], []]⟩ = [.find (Path.ofText "/r/x")] := by cbv
  have hexpand : (View.mk .small true).expand (some (Path.ofText "/")) false "*/../*/x" =
      .ok ⟨"*/../*/x", false, [Path.ofText "/r/x"]⟩ :=
    (expand_eq_ok_iff hplan).mpr ⟨_, hfound, rfl⟩
  have hbase : Workspace.small.lookup false (Path.ofText "/") = .ok ([], .directory) := by cbv
  have hbranch : (View.mk .small true).firstBranch (Path.ofText "/") [] = [[]] := by cbv
  have hexplores : (View.mk .small true).Explores ⟨⟨Path.ofText "/", Path.ofText "/"⟩, false,
      [.matching [.anyRun], .parent, .matching [.anyRun], .named ⟨[120], by decide⟩]⟩
      ([_, _] ++ _ :: [_]) (Path.ofText "/r/x") :=
    ⟨[], _, hbase, List.not_mem_nil, by rw [hbranch]; rfl,
      .onward (hdown ▸ List.mem_cons_self) (.onward (hup ▸ List.mem_cons_self)
        (.onward (hagain ▸ List.mem_cons_self) (.last (hfind ▸ List.mem_cons_self))))⟩
  have hbelow := ((not_entered_again habs hplan hexpand).2 _ _ _ _ hexplores).2.2
  exact ⟨habs, hplan, hexpand, hbelow (by decide) (by decide) 0 (by decide) (by decide)⟩

end View

theorem plan_looped : Pattern.plan "a/**/../*/x" (Path.ofText "/") =
    .ok ⟨⟨Path.ofText "/a", Path.ofText "/"⟩, false,
      [.anyDepth, .parent, .matching [.anyRun], .named ⟨[120], by decide⟩]⟩ := by
  have hsegments : Pattern.segments "a/**/../*/x" = .ok [.named ⟨[97], by decide⟩, .anyDepth,
      .parent, .matching [.anyRun], .named ⟨[120], by decide⟩] := by cbv
  have habs : (Path.ofText "a/**/../*/x").isAbsolute = false := by decide
  simp only [Pattern.plan, habs, hsegments]
  simp [bind, Except.bind, pure, Except.pure, Segment.isFixed, List.takeWhile, List.dropWhile,
    Start.follow]
  decide

/-- Where `**` takes no level, `..` leads out of the base with nothing left on the branch, and the
walk enters `/` again below itself. -/
theorem root_entered_again :
    ∃ plan e stands s loc, (Path.ofText "/").isAbsolute = true ∧
      Pattern.plan "a/**/../*/x" (Path.ofText "/") = .ok plan ∧
      (View.mk .looped true).expand (some (Path.ofText "/")) false "a/**/../*/x" = .ok e ∧
      Path.ofText "/l/x" ∈ e.found ∧
      (View.mk .looped true).Explores plan stands (Path.ofText "/l/x") ∧ s ∈ stands ∧
      s.dir.components <+: ((Path.ofText "/l/x").ancestor 1).components ∧
      ((Path.ofText "/l/x").ancestor 1).components ≠ s.dir.components ∧
      Workspace.looped.locate false s.dir = .ok loc ∧
      Workspace.looped.locate false ((Path.ofText "/l/x").ancestor 1) = .ok loc := by
  have hfound : (View.mk .looped true).carryOut false "a/**/../*/x" ⟨⟨Path.ofText "/a",
      Path.ofText "/"⟩, false, [.anyDepth, .parent, .matching [.anyRun],
      .named ⟨[120], by decide⟩]⟩ = .ok [Path.ofText "/l/x"] := by cbv
  have hexpand : (View.mk .looped true).expand (some (Path.ofText "/")) false "a/**/../*/x" =
      .ok ⟨"a/**/../*/x", false, [Path.ofText "/l/x"]⟩ :=
    (View.expand_eq_ok_iff plan_looped).mpr ⟨_, hfound, rfl⟩
  have hbase : Workspace.looped.lookup false (Path.ofText "/a") =
      .ok ([⟨[97], by decide⟩], .directory) := by cbv
  have hbranch : (View.mk .looped true).firstBranch (Path.ofText "/a") [⟨[97], by decide⟩] =
      [[⟨[97], by decide⟩]] := by cbv
  have hskip : (View.mk .looped true).turns ⟨[.anyDepth, .parent, .matching [.anyRun],
        .named ⟨[120], by decide⟩], Path.ofText "/a", [[⟨[97], by decide⟩]]⟩ =
      [.onward ⟨[.parent, .matching [.anyRun], .named ⟨[120], by decide⟩], Path.ofText "/a",
        [[⟨[97], by decide⟩]]⟩] := by cbv
  have hup : (View.mk .looped true).turns ⟨[.parent, .matching [.anyRun],
        .named ⟨[120], by decide⟩], Path.ofText "/a", [[⟨[97], by decide⟩]]⟩ =
      [.onward ⟨[.matching [.anyRun], .named ⟨[120], by decide⟩], Path.ofText "/", []⟩] := by cbv
  have hdown : (View.mk .looped true).turns ⟨[.matching [.anyRun], .named ⟨[120], by decide⟩],
        Path.ofText "/", []⟩ =
      [.onward ⟨[.named ⟨[120], by decide⟩], Path.ofText "/a", [[⟨[97], by decide⟩]]⟩,
        .onward ⟨[.named ⟨[120], by decide⟩], Path.ofText "/l", [[]]⟩] := by cbv
  have hfind : (View.mk .looped true).turns ⟨[.named ⟨[120], by decide⟩], Path.ofText "/l", [[]]⟩ =
      [.find (Path.ofText "/l/x")] := by cbv
  have hexplores : (View.mk .looped true).Explores ⟨⟨Path.ofText "/a", Path.ofText "/"⟩, false,
      [.anyDepth, .parent, .matching [.anyRun], .named ⟨[120], by decide⟩]⟩ [_, _, _, _]
      (Path.ofText "/l/x") :=
    ⟨_, _, hbase, List.not_mem_nil, by rw [hbranch],
      .onward (hskip ▸ List.mem_cons_self) (.onward (hup ▸ List.mem_cons_self)
        (.onward (hdown ▸ List.mem_cons_of_mem _ List.mem_cons_self)
          (.last (hfind ▸ List.mem_cons_self))))⟩
  refine ⟨_, _, _, _, [], by decide, plan_looped, hexpand, List.mem_cons_self, hexplores,
    List.mem_cons_of_mem _ (List.mem_cons_of_mem _ List.mem_cons_self), ?_, ?_, ?_, ?_⟩
  · decide
  · decide
  · cbv
  · cbv

end ArtifactHarvest

