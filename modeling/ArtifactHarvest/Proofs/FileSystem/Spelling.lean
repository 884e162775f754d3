import ArtifactHarvest.Proofs.FileSystem.Resolution

/-!
How a path is spelled matters little to what it leads to. Dots on the way change nothing
(`walk_filter_dot`, `walk_of_filter_dot`), so a look-up depends on the steps of a path alone as long
as the text is not too long (`lookup_iff_hasAt`, `lookup_directory_iff`).
-/

namespace ArtifactHarvest

/-- What is all of one kind ends in it. -/
theorem getLast?_of_filter_eq_nil {α : Type} [DecidableEq α] {x : α} {xs : List α} (hxs : xs ≠ [])
    (h : xs.filter (· ≠ x) = []) : xs.getLast? = some x := by
  have hlast := List.filter_eq_nil_iff.mp h _ (List.getLast_mem hxs)
  rw [List.getLast?_eq_some_getLast hxs]
  simpa using hlast

namespace FileSystem

/-- A way that is walked to its end is walked to the same end without its dots. Only a dot in last
position counts, and only where it keeps a link before it from being the last. -/
theorem walk_filter_dot {fs : FileSystem} {keepLast : Bool} {links : Nat} {loc : Location}
    {runs : List Bytes} {r : Place × Nat} (h : fs.walk keepLast links loc runs = .ok r)
    (hlast : keepLast = true → runs.getLast? ≠ some [dot]) :
    fs.walk keepLast links loc (runs.filter (· ≠ [dot])) = .ok r := by
  induction runs generalizing links loc with
  | nil => exact h
  | cons run more ih =>
      by_cases hmore : more = []
      · subst hmore
        by_cases hrun : run = [dot]
        · subst hrun
          have hkeep : keepLast = false := by
            cases keepLast with
            | false => rfl
            | true => exact absurd rfl (hlast rfl)
          subst hkeep
          rw [walk] at h
          split at h
          · cases h
          · simpa [walk] using h
          · cases h
        · simpa [hrun] using h
      · have hmoreLast : keepLast = true → more.getLast? ≠ some [dot] := fun hk => by
          simpa [List.getLast?_cons_of_ne_nil hmore] using hlast hk
        rw [walk_cons fs keepLast links loc run hmore] at h
        split at h
        · rename_i dir left hfirst
          have hrest := ih h hmoreLast
          by_cases hrun : run = [dot]
          · subst hrun
            obtain ⟨rfl, rfl, _⟩ := walk_dot hfirst
            simpa using hrest
          · rw [List.filter_cons_of_pos (by simpa using hrun)]
            by_cases hdots : more.filter (· ≠ [dot]) = []
            · rw [hdots] at hrest ⊢
              have hkeep : keepLast = false := by
                cases keepLast with
                | false => rfl
                | true =>
                    exact absurd (getLast?_of_filter_eq_nil hmore hdots) (hmoreLast rfl)
              subst hkeep
              simpa [walk, hfirst] using hrest
            · rw [walk_cons fs keepLast links loc run hdots, hfirst]
              exact hrest
        · cases h
        · cases h

theorem directory_of_walk_cons {fs : FileSystem} {keepLast : Bool} {links : Nat} {loc : Location}
    {run : Bytes} {more : List Bytes} {r : Place × Nat}
    (h : fs.walk keepLast links loc (run :: more) = .ok r) :
    fs.objectAt loc = some .directory := by
  rw [walk] at h
  split at h
  · cases h
  · assumption
  · cases h

/-- A way that is walked to its end without its dots is walked to the same end with them. A dot in
last position asks for a directory. -/
theorem walk_of_filter_dot {fs : FileSystem} {keepLast : Bool} {links : Nat} {loc : Location}
    {runs : List Bytes} {r : Place × Nat}
    (h : fs.walk keepLast links loc (runs.filter (· ≠ [dot])) = .ok r)
    (hlast : runs.getLast? = some [dot] → keepLast = false ∧
      ∃ dir left, r = (.object dir, left) ∧ fs.objectAt dir = some .directory) :
    fs.walk keepLast links loc runs = .ok r := by
  induction runs generalizing links loc with
  | nil => exact h
  | cons run more ih =>
      by_cases hmore : more = []
      · subst hmore
        by_cases hrun : run = [dot]
        · subst hrun
          obtain ⟨rfl, dir, left, rfl, hdir⟩ := hlast rfl
          have hhere : fs.walk false links loc [] = .ok (.object dir, left) := by simpa using h
          have hsame : loc = dir := by simp [walk] at hhere; exact hhere.1
          subst hsame
          rw [walk, hdir]
          simpa using hhere
        · simpa [hrun] using h
      · have hlastMore : more.getLast? = some [dot] → keepLast = false ∧
            ∃ dir left, r = (.object dir, left) ∧ fs.objectAt dir = some .directory := fun hm =>
          hlast (by simpa [List.getLast?_cons_of_ne_nil hmore] using hm)
        by_cases hrun : run = [dot]
        · subst hrun
          have hrest := ih (by simpa using h) hlastMore
          obtain ⟨next, rest, rfl⟩ := List.exists_cons_of_ne_nil hmore
          rw [walk, directory_of_walk_cons hrest]
          simpa using hrest
        · rw [List.filter_cons_of_pos (by simpa using hrun)] at h
          rw [walk_cons fs keepLast links loc run hmore]
          by_cases hdots : more.filter (· ≠ [dot]) = []
          · obtain ⟨rfl, dir, left, rfl, hdir⟩ :=
              hlastMore (getLast?_of_filter_eq_nil hmore hdots)
            rw [hdots] at h
            rw [h]
            exact ih (by rw [hdots, walk]) fun _ => ⟨rfl, dir, left, rfl, hdir⟩
          · rw [walk_cons fs keepLast links loc run hdots] at h
            split at h
            · exact ih h hlastMore
            · cases h
            · cases h

end FileSystem

namespace Path

/-- The runs that stand for something are those of the steps. -/
theorem filter_runs_eq_bytes {runs : List Bytes} (h : ∀ run ∈ runs, slash ∉ run) :
    (runs.filter (· ≠ [])).filter (· ≠ [dot]) =
      (runs.filterMap Component.ofRun?).map Component.bytes := by
  induction runs with
  | nil => rfl
  | cons run runs ih =>
      have hrest := ih fun r hr => h r (List.mem_cons_of_mem run hr)
      cases hc : Component.ofRun? run with
      | none =>
          have hidle := (Component.ofRun?_eq_none_iff (h run List.mem_cons_self)).mp hc
          rw [List.filterMap_cons_none hc, ← hrest]
          simp only [isIdle, Bool.or_eq_true, beq_iff_eq] at hidle
          rcases hidle with rfl | rfl <;> simp
      | some c =>
          obtain ⟨hstep, hbytes⟩ := Component.ofRun?_eq_some hc
          have hnil := Component.bytes_ne_nil hstep
          have hdot := Component.bytes_ne_dot hstep
          rw [hbytes] at hnil hdot
          rw [List.filterMap_cons_some hc, List.map_cons, hbytes, ← hrest]
          simp [hnil, hdot]

/-- Without its dots, the way that a text describes is that of the path's steps. -/
theorem filter_runs (p : Path) : p.runs.filter (· ≠ [dot]) = p.steps.map Component.bytes := by
  have hnames := filter_runs_eq_bytes fun run (hrun : run ∈ List.splitOn slash p.bytes) =>
    Text.notMem_of_mem_splitOn hrun
  rw [runs, List.filter_append, names, hnames]
  split <;> simp [steps]

/-- A text that does not end in a slash is looked up run by run, without anything added. -/
theorem runs_of_splitOn {p : Path} {front : List Bytes} {last : Bytes}
    (h : List.splitOn slash p.bytes = front ++ [last]) (hlast : last ≠ []) :
    p.runs = front.filter (· ≠ []) ++ [last] := by
  have hend : p.bytes.getLast? ≠ some slash := by
    intro hslash
    obtain ⟨text, htext⟩ := List.getLast?_eq_some_iff.mp hslash
    rw [htext, List.splitOn_append_cons_self] at h
    have hnone : [[]] = [last] := (List.append_inj' h rfl).2
    exact hlast (List.singleton_inj.mp hnone).symm
  rw [runs, names, h, if_neg hend, List.append_nil, List.filter_append]
  simp [hlast]

theorem runs_push {p : Path} {c : Component} (h : c.isStep = true) :
    (p.push c).runs = p.names ++ [c.bytes] := by
  have hrel := isAbsolute_of_isStep h
  have hruns := List.splitOn_eq_singleton (Component.slash_notMem_bytes h)
  have hne := Component.bytes_ne_nil h
  obtain ⟨front, hfront, hnames⟩ : ∃ front,
      List.splitOn slash (p.push c).bytes = front ++ [c.bytes] ∧
        front.filter (· ≠ []) = p.names := by
    simp only [push, join, hrel, Bool.false_eq_true, if_false]
    split
    · rename_i hp
      rcases hp with hp | hp
      · exact ⟨[], by simp [hp, hruns], by simp [names, hp]⟩
      · obtain ⟨text, htext⟩ := List.getLast?_eq_some_iff.mp hp
        refine ⟨List.splitOn slash text, ?_, ?_⟩
        · simp [htext, List.splitOn_append_cons_self, hruns]
        · simp [names, htext, List.splitOn_append_cons_self]
    · exact ⟨List.splitOn slash p.bytes, by simp [List.splitOn_append_cons_self, hruns], rfl⟩
  rw [runs_of_splitOn hfront hne, hnames]

/-- A path that ends in steps that were pushed does not end in a dot. -/
theorem getLast?_runs_foldl_push {p : Path} {cs : List Component} (hcs : cs ≠ [])
    (h : ∀ c ∈ cs, c.isStep = true) : (cs.foldl push p).runs.getLast? ≠ some [dot] := by
  obtain ⟨front, c, rfl⟩ : ∃ front c, cs = front ++ [c] :=
    ⟨_, _, (List.dropLast_concat_getLast hcs).symm⟩
  have hc := h c (List.mem_append_right front List.mem_cons_self)
  rw [List.foldl_append, List.foldl_cons, List.foldl_nil, runs_push hc, List.getLast?_concat]
  intro hdot
  exact Component.bytes_ne_dot hc (Option.some.inj hdot)

/-- A climb does not leave a path that ends in a dot, unless it ends at the root directory. -/
theorem getLast?_runs_up {p : Path} (habs : p.isAbsolute = true) (h : p.up.steps ≠ []) :
    p.up.runs.getLast? ≠ some [dot] := by
  rcases up_cases habs with ⟨hsame, hnone⟩ | ⟨kept, hup, hbegins, hlast, _⟩
  · rw [hsame] at h
    exact absurd hnone h
  · by_cases hkept : kept = []
    · subst hkept
      rw [hup] at h
      exact absurd steps_slash h
    · obtain ⟨front, last, rfl⟩ : ∃ front last, kept = front ++ [last] :=
        ⟨_, _, (List.dropLast_concat_getLast hkept).symm⟩
      have hbusy : isIdle last = false := hlast last List.getLast?_concat
      have hfree : ∀ run ∈ front ++ [last], slash ∉ run := fun run hrun =>
        Text.notMem_of_mem_splitOn (hbegins.mem hrun)
      have hruns : List.splitOn slash p.up.bytes = [] :: front ++ [last] := by
        rw [hup, List.cons_append, Text.splitOn_cons_self,
          List.splitOn_intercalate slash hfree hkept]
      simp only [isIdle, Bool.or_eq_false_iff, beq_eq_false_iff_ne] at hbusy
      rw [runs_of_splitOn hruns hbusy.1, List.getLast?_concat]
      exact fun hdot => hbusy.2 (Option.some.inj hdot)

theorem mem_bytes_iff {p : Path} {b : UInt8} (hslash : b ≠ slash) (hdot : b ≠ dot) :
    b ∈ p.bytes ↔ ∃ c ∈ p.steps, b ∈ c.bytes := by
  rw [Text.mem_iff_mem_splitOn hslash]
  constructor
  · rintro ⟨run, hrun, hb⟩
    cases hc : Component.ofRun? run with
    | none =>
        have hidle := (Component.ofRun?_eq_none_iff (Text.notMem_of_mem_splitOn hrun)).mp hc
        simp only [isIdle, Bool.or_eq_true, beq_iff_eq] at hidle
        rcases hidle with rfl | rfl
        · cases hb
        · exact absurd (List.mem_singleton.mp hb) hdot
    | some c =>
        refine ⟨c, List.mem_filterMap.mpr ⟨run, hrun, hc⟩, ?_⟩
        rwa [(Component.ofRun?_eq_some hc).2]
  · rintro ⟨c, hc, hb⟩
    obtain ⟨run, hrun, hof⟩ := List.mem_filterMap.mp hc
    exact ⟨run, hrun, (Component.ofRun?_eq_some hof).2 ▸ hb⟩

/-- Whether a path can be looked up depends on its steps and its length. -/
theorem Admissible.of_steps {p q : Path} (hp : p.Admissible) (hsteps : q.steps ⊆ p.steps)
    (hshort : q.bytes.length < pathLengthLimit) : q.Admissible := by
  refine ⟨fun hnul => ?_, hshort⟩
  obtain ⟨c, hc, hb⟩ := (mem_bytes_iff (by decide) (by decide)).mp hnul
  exact hp.noNul ((mem_bytes_iff (by decide) (by decide)).mpr ⟨c, hsteps hc, hb⟩)

theorem Admissible.of_begins {p q : Path} (hp : p.Admissible) (h : q.bytes <+: p.bytes) :
    q.Admissible :=
  ⟨fun hnul => hp.noNul (h.mem hnul), Nat.lt_of_le_of_lt h.length_le hp.short⟩

end Path

namespace Workspace

variable {w : Workspace}

/-- Steps from the root directory lead to this object. -/
def HasAt (w : Workspace) (keepLast : Bool) (steps : List Component) (loc : Location) (o : Object) :
    Prop :=
  (∃ left, w.files.walk keepLast maxLinks [] (steps.map Component.bytes) =
    .ok (.object loc, left)) ∧ w.files.objectAt loc = some o

/-- Steps lead to one place only. -/
theorem HasAt.loc_eq {keepLast : Bool} {steps : List Component} {loc loc' : Location}
    {o o' : Object} (h : w.HasAt keepLast steps loc o) (h' : w.HasAt keepLast steps loc' o') :
    loc = loc' := by
  obtain ⟨⟨left, hwalk⟩, _⟩ := h
  obtain ⟨⟨left', hwalk'⟩, _⟩ := h'
  rw [hwalk] at hwalk'
  cases hwalk'
  rfl

/-- A path that does not end in a dot leads to what its steps lead to. -/
theorem lookup_iff_hasAt {keepLast : Bool} {p : Path} {loc : Location} {o : Object}
    (habs : p.isAbsolute = true) (hp : p.Admissible) (hlast : p.runs.getLast? ≠ some [dot]) :
    w.lookup keepLast p = .ok (loc, o) ↔ w.HasAt keepLast p.steps loc o := by
  rw [lookup_eq_ok_iff habs, HasAt, ← Path.filter_runs]
  constructor
  · rintro ⟨_, ⟨left, hwalk⟩, hobj⟩
    exact ⟨⟨left, FileSystem.walk_filter_dot hwalk fun _ => hlast⟩, hobj⟩
  · rintro ⟨⟨left, hwalk⟩, hobj⟩
    exact ⟨hp, ⟨left, FileSystem.walk_of_filter_dot hwalk fun hdot => absurd hdot hlast⟩, hobj⟩

theorem hasAt_of_lookup {p : Path} {loc : Location} {o : Object} (habs : p.isAbsolute = true)
    (h : w.lookup false p = .ok (loc, o)) : w.HasAt false p.steps loc o := by
  obtain ⟨_, ⟨left, hwalk⟩, hobj⟩ := (lookup_eq_ok_iff habs).mp h
  rw [HasAt, ← Path.filter_runs]
  exact ⟨⟨left, FileSystem.walk_filter_dot hwalk nofun⟩, hobj⟩

/-- A path leads to a directory where its steps do, however it ends. -/
theorem lookup_directory_iff {p : Path} {loc : Location} (habs : p.isAbsolute = true)
    (hp : p.Admissible) :
    w.lookup false p = .ok (loc, .directory) ↔ w.HasAt false p.steps loc .directory := by
  constructor
  · exact hasAt_of_lookup habs
  · rintro ⟨⟨left, hwalk⟩, hobj⟩
    rw [← Path.filter_runs] at hwalk
    exact (lookup_eq_ok_iff habs).mpr ⟨hp, ⟨left, FileSystem.walk_of_filter_dot hwalk fun _ =>
      ⟨rfl, loc, left, rfl, hobj⟩⟩, hobj⟩

/-- An entry of a directory does not end in a dot, so it leads to what its steps lead to. -/
theorem lookup_child_iff {keepLast : Bool} {dir : Path} {n : Name} {loc : Location} {o : Object}
    (habs : dir.isAbsolute = true) (hchild : (dir.child n).Admissible) :
    w.lookup keepLast (dir.child n) = .ok (loc, o) ↔
      w.HasAt keepLast (dir.child n).steps loc o :=
  lookup_iff_hasAt (Path.isAbsolute_child n habs) hchild
    (Path.getLast?_runs_foldl_push (p := dir) (List.cons_ne_nil (Component.name n) [])
      (by simp [Component.isStep]))

/-- An ancestor of a path that can be looked up leads to what its steps lead to. -/
theorem lookup_ancestor_iff {keepLast : Bool} {p : Path} {k : Nat} {loc : Location} {o : Object}
    (habs : p.isAbsolute = true) (hp : p.Admissible) (hsome : (p.ancestor (k + 1)).steps ≠ []) :
    w.lookup keepLast (p.ancestor (k + 1)) = .ok (loc, o) ↔
      w.HasAt keepLast (p.ancestor (k + 1)).steps loc o :=
  lookup_iff_hasAt (Path.steps_ancestor habs (k + 1)).1
    (hp.of_begins (Path.prefix_bytes_ancestor habs _))
    (Path.getLast?_runs_up (Path.steps_ancestor habs k).1 hsome)

/-- Steps that lead on lead to a directory. -/
theorem HasAt.directory {keepLast : Bool} {front back : List Component} {loc : Location}
    {o : Object} (h : w.HasAt keepLast (front ++ back) loc o) (hback : back ≠ []) :
    ∃ dir, w.HasAt false front dir .directory := by
  obtain ⟨⟨left, hwalk⟩, _⟩ := h
  obtain ⟨c, rest, rfl⟩ := List.exists_cons_of_ne_nil hback
  rw [List.map_append, List.map_cons, FileSystem.walk_append] at hwalk
  split at hwalk
  · rename_i dir between hfront
    exact ⟨dir, ⟨between, hfront⟩, FileSystem.directory_of_walk_cons hwalk⟩
  · cases hwalk
  · cases hwalk

/-- What leads to a directory names one, or a link. -/
theorem HasAt.named {steps : List Component} {loc : Location}
    (h : w.HasAt false steps loc .directory) :
    w.HasAt true steps loc .directory ∨
      ∃ outer target, w.HasAt true steps outer (.link target) := by
  obtain ⟨⟨left, hwalk⟩, hobj⟩ := h
  rcases w.files.walk_true_cases maxLinks [] (steps.map Component.bytes) with
    hsame | ⟨outer, between, target, hlink, hobj'⟩
  · exact .inl ⟨⟨left, hsame.trans hwalk⟩, hobj⟩
  · exact .inr ⟨outer, target, ⟨between, hlink⟩, hobj'⟩

end Workspace

end ArtifactHarvest
