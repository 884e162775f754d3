import ArtifactHarvest.Proofs.Expansion.Naming
import ArtifactHarvest.Proofs.Expansion.Ordering
import ArtifactHarvest.Proofs.Expansion.Respelling
import ArtifactHarvest.Proofs.Expansion.Wildcards
import ArtifactHarvest.Proofs.Path.Repeats
import ArtifactHarvest.Proofs.Pattern.Downward

/-!
How `**` may be written. A second `**` behind the first finds nothing but repeats
(`View.mem_of_mem_doubled`), and in last position `**` is the same as `**` in front of `*`
(`View.matchesBelow_spelledOut`). Segments that are walked alike are so behind any others
(`Segment.Alike.behind`), and patterns with such segments expand alike
(`View.expand_of_alike`). Main statement: `View.expand_of_sameDepth`.
-/

namespace ArtifactHarvest

namespace View

variable {v : View} {rest : List Segment} {dir : Path} {branch : List Location}

theorem mem_matchesBelow_of_inside {n : Name} {p : Path} (hn : n ∈ v.workspace.entries dir)
    (h : p ∈ v.inside (.anyDepth :: rest) (dir.child n) branch) :
    p ∈ v.matchesBelow (.anyDepth :: rest) dir branch := by
  by_cases hrest : rest = []
  · subst hrest
    rw [matchesBelow_anyDepth_last]
    exact List.mem_append_right _ (List.mem_flatMap.mpr ⟨n, hn, h⟩)
  · rw [matchesBelow_anyDepth hrest]
    exact List.mem_append_right _ (List.mem_flatMap.mpr ⟨n, hn, h⟩)

/-- A second `**` finds nothing new. -/
theorem mem_of_mem_doubled {p : Path}
    (h : p ∈ v.matchesBelow (.anyDepth :: .anyDepth :: rest) dir branch) :
    p ∈ v.matchesBelow (.anyDepth :: rest) dir branch := by
  generalize hsegments : Segment.anyDepth :: .anyDepth :: rest = segments at h
  induction segments, dir, branch using walk_induction (v := v) with
  | nil | parent => cases hsegments
  | anyDepth more dir branch _ ihBelow =>
      obtain rfl : .anyDepth :: rest = more := (List.cons.inj hsegments).2
      rw [matchesBelow_anyDepth (List.cons_ne_nil _ _), List.mem_append, List.mem_flatMap] at h
      rcases h with hhere | ⟨n, hn, hbelow⟩
      · exact hhere
      · obtain ⟨loc, inner, hkind, henter, hmem⟩ := mem_inside.mp hbelow
        apply mem_matchesBelow_of_inside hn
        have hfound := ihBelow n hn loc inner hkind henter rfl hmem
        exact mem_inside.mpr ⟨loc, inner, hkind, henter, hfound⟩
  | single segment more dir branch hone =>
      rw [← (List.cons.inj hsegments).1] at hone
      cases hone

theorem accepts_star (n : Name) : Glob.accepts [.anyRun] n.text = true :=
  (Glob.accepts_iff _ _).mpr (Glob.matches_run_iff.mpr
    ⟨_, [], (List.append_nil _).symm, n.slash_notMem_text, .done⟩)

/-- In last position `**` looks at all entries, as `*` does. -/
theorem matchesBelow_spelledOut :
    v.matchesBelow [.anyDepth, .matching [.anyRun]] dir branch =
      v.matchesBelow [.anyDepth] dir branch := by
  generalize hsegments : [Segment.anyDepth] = segments
  induction segments, dir, branch using walk_induction (v := v) with
  | nil | parent => cases hsegments
  | anyDepth more dir branch _ ihBelow =>
      obtain rfl : [] = more := (List.cons.inj hsegments).2
      have hall : v.candidates dir (.matching [.anyRun]) = v.workspace.entries dir :=
        List.filter_eq_self.mpr fun n _ => accepts_star n
      rw [matchesBelow_anyDepth (List.cons_ne_nil _ _), matchesBelow_single_last rfl, hall,
        matchesBelow_anyDepth_last]
      congr 1
      apply List.flatMap_congr
      intro n hn
      exact inside_congr fun loc inner hkind henter => ihBelow n hn loc inner hkind henter rfl
  | single segment more dir branch hone =>
      rw [← (List.cons.inj hsegments).1] at hone
      cases hone

theorem inside_alike {segments segments' : List Segment} {p : Path}
    (h : ∀ loc inner, v.classify p = .directory loc → v.enter? branch p loc = some inner →
      Path.Alike (v.matchesBelow segments p inner) (v.matchesBelow segments' p inner)) :
    Path.Alike (v.inside segments p branch) (v.inside segments' p branch) :=
  inside_of_same Path.Alike rfl (fun _ => rfl) rfl h

end View

/-! ### Segments that are walked alike -/

/-- Wherever they are walked, the segments find the same files in the same order, but for
repeats. -/
structure Segment.Alike (segments segments' : List Segment) : Prop where
  nil_iff : segments = [] ↔ segments' = []
  walk : ∀ (v : View) (dir : Path) (branch : List Location),
    Path.Alike (v.matchesBelow segments dir branch) (v.matchesBelow segments' dir branch)

namespace Segment.Alike

variable {segments segments' segments'' : List Segment}

theorem refl (segments : List Segment) : Alike segments segments :=
  ⟨Iff.rfl, fun _ _ _ => rfl⟩

theorem trans (h : Alike segments segments') (h' : Alike segments' segments'') :
    Alike segments segments'' :=
  ⟨h.nil_iff.trans h'.nil_iff, fun v dir branch =>
    (h.walk v dir branch).trans (h'.walk v dir branch)⟩

theorem doubled (rest : List Segment) :
    Alike (.anyDepth :: .anyDepth :: rest) (.anyDepth :: rest) := by
  refine ⟨by simp, fun v dir branch => ?_⟩
  rw [View.matchesBelow_anyDepth (List.cons_ne_nil _ _)]
  apply Path.alike_append
  intro p hp
  obtain ⟨n, hn, hinside⟩ := List.mem_flatMap.mp hp
  obtain ⟨loc, inner, hkind, henter, hmem⟩ := View.mem_inside.mp hinside
  have hsingle := View.mem_inside.mpr ⟨loc, inner, hkind, henter, View.mem_of_mem_doubled hmem⟩
  exact List.mem_map_of_mem (View.mem_matchesBelow_of_inside hn hsingle)

/-- A run of `**` is as good as one. -/
theorem merged (count : Nat) (rest : List Segment) :
    Alike (List.replicate (count + 1) .anyDepth ++ rest) (.anyDepth :: rest) := by
  induction count with
  | zero => exact refl _
  | succ count ih =>
      have hfirst := doubled (List.replicate count .anyDepth ++ rest)
      rw [List.replicate_succ, List.cons_append] at ih ⊢
      exact hfirst.trans ih

theorem spelledOut : Alike [.anyDepth] [.anyDepth, .matching [.anyRun]] :=
  ⟨by simp, fun _ _ _ => congrArg Path.distinct View.matchesBelow_spelledOut.symm⟩

/-- Segments that are walked alike are so behind any others. -/
theorem behind (h : Alike segments segments') (front : List Segment) :
    Alike (front ++ segments) (front ++ segments') := by
  by_cases hnil : segments = []
  · rw [hnil, h.nil_iff.mp hnil]
    exact refl _
  have hnil' : segments' ≠ [] := fun hnone => hnil (h.nil_iff.mpr hnone)
  refine ⟨by simp [hnil, hnil'], fun v dir branch => ?_⟩
  induction front, dir, branch using View.walk_induction (v := v) with
  | nil dir branch => exact h.walk v dir branch
  | parent rest dir branch ih =>
      rw [List.cons_append, List.cons_append, View.matchesBelow_parent, View.matchesBelow_parent]
      exact ih
  | anyDepth rest dir branch ihHere ihBelow =>
      rw [List.cons_append, List.cons_append,
        View.matchesBelow_anyDepth (List.append_ne_nil_of_right_ne_nil rest hnil),
        View.matchesBelow_anyDepth (List.append_ne_nil_of_right_ne_nil rest hnil')]
      refine ihHere.append (.flatMap fun n hn => View.inside_alike fun loc inner hkind henter => ?_)
      exact ihBelow n hn loc inner hkind henter
  | single segment rest dir branch hone ih =>
      rw [List.cons_append, List.cons_append,
        View.matchesBelow_single hone (List.append_ne_nil_of_right_ne_nil rest hnil),
        View.matchesBelow_single hone (List.append_ne_nil_of_right_ne_nil rest hnil')]
      refine .flatMap fun n hn => View.inside_alike fun loc inner hkind henter => ?_
      exact ih n hn loc inner hkind henter

end Segment.Alike

/-! ### Patterns that are expanded alike -/

namespace Component

/-- Two ways to write how far down a pattern reaches. -/
inductive SameDepth : List Component → List Component → Prop where
  /-- A run of `**`, and one of them. -/
  | merged {front run back : List Component} {c : Component} :
      run ≠ [] → (∀ d ∈ run, d.isAnyDepth = true) → c.isAnyDepth = true →
        SameDepth (front ++ run ++ back) (front ++ c :: back)
  /-- `**` in last position, and `**` in front of `*`. -/
  | spelledOut {front : List Component} {c : Component} {n : Name} :
      c.isAnyDepth = true → n.text = "*" → SameDepth (front ++ [c]) (front ++ [c, .name n])

theorem segment_of_isAnyDepth {c : Component} (h : c.isAnyDepth = true) :
    Segment.ofComponent c = .ok (some .anyDepth) := by
  cases c with
  | root | here | up => cases h
  | name n => exact Segment.ofComponent_doubleStar (of_decide_eq_true h)

theorem segment_of_star {n : Name} (h : n.text = "*") :
    Segment.ofComponent (.name n) = .ok (some (.matching [.anyRun])) := by
  refine Segment.ofComponent_eq_matching_iff.mpr ⟨.inl ?_, ?_, ?_⟩
  · rw [h]
    decide
  · rw [h]
    decide
  · have hstar : Glob.readChars ['*'] = (Glob.readChars []).map (.anyRun :: ·) :=
      Glob.readChars_star (by simp)
    rw [h]
    refine hstar.trans ?_
    rw [Glob.readChars_nil]
    rfl

end Component

namespace Pattern

/-- Components that stand for segments with the same fixed beginning and rests that are walked
alike, or that are at fault in the same way. -/
structure Alike (cs ds : List Component) : Prop where
  root_iff : .root ∈ cs ↔ .root ∈ ds
  segments : (∃ fault, segmentsOf cs = .error fault ∧ segmentsOf ds = .error fault) ∨
    ∃ all all', segmentsOf cs = .ok all ∧ segmentsOf ds = .ok all' ∧
      all.takeWhile Segment.isFixed = all'.takeWhile Segment.isFixed ∧
      Segment.Alike (all.dropWhile Segment.isFixed) (all'.dropWhile Segment.isFixed)

namespace Alike

variable {cs ds es : List Component}

theorem refl (cs : List Component) : Alike cs cs := by
  refine ⟨Iff.rfl, ?_⟩
  cases hcs : segmentsOf cs with
  | error fault => exact .inl ⟨fault, rfl, rfl⟩
  | ok all => exact .inr ⟨all, all, rfl, rfl, rfl, .refl _⟩

theorem trans (h : Alike cs ds) (h' : Alike ds es) : Alike cs es := by
  refine ⟨h.root_iff.trans h'.root_iff, ?_⟩
  rcases h.segments with ⟨fault, hcs, hds⟩ | ⟨all, all', hcs, hds, hfixed, hloose⟩
  · rcases h'.segments with ⟨_, hds', hes⟩ | ⟨_, _, hds', _⟩
    · obtain rfl := Except.error.inj (hds.symm.trans hds')
      exact .inl ⟨_, hcs, hes⟩
    · cases hds.symm.trans hds'
  · rcases h'.segments with ⟨_, hds', _⟩ | ⟨_, all'', hds', hes, hfixed', hloose'⟩
    · cases hds.symm.trans hds'
    · obtain rfl := Except.ok.inj (hds.symm.trans hds')
      exact .inr ⟨all, all'', hcs, hes, hfixed.trans hfixed', hloose.trans hloose'⟩

end Alike

/-- Where fixed segments lead to. An absolute pattern is its own anchor. -/
def startOf (isAbsolute : Bool) (root : Path) (fixed : List Segment) : Start :=
  let start := begun (if isAbsolute then ⟨[slash]⟩ else root) fixed
  ⟨start.base, if isAbsolute then start.base else start.anchor⟩

/-- A plan depends on the segments of the pattern, and on whether it is absolute. -/
theorem plan_of_segmentsOf {text : String} {all : List Segment}
    (h : segmentsOf (Path.ofText text).components = .ok all) (root : Path) :
    plan text root = .ok ⟨startOf (Path.ofText text).isAbsolute root
      (all.takeWhile Segment.isFixed), (Path.ofText text).isAbsolute,
      all.dropWhile Segment.isFixed⟩ := by
  simp only [plan, segments_eq, h]
  rfl

theorem plan_of_fault {text : String} {fault : GlobFault}
    (h : segmentsOf (Path.ofText text).components = .error fault) (root : Path) :
    plan text root = .error fault := by
  simp only [plan, segments_eq, h]
  rfl

/-- What stands for segments among other components is read without the others. -/
theorem segmentsOf_run {run : List Component} (hrun : ∀ d ∈ run, d.isAnyDepth = true)
    (front back : List Component) :
    segmentsOf (front ++ run ++ back) = (segmentsOf front).bind fun a =>
      (segmentsOf back).map fun b => a ++ (List.replicate run.length .anyDepth ++ b) := by
  have hread : run.mapM Segment.ofComponent = .ok (run.map fun _ => some .anyDepth) := by
    induction run with
    | nil => rfl
    | cons d run ih =>
        rw [List.mapM_cons, Component.segment_of_isAnyDepth (hrun d List.mem_cons_self),
          ih fun e he => hrun e (List.mem_cons_of_mem d he)]
        rfl
  simp only [segmentsOf, List.mapM_append, hread]
  cases front.mapM Segment.ofComponent with
  | error fault => rfl
  | ok a =>
      cases back.mapM Segment.ofComponent with
      | error fault => rfl
      | ok b => simp [bind, Except.bind, pure, Except.pure, Except.map]

/-- Loose segments that are walked alike make patterns alike, whatever stands in front. -/
theorem alike_of_loose {front : List Segment} {first : Segment} {rest rest' : List Segment}
    {cs ds : List Component} (hroot : .root ∈ cs ↔ .root ∈ ds)
    (hcs : segmentsOf cs = .ok (front ++ first :: rest))
    (hds : segmentsOf ds = .ok (front ++ first :: rest')) (hfirst : first.isFixed = false)
    (h : Segment.Alike (first :: rest) (first :: rest')) : Alike cs ds := by
  refine ⟨hroot, .inr ⟨_, _, hcs, hds, ?_, ?_⟩⟩
  · rw [takeWhile_append_cons_of_not hfirst, takeWhile_append_cons_of_not hfirst]
  · rw [dropWhile_append_cons_of_not hfirst, dropWhile_append_cons_of_not hfirst]
    exact h.behind _

theorem alike_of_sameDepth {cs ds : List Component} (h : Component.SameDepth cs ds) :
    Alike cs ds := by
  cases h with
  | @merged front run back c hne hrun hc =>
      have hroots : .root ∈ front ++ run ++ back ↔ .root ∈ front ++ c :: back := by
        have hrunRoot : .root ∉ run := fun hmem => by cases hrun _ hmem
        have hcRoot : .root ≠ c := by
          rintro rfl
          cases hc
        simp [hrunRoot, hcRoot]
      have hcs := segmentsOf_run hrun front back
      have hds := segmentsOf_insert (Component.segment_of_isAnyDepth hc) front back
      cases hfront : segmentsOf front with
      | error fault =>
          rw [hfront] at hcs hds
          exact ⟨hroots, .inl ⟨fault, hcs, hds⟩⟩
      | ok a =>
      cases hback : segmentsOf back with
      | error fault =>
          rw [hfront, hback] at hcs hds
          exact ⟨hroots, .inl ⟨fault, hcs, hds⟩⟩
      | ok b =>
          rw [hfront, hback] at hcs hds
          obtain ⟨count, hcount⟩ := Nat.exists_eq_succ_of_ne_zero (List.length_pos_iff.mpr hne).ne'
          rw [hcount] at hcs
          exact alike_of_loose hroots hcs hds rfl (.merged count b)
  | @spelledOut front c n hc hn =>
      have hroots : .root ∈ front ++ [c] ↔ .root ∈ front ++ [c, .name n] := by simp
      have hcs := segmentsOf_insert (Component.segment_of_isAnyDepth hc) front []
      have hds := segmentsOf_insert (Component.segment_of_isAnyDepth hc) front [.name n]
      have hstar := segmentsOf_insert (Component.segment_of_star hn) [] []
      rw [List.nil_append] at hstar
      rw [hstar] at hds
      cases hfront : segmentsOf front with
      | error fault =>
          rw [hfront] at hcs hds
          exact ⟨hroots, .inl ⟨fault, hcs, hds⟩⟩
      | ok a =>
          rw [hfront] at hcs hds
          exact alike_of_loose hroots hcs hds rfl .spelledOut

end Pattern

namespace View

variable {v : View} {p q : String} {cancelled : Bool}

theorem refusesBase_alike {start : Start} {isAbsolute isAbsolute' : Bool}
    {segments segments' : List Segment} (h : Segment.Alike segments segments') :
    v.refusesBase ⟨start, isAbsolute, segments⟩ =
      v.refusesBase ⟨start, isAbsolute', segments'⟩ := by
  simp only [refusesBase, h.nil_iff]

/-- Alike segments lead on alike from one start. -/
theorem carryOut_alike (p q : String) (start : Start) (isAbsolute : Bool)
    {segments segments' : List Segment} (h : Segment.Alike segments segments') :
    (v.carryOut cancelled q ⟨start, isAbsolute, segments'⟩).map Path.distinct =
      ((v.carryOut cancelled p ⟨start, isAbsolute, segments⟩).map Path.distinct).mapError
        (·.ofPattern q) := by
  unfold carryOut
  rw [refusesBase_alike h]
  cases v.refusesBase ⟨start, isAbsolute, segments'⟩ with
  | true => rfl
  | false =>
      by_cases hnil : segments = []
      · have hnil' := h.nil_iff.mp hnil
        simp [hnil, hnil', Except.map, Except.mapError]
      · have hnil' : segments' ≠ [] := fun hnone => hnil (h.nil_iff.mpr hnone)
        simp only [hnil, hnil', if_false, Bool.false_eq_true]
        cases v.workspace.lookup false start.base with
        | error fault => cases fault <;> rfl
        | ok found =>
            obtain ⟨loc, o⟩ := found
            cases o with
            | directory =>
                cases v.workspace.list start.base with
                | error fault => rfl
                | ok names =>
                    cases cancelled with
                    | true => rfl
                    | false => exact congrArg Except.ok (h.walk v _ _).symm
            | file | unreadable | link | special => rfl

/-- Alike patterns expand alike. -/
theorem expand_of_alike (h : Pattern.Alike (Path.ofText p).components (Path.ofText q).components)
    (v : View) (root : Option Path) (cancelled : Bool) :
    v.expand root cancelled q =
      ((v.expand root cancelled p).map fun e => { e with pattern := q }).mapError
        (·.ofPattern q) := by
  have habs : (Path.ofText q).isAbsolute = (Path.ofText p).isAbsolute := by
    rw [Bool.eq_iff_iff, Path.isAbsolute_iff_root_mem, Path.isAbsolute_iff_root_mem, h.root_iff]
  rcases h.segments with ⟨fault, hp, hq⟩ | ⟨all, all', hp, hq, hfixed, hloose⟩
  · rw [expand, expand, Pattern.plan_of_fault hp, Pattern.plan_of_fault hq]
    rfl
  · rw [expand, expand, Pattern.plan_of_segmentsOf hp, Pattern.plan_of_segmentsOf hq, habs,
      ← hfixed]
    generalize Pattern.startOf (Path.ofText p).isAbsolute (root.getD Path.empty)
      (all.takeWhile Segment.isFixed) = start
    have hcarried : (v.carryOut cancelled q _).map Path.distinct = _ :=
      carryOut_alike p q start (Path.ofText p).isAbsolute hloose
    dsimp only
    generalize v.carryOut cancelled q _ = carried' at hcarried ⊢
    generalize v.carryOut cancelled p _ = carried at hcarried ⊢
    split
    · rfl
    · cases carried <;> cases carried' <;> simp_all [Except.map, Except.mapError]

/-- **How `**` is written does not matter.** A pattern finds the same files in the same order, or
comes to the same fault, when runs of `**` are replaced by one of them, and a last `**` by `**` in
front of `*`. -/
theorem expand_of_sameDepth
    (h : Relation.ReflTransGen Component.SameDepth (Path.ofText p).components
      (Path.ofText q).components) (v : View) (root : Option Path) (cancelled : Bool) :
    v.expand root cancelled q =
      ((v.expand root cancelled p).map fun e => { e with pattern := q }).mapError
        (·.ofPattern q) := by
  have halike : ∀ cs, Relation.ReflTransGen Component.SameDepth (Path.ofText p).components cs →
      Pattern.Alike (Path.ofText p).components cs := by
    intro cs hcs
    induction hcs with
    | refl => exact .refl _
    | tail _ step ih => exact ih.trans (Pattern.alike_of_sameDepth step)
  exact expand_of_alike (halike _ h) v root cancelled

theorem scattered_found_at_any_depth :
    Relation.ReflTransGen Component.SameDepth (Path.ofText "**").components
        (Path.ofText "**/*").components ∧
      (View.mk .scattered true).expand (some (Path.ofText "/")) false "**/*" =
        .ok ⟨"**/*", false, [Path.ofText "/x", Path.ofText "/a/x"]⟩ := by
  have hstep : Component.SameDepth ([] ++ [.name ⟨[42, 42], by decide⟩])
      ([] ++ [.name ⟨[42, 42], by decide⟩, .name ⟨[42], by decide⟩]) :=
    .spelledOut (by decide) (by decide)
  have hp : (Path.ofText "**").components = [.name ⟨[42, 42], by decide⟩] := by cbv
  have hq : (Path.ofText "**/*").components =
      [.name ⟨[42, 42], by decide⟩, .name ⟨[42], by decide⟩] := by cbv
  have hwritten : Relation.ReflTransGen Component.SameDepth (Path.ofText "**").components
      (Path.ofText "**/*").components := by
    rw [hp, hq]
    exact .single hstep
  have hplan : Pattern.plan "**" (Path.ofText "/") =
      .ok ⟨⟨Path.ofText "/", Path.ofText "/"⟩, false, [.anyDepth]⟩ := by cbv
  have hbelow : (View.mk .scattered true).inside [.anyDepth]
      (Path.child (Path.ofText "/") ⟨[97], by decide⟩) [[]] = [Path.ofText "/a/x"] := by
    have hkind : (View.mk .scattered true).classify (Path.child (Path.ofText "/")
        ⟨[97], by decide⟩) = .directory [⟨[97], by decide⟩] := by cbv
    rw [inside_of_directory hkind (by cbv), matchesBelow_anyDepth_last]
    cbv
  have hentries : Workspace.scattered.entries (Path.ofText "/") =
      [⟨[97], by decide⟩, ⟨[120], by decide⟩] := by cbv
  have hwalk : (View.mk .scattered true).matchesBelow [.anyDepth] (Path.ofText "/") [[]] =
      [Path.ofText "/x", Path.ofText "/a/x"] := by
    rw [matchesBelow_anyDepth_last, hentries, List.flatMap_cons, hbelow]
    cbv
  have hexpand : (View.mk .scattered true).expand (some (Path.ofText "/")) false "**" =
      .ok ⟨"**", false, [Path.ofText "/x", Path.ofText "/a/x"]⟩ := by
    refine (expand_eq_ok_iff hplan).mpr ⟨[Path.ofText "/x", Path.ofText "/a/x"], ?_, by cbv⟩
    have hlook : Workspace.scattered.lookup false (Path.ofText "/") = .ok ([], .directory) := by cbv
    have hbranch : (View.mk .scattered true).firstBranch (Path.ofText "/") [] = [[]] := by cbv
    rw [carryOut_of_directory rfl (List.cons_ne_nil _ _) hlook List.not_mem_nil, hbranch, hwalk]
  refine ⟨hwritten, ?_⟩
  rw [expand_of_sameDepth hwritten, hexpand]
  rfl

end View

end ArtifactHarvest
