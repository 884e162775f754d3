import ArtifactHarvest.FileSystem.Descent
import ArtifactHarvest.Path.Lexical

/-!
The steps of a path are its components without the leading slash or dot. Joining writes steps one
after another (`steps_join`), climbing takes the last one back (`steps_up`), and a path rebuilt from
its components has those steps again (`steps_ofComponents`), however the text was written.
-/

namespace ArtifactHarvest

namespace Text

/-- Runs that begin a sequence are written at its beginning. -/
theorem prefix_intercalate {α : Type} {sep : α} {runs more : List (List α)}
    (h : runs <+: more) :
    List.intercalate [sep] runs <+: List.intercalate [sep] more := by
  induction runs generalizing more with
  | nil => exact List.nil_prefix
  | cons run runs ih =>
      obtain ⟨rest, rfl, hrest⟩ := List.cons_prefix_iff.mp h
      cases runs with
      | nil =>
          rw [List.intercalate_singleton]
          cases rest with
          | nil => simp
          | cons next rest =>
              rw [List.intercalate_cons_cons, List.append_assoc]
              exact List.prefix_append run _
      | cons next runs =>
          obtain ⟨rest', rfl, _⟩ := List.cons_prefix_iff.mp hrest
          rw [List.intercalate_cons_cons, List.intercalate_cons_cons,
            List.prefix_append_right_inj]
          exact ih hrest

variable {α : Type} [DecidableEq α] {sep : α}

theorem splitOn_cons_self (xs : List α) :
    List.splitOn sep (sep :: xs) = [] :: List.splitOn sep xs := by
  simp [List.splitOn_cons_eq_if_modifyHead]

theorem splitOn_cons_of_ne {x : α} (hx : x ≠ sep) (xs : List α) :
    List.splitOn sep (x :: xs) = (List.splitOn sep xs).modifyHead (List.cons x) := by
  simp [List.splitOn_cons_eq_if_modifyHead, hx]

theorem notMem_of_mem_splitOn {xs run : List α} (h : run ∈ List.splitOn sep xs) : sep ∉ run := by
  induction xs generalizing run with
  | nil => simp_all
  | cons x xs ih =>
      by_cases hx : x = sep
      · subst hx
        rw [splitOn_cons_self, List.mem_cons] at h
        rcases h with rfl | h
        · exact List.not_mem_nil
        · exact ih h
      · obtain ⟨first, more, hruns⟩ := List.exists_cons_of_ne_nil (List.splitOn_ne_nil sep xs)
        rw [splitOn_cons_of_ne hx, hruns, List.modifyHead_cons] at h
        rw [hruns] at ih
        rcases List.mem_cons.mp h with rfl | h
        · have hfirst := ih List.mem_cons_self
          simp [Ne.symm hx, hfirst]
        · exact ih (List.mem_cons_of_mem _ h)

theorem mem_iff_mem_splitOn {x : α} {xs : List α} (hx : x ≠ sep) :
    x ∈ xs ↔ ∃ run ∈ List.splitOn sep xs, x ∈ run := by
  induction xs with
  | nil => simp
  | cons y xs ih =>
      by_cases hy : y = sep
      · subst hy
        simp [splitOn_cons_self, hx, ih]
      · obtain ⟨run, runs, hruns⟩ := List.exists_cons_of_ne_nil (List.splitOn_ne_nil sep xs)
        rw [List.mem_cons, ih, splitOn_cons_of_ne hy, hruns]
        simp [or_assoc]

/-- What follows a separator has no part in the first run. -/
theorem head?_splitOn_append (xs ys : List α) :
    (List.splitOn sep (xs ++ sep :: ys)).head? = (List.splitOn sep xs).head? := by
  obtain ⟨run, runs, hruns⟩ := List.exists_cons_of_ne_nil (List.splitOn_ne_nil sep xs)
  rw [List.splitOn_append_cons_self, hruns, List.cons_append, List.head?_cons, List.head?_cons]

end Text

namespace Component

/-- Whether the component moves from one directory to another. -/
def isStep : Component → Bool
  | .up | .name _ => true
  | .root | .here => false

theorem ofRun?_bytes {c : Component} (h : c.isStep = true) : ofRun? c.bytes = some c := by
  cases c with
  | root | here => cases h
  | up => rfl
  | name n => simp [ofRun?, bytes, n.proper.2.2.2, Name.ofBytes?_bytes]

theorem ofRun?_eq_some {run : Bytes} {c : Component} (h : ofRun? run = some c) :
    c.isStep = true ∧ c.bytes = run := by
  simp only [ofRun?] at h
  split at h
  · rename_i hrun
    cases h
    exact ⟨rfl, hrun.symm⟩
  · simp only [Name.ofBytes?] at h
    split at h
    · cases h
      exact ⟨rfl, rfl⟩
    · cases h

/-- The runs that stand for nothing are the empty one and `.`. -/
theorem ofRun?_eq_none_iff {run : Bytes} (h : slash ∉ run) :
    ofRun? run = none ↔ Path.isIdle run = true := by
  by_cases hup : run = [dot, dot]
  · simp [ofRun?, Path.isIdle, hup]
  · have hproper : (run = [] ∨ run = [dot]) ∨ run ≠ [] ∧ run ≠ [dot] := by
      by_cases he : run = [] <;> by_cases hd : run = [dot] <;> simp [he, hd]
    simp only [ofRun?, hup, if_false, Name.ofBytes?, Option.map_eq_none_iff, Path.isIdle,
      Bool.or_eq_true, beq_iff_eq]
    rcases hproper with hidle | ⟨he, hd⟩
    · rcases hidle with rfl | rfl <;> simp
    · simp [h, he, hd, hup]

theorem slash_notMem_bytes {c : Component} (h : c.isStep = true) : slash ∉ c.bytes := by
  cases c with
  | root | here => cases h
  | up => decide
  | name n => exact n.proper.2.1

theorem bytes_ne_nil {c : Component} (h : c.isStep = true) : c.bytes ≠ [] := by
  cases c with
  | root | here => cases h
  | up => decide
  | name n => exact n.proper.1

theorem bytes_ne_dot {c : Component} (h : c.isStep = true) : c.bytes ≠ [dot] := by
  cases c with
  | root | here => cases h
  | up => decide
  | name n => exact n.proper.2.2.1

end Component

namespace Path

/-- The components that move from one directory to another. -/
def steps (p : Path) : List Component :=
  (List.splitOn slash p.bytes).filterMap Component.ofRun?

theorem components_eq (p : Path) : p.components = p.lead ++ p.steps := rfl

theorem components_of_isAbsolute {p : Path} (h : p.isAbsolute = true) :
    p.components = .root :: p.steps := by
  simp [components_eq, lead, h]

theorem isStep_of_mem_steps {p : Path} {c : Component} (h : c ∈ p.steps) : c.isStep = true := by
  obtain ⟨run, _, hrun⟩ := List.mem_filterMap.mp h
  exact (Component.ofRun?_eq_some hrun).1

theorem root_notMem_steps (p : Path) : Component.root ∉ p.steps := by
  intro h
  cases isStep_of_mem_steps h

theorem isAbsolute_iff_root_mem {p : Path} :
    p.isAbsolute = true ↔ Component.root ∈ p.components := by
  rw [components_eq, List.mem_append, or_iff_left p.root_notMem_steps, lead]
  split
  · simp [*]
  · split <;> simp [*]

theorem isAbsolute_iff {p : Path} : p.isAbsolute = true ↔ ∃ rest, p.bytes = slash :: rest := by
  cases h : p.bytes with
  | nil => simp [isAbsolute, h]
  | cons b rest => simp [isAbsolute, h]

theorem ne_nil_of_isAbsolute {p : Path} (h : p.isAbsolute = true) : p.bytes ≠ [] := by
  obtain ⟨rest, hrest⟩ := isAbsolute_iff.mp h
  simp [hrest]

theorem isAbsolute_of_isStep {c : Component} (h : c.isStep = true) :
    isAbsolute ⟨c.bytes⟩ = false := by
  cases habs : isAbsolute ⟨c.bytes⟩ with
  | false => rfl
  | true =>
      obtain ⟨rest, hrest : c.bytes = slash :: rest⟩ := isAbsolute_iff.mp habs
      have hslash : slash ∈ c.bytes := hrest ▸ List.mem_cons_self
      exact absurd hslash (Component.slash_notMem_bytes h)

theorem steps_of_isStep {c : Component} (h : c.isStep = true) : steps ⟨c.bytes⟩ = [c] := by
  simp [steps, List.splitOn_eq_singleton (Component.slash_notMem_bytes h), Component.ofRun?_bytes h]

theorem eq_of_bytes {p q : Path} (h : p.bytes = q.bytes) : p = q := by
  cases p
  cases q
  exact congrArg mk h

theorem steps_slash : steps ⟨[slash]⟩ = [] := rfl

theorem components_empty : empty.components = [] := rfl

/-- Two texts that begin alike, with a slash or with the same first run, have the same lead. -/
theorem lead_congr {p q : Path} (habs : p.isAbsolute = q.isAbsolute)
    (hfirst : (List.splitOn slash p.bytes).head? = (List.splitOn slash q.bytes).head?) :
    p.lead = q.lead := by
  simp only [lead, habs, hfirst]

theorem components_of_isStep {c : Component} (h : c.isStep = true) :
    components ⟨c.bytes⟩ = [c] := by
  have hlead : lead ⟨c.bytes⟩ = [] := by
    simp [lead, isAbsolute_of_isStep h,
      List.splitOn_eq_singleton (Component.slash_notMem_bytes h), Component.bytes_ne_dot h]
  rw [components_eq, hlead, steps_of_isStep h, List.nil_append]

/-! ### Joining -/

theorem isAbsolute_join {p other : Path} (h : p.isAbsolute = true) :
    (p.join other).isAbsolute = true := by
  obtain ⟨rest, hrest⟩ := isAbsolute_iff.mp h
  simp only [join]
  split
  · assumption
  · split <;> simp [isAbsolute, hrest]

theorem steps_join {p other : Path} (h : other.isAbsolute = false) :
    (p.join other).steps = p.steps ++ other.steps := by
  simp only [join, h, Bool.false_eq_true, if_false]
  split
  · rename_i hp
    rcases hp with hp | hp
    · simp [steps, hp, Component.ofRun?, Name.ofBytes?]
    · obtain ⟨front, hfront⟩ := List.getLast?_eq_some_iff.mp hp
      simp only [steps, hfront, List.append_assoc, List.singleton_append,
        List.splitOn_append_cons_self, List.filterMap_append]
      simp [Component.ofRun?, Name.ofBytes?]
  · simp [steps, List.splitOn_append_cons_self]

/-- Something written behind a text leaves its beginning. -/
theorem lead_join {p other : Path} (hp : p.bytes ≠ []) (h : other.isAbsolute = false) :
    (p.join other).lead = p.lead := by
  obtain ⟨b, text, htext⟩ := List.exists_cons_of_ne_nil hp
  simp only [join, h, Bool.false_eq_true, if_false, hp, false_or]
  split
  · rename_i hlast
    obtain ⟨front, hfront⟩ := List.getLast?_eq_some_iff.mp hlast
    refine lead_congr (by simp [isAbsolute, htext]) ?_
    rw [hfront, List.append_assoc, List.singleton_append, Text.head?_splitOn_append,
      Text.head?_splitOn_append]
  · exact lead_congr (by simp [isAbsolute, htext]) (Text.head?_splitOn_append p.bytes _)

theorem components_join {p other : Path} (hp : p.bytes ≠ []) (h : other.isAbsolute = false) :
    (p.join other).components = p.components ++ other.steps := by
  rw [components_eq, lead_join hp h, steps_join h, components_eq, List.append_assoc]

theorem join_of_bytes_nil {p : Path} (hp : p.bytes = []) (other : Path) : p.join other = other := by
  unfold join
  split
  · rfl
  · rw [if_pos (.inl hp), hp, List.nil_append]

theorem isAbsolute_push {p : Path} {c : Component} (h : p.isAbsolute = true) :
    (p.push c).isAbsolute = true :=
  isAbsolute_join h

theorem steps_push {p : Path} {c : Component} (h : c.isStep = true) :
    (p.push c).steps = p.steps ++ [c] := by
  rw [push, steps_join (isAbsolute_of_isStep h), steps_of_isStep h]

theorem components_push {c : Component} (h : c.isStep = true) (p : Path) :
    (p.push c).components = p.components ++ [c] := by
  by_cases hp : p.bytes = []
  · have hempty : p = empty := eq_of_bytes hp
    rw [push, join_of_bytes_nil hp, components_of_isStep h, hempty, components_empty,
      List.nil_append]
  · rw [push, components_join hp (isAbsolute_of_isStep h), steps_of_isStep h]

theorem isAbsolute_child {p : Path} (n : Name) (h : p.isAbsolute = true) :
    (p.child n).isAbsolute = true :=
  isAbsolute_join h

@[simp] theorem steps_child (p : Path) (n : Name) : (p.child n).steps = p.steps ++ [.name n] :=
  steps_push (c := .name n) rfl

theorem components_child (p : Path) (n : Name) :
    (p.child n).components = p.components ++ [.name n] :=
  components_push (c := .name n) rfl p

theorem prefix_steps_child (p : Path) (n : Name) : p.steps <+: (p.child n).steps := by
  rw [steps_child]
  exact List.prefix_append _ _

theorem not_steps_child_prefix (p : Path) (n : Name) : ¬ (p.child n).steps <+: p.steps := by
  intro h
  have hlength := h.length_le
  rw [steps_child, List.length_append, List.length_singleton] at hlength
  omega

theorem isAbsolute_foldl_push {p : Path} (cs : List Component) (h : p.isAbsolute = true) :
    (cs.foldl push p).isAbsolute = true := by
  induction cs generalizing p with
  | nil => exact h
  | cons c cs ih => exact ih (isAbsolute_push h)

theorem steps_foldl_push {p : Path} {cs : List Component} (h : ∀ c ∈ cs, c.isStep = true) :
    (cs.foldl push p).steps = p.steps ++ cs := by
  induction cs generalizing p with
  | nil => simp
  | cons c cs ih =>
      have hcs := fun d hd => h d (List.mem_cons_of_mem c hd)
      rw [List.foldl_cons, ih hcs, steps_push (h c List.mem_cons_self), List.append_assoc,
        List.singleton_append]

/-- The path that a sequence of names leads to. -/
def descend (p : Path) (names : List Name) : Path :=
  names.foldl child p

@[simp] theorem descend_nil (p : Path) : p.descend [] = p := rfl

@[simp] theorem descend_cons (p : Path) (n : Name) (names : List Name) :
    p.descend (n :: names) = (p.child n).descend names := rfl

theorem descend_append (p : Path) (front back : List Name) :
    p.descend (front ++ back) = (p.descend front).descend back :=
  List.foldl_append

theorem isAbsolute_descend {p : Path} (names : List Name) (h : p.isAbsolute = true) :
    (p.descend names).isAbsolute = true := by
  induction names generalizing p with
  | nil => exact h
  | cons n names ih => exact ih (isAbsolute_child n h)

@[simp] theorem steps_descend (p : Path) (names : List Name) :
    (p.descend names).steps = p.steps ++ names.map .name := by
  induction names generalizing p with
  | nil => simp
  | cons n names ih => simp [ih]

theorem components_descend (p : Path) (names : List Name) :
    (p.descend names).components = p.components ++ names.map .name := by
  induction names generalizing p with
  | nil => simp
  | cons n names ih => simp [ih, components_child]

/-- The names that were gone down can be read off the components. -/
theorem names_eq_of_components_eq {p : Path} {front back : List Name} (habs : p.isAbsolute = true)
    (h : (p.descend front).components = (p.descend back).components) : front = back := by
  rw [components_of_isAbsolute (isAbsolute_descend front habs),
    components_of_isAbsolute (isAbsolute_descend back habs), List.cons_inj_right, steps_descend,
    steps_descend, List.append_cancel_left_eq] at h
  exact (List.map_inj_right fun a b hab => Component.name.inj hab).mp h

theorem isStep_of_mem_names (names : List Name) :
    ∀ c ∈ names.map Component.name, c.isStep = true := by
  intro c hc
  obtain ⟨n, _, rfl⟩ := List.mem_map.mp hc
  rfl

theorem foldl_push_names (p : Path) (names : List Name) :
    (names.map Component.name).foldl push p = p.descend names := by
  induction names generalizing p with
  | nil => rfl
  | cons n names ih => exact ih (p.child n)

/-! ### Climbing -/

theorem filterMap_dropWhile_isIdle {runs : List Bytes} (h : ∀ run ∈ runs, slash ∉ run) :
    (runs.dropWhile isIdle).filterMap Component.ofRun? = runs.filterMap Component.ofRun? := by
  induction runs with
  | nil => rfl
  | cons run runs ih =>
      have hruns := fun r hr => h r (List.mem_cons_of_mem run hr)
      by_cases hidle : isIdle run = true
      · have hnone := (Component.ofRun?_eq_none_iff (h run List.mem_cons_self)).mpr hidle
        rw [List.dropWhile_cons_of_pos hidle, List.filterMap_cons_none hnone, ih hruns]
      · rw [List.dropWhile_cons_of_neg hidle]

theorem isAbsolute_up {p : Path} (h : p.isAbsolute = true) : p.up.isAbsolute = true := by
  simp only [up, parent?, lead, h, if_true]
  split <;> simp_all [isAbsolute, Component.bytes]

theorem steps_of_isAbsolute {p : Path} (h : p.isAbsolute = true) :
    p.steps = (List.splitOn slash (p.bytes.drop 1)).filterMap Component.ofRun? := by
  obtain ⟨text, htext⟩ := isAbsolute_iff.mp h
  simp [steps, htext, Text.splitOn_cons_self, Component.ofRun?, Name.ofBytes?]

theorem steps_slash_intercalate {runs : List Bytes} (h : ∀ run ∈ runs, slash ∉ run) :
    steps ⟨slash :: List.intercalate [slash] runs⟩ = runs.filterMap Component.ofRun? := by
  by_cases hnil : runs = []
  · simp [hnil, steps, Text.splitOn_cons_self, Component.ofRun?, Name.ofBytes?]
  · simp [steps, Text.splitOn_cons_self, List.splitOn_intercalate slash h hnil, Component.ofRun?,
      Name.ofBytes?]

/-- A climb keeps a beginning of the text that ends in a run that is not idle, and the steps but the
last. Where nothing but idle runs follow the first slash, all of it is kept. -/
theorem up_cases {p : Path} (h : p.isAbsolute = true) :
    p.up = p ∧ p.steps = [] ∨ ∃ runs, p.up = ⟨slash :: List.intercalate [slash] runs⟩ ∧
      runs <+: List.splitOn slash (p.bytes.drop 1) ∧
      (∀ last, runs.getLast? = some last → isIdle last = false) ∧
      runs.filterMap Component.ofRun? = p.steps.dropLast := by
  have hfree : ∀ run ∈ (List.splitOn slash (p.bytes.drop 1)).reverse, slash ∉ run :=
    fun run hrun => Text.notMem_of_mem_splitOn (List.mem_reverse.mp hrun)
  have hsteps : p.steps.reverse = ((List.splitOn slash (p.bytes.drop 1)).reverse.dropWhile
      isIdle).filterMap Component.ofRun? := by
    rw [filterMap_dropWhile_isIdle hfree, List.filterMap_reverse, steps_of_isAbsolute h]
  have hsuffix := List.dropWhile_suffix isIdle (l := (List.splitOn slash (p.bytes.drop 1)).reverse)
  have hbusy := List.head?_dropWhile_not isIdle (List.splitOn slash (p.bytes.drop 1)).reverse
  simp only [up, parent?, lead, h, if_true]
  simp only [List.flatMap_cons, List.flatMap_nil, Component.bytes, List.append_nil,
    List.length_singleton]
  cases hruns : (List.splitOn slash (p.bytes.drop 1)).reverse.dropWhile isIdle with
  | nil =>
      rw [hruns] at hsteps
      exact .inl ⟨rfl, List.reverse_eq_nil_iff.mp hsteps⟩
  | cons last outer =>
      rw [hruns] at hsteps hsuffix hbusy
      have hkept : ∀ run ∈ last :: outer, slash ∉ run := fun run hrun =>
        hfree run (hsuffix.mem hrun)
      have houter := fun run hrun => hkept run (List.mem_cons_of_mem last hrun)
      obtain ⟨c, hc⟩ : ∃ c, Component.ofRun? last = some c := by
        rw [← Option.ne_none_iff_exists', ne_eq,
          Component.ofRun?_eq_none_iff (hkept last List.mem_cons_self)]
        simpa using hbusy
      refine .inr ⟨(outer.dropWhile isIdle).reverse, rfl, ?_, ?_, ?_⟩
      · rw [← List.reverse_suffix, List.reverse_reverse]
        exact (List.dropWhile_suffix isIdle).trans ((List.suffix_cons last outer).trans hsuffix)
      · intro run hrun
        rw [List.getLast?_reverse] at hrun
        have hhead := List.head?_dropWhile_not isIdle outer
        rw [hrun] at hhead
        simpa using hhead
      · rw [List.filterMap_cons_some hc] at hsteps
        rw [List.filterMap_reverse, filterMap_dropWhile_isIdle houter,
          ← List.reverse_reverse p.steps, hsteps, List.reverse_cons, List.dropLast_concat]

/-- A climb takes back the last step of an absolute path, whatever text follows it. -/
theorem steps_up {p : Path} (h : p.isAbsolute = true) : p.up.steps = p.steps.dropLast := by
  rcases up_cases h with ⟨hsame, hnone⟩ | ⟨runs, hup, hbegins, _, hsteps⟩
  · rw [hsame, hnone, List.dropLast_nil]
  · have hfree : ∀ run ∈ runs, slash ∉ run := fun run hrun =>
      Text.notMem_of_mem_splitOn (hbegins.mem hrun)
    rw [hup, steps_slash_intercalate hfree, hsteps]

theorem prefix_bytes_up {p : Path} (h : p.isAbsolute = true) : p.up.bytes <+: p.bytes := by
  obtain ⟨rest, hrest⟩ := isAbsolute_iff.mp h
  rcases up_cases h with ⟨hsame, _⟩ | ⟨runs, hup, hbegins, _⟩
  · simp [hsame]
  · have htexts : List.intercalate [slash] runs <+:
        List.intercalate [slash] (List.splitOn slash (p.bytes.drop 1)) :=
      Text.prefix_intercalate hbegins
    rw [hrest, List.drop_succ_cons, List.drop_zero, List.intercalate_splitOn] at htexts
    rw [hup, hrest]
    exact List.cons_prefix_cons.mpr ⟨rfl, htexts⟩

/-- The path so many climbs further up. -/
def ancestor (p : Path) : Nat → Path
  | 0 => p
  | d + 1 => (p.ancestor d).up

theorem steps_ancestor {p : Path} (h : p.isAbsolute = true) (d : Nat) :
    (p.ancestor d).isAbsolute = true ∧
      (p.ancestor d).steps.reverse = p.steps.reverse.drop d := by
  induction d with
  | zero => exact ⟨h, rfl⟩
  | succ d ih =>
      refine ⟨isAbsolute_up ih.1, ?_⟩
      rw [ancestor, steps_up ih.1, ← List.tail_reverse, ih.2, List.tail_drop]

/-- The steps of a proper ancestor lead no further than to the parent. -/
theorem prefix_steps_ancestor {p : Path} (h : p.isAbsolute = true) (d : Nat) :
    (p.ancestor (d + 1)).steps <+: p.steps.dropLast := by
  have hsteps := (steps_ancestor h (d + 1)).2
  rw [List.drop_reverse, List.reverse_inj] at hsteps
  rw [hsteps, List.dropLast_eq_take]
  exact List.take_prefix_take_left (by omega)

theorem prefix_bytes_ancestor {p : Path} (h : p.isAbsolute = true) (d : Nat) :
    (p.ancestor d).bytes <+: p.bytes := by
  induction d with
  | zero => exact List.prefix_refl p.bytes
  | succ d ih => exact (prefix_bytes_up (steps_ancestor h d).1).trans ih

/-! ### Rebuilding -/

theorem ofComponents_root (cs : List Component) :
    ofComponents (.root :: cs) = cs.foldl push ⟨[slash]⟩ := rfl

theorem steps_ofComponents {cs : List Component} (h : ∀ c ∈ cs, c.isStep = true) :
    (ofComponents (.root :: cs)).steps = cs := by
  rw [ofComponents_root, steps_foldl_push h, steps_slash, List.nil_append]

/-! ### One path for each sequence of components -/

theorem mem_of_mem_keepFirst {x : List Component × Path} {xs : List (List Component × Path)}
    (h : x ∈ distinct.keepFirst xs) : x ∈ xs := by
  induction xs with
  | nil => exact h
  | cons first rest ih =>
      rcases List.mem_cons.mp h with rfl | h
      · exact List.mem_cons_self
      · exact List.mem_cons_of_mem _ (ih (List.mem_filter.mp h).1)

theorem exists_mem_keepFirst {x : List Component × Path} {xs : List (List Component × Path)}
    (h : x ∈ xs) : ∃ y ∈ distinct.keepFirst xs, y.1 = x.1 := by
  induction xs with
  | nil => cases h
  | cons first rest ih =>
      by_cases hfirst : first.1 = x.1
      · exact ⟨first, List.mem_cons_self, hfirst⟩
      · have hrest : x ∈ rest := by
          rcases List.mem_cons.mp h with rfl | h
          · exact absurd rfl hfirst
          · exact h
        obtain ⟨y, hy, hkey⟩ := ih hrest
        refine ⟨y, List.mem_cons_of_mem _ (List.mem_filter.mpr ⟨hy, ?_⟩), hkey⟩
        simpa [hkey] using Ne.symm hfirst

theorem mem_of_mem_distinct {p : Path} {paths : List Path} (h : p ∈ distinct paths) :
    p ∈ paths := by
  obtain ⟨x, hx, rfl⟩ := List.mem_map.mp h
  obtain ⟨q, hq, rfl⟩ := List.mem_map.mp (mem_of_mem_keepFirst hx)
  exact hq

theorem exists_mem_distinct {p : Path} {paths : List Path} (h : p ∈ paths) :
    ∃ q ∈ distinct paths, q.components = p.components := by
  have hpair := List.mem_map_of_mem (f := fun p => (p.components, p)) h
  obtain ⟨y, hy, hkey⟩ := exists_mem_keepFirst hpair
  obtain ⟨q, _, rfl⟩ := List.mem_map.mp (mem_of_mem_keepFirst hy)
  exact ⟨q, List.mem_map.mpr ⟨_, hy, rfl⟩, hkey⟩

/-- Nothing is dropped but repeats where components tell the paths apart. -/
theorem mem_distinct_iff {p : Path} {paths : List Path}
    (h : p ∈ paths → ∀ q ∈ paths, q.components = p.components → q = p) :
    p ∈ distinct paths ↔ p ∈ paths := by
  constructor
  · exact mem_of_mem_distinct
  · intro hp
    obtain ⟨q, hq, hkey⟩ := exists_mem_distinct hp
    exact h hp q (mem_of_mem_distinct hq) hkey ▸ hq

/-- Dropping repeats and sorting paths out may change places where components decide both. -/
theorem keepFirst_filter {keep : List Component × Path → Bool} {xs : List (List Component × Path)}
    (h : ∀ x ∈ xs, ∀ y ∈ xs, x.1 = y.1 → keep x = keep y) :
    distinct.keepFirst (xs.filter keep) = (distinct.keepFirst xs).filter keep := by
  induction xs with
  | nil => rfl
  | cons first rest ih =>
      have hrest := ih fun x hx y hy =>
        h x (List.mem_cons_of_mem first hx) y (List.mem_cons_of_mem first hy)
      by_cases hfirst : keep first = true
      · rw [List.filter_cons_of_pos hfirst, distinct.keepFirst, distinct.keepFirst, hrest,
          List.filter_cons_of_pos hfirst, List.filter_filter, List.filter_filter]
        simp only [Bool.and_comm]
      · rw [List.filter_cons_of_neg hfirst, hrest, distinct.keepFirst,
          List.filter_cons_of_neg hfirst, List.filter_filter]
        -- no later repeat of a path that is sorted out is left
        apply List.filter_congr
        intro x hx
        have hmem := List.mem_cons_of_mem first (mem_of_mem_keepFirst hx)
        by_cases hsame : x.1 = first.1
        · simp [h x hmem first List.mem_cons_self hsame, hfirst]
        · simp [hsame]

theorem distinct_filter {keep : Path → Bool} {paths : List Path}
    (h : ∀ p ∈ paths, ∀ q ∈ paths, p.components = q.components → keep p = keep q) :
    distinct (paths.filter keep) = (distinct paths).filter keep := by
  have hpairs : ∀ x ∈ paths.map fun p => (p.components, p),
      ∀ y ∈ paths.map fun p => (p.components, p), x.1 = y.1 → keep x.2 = keep y.2 := by
    intro x hx y hy hsame
    obtain ⟨p, hp, rfl⟩ := List.mem_map.mp hx
    obtain ⟨q, hq, rfl⟩ := List.mem_map.mp hy
    exact h p hp q hq hsame
  have hkept : distinct.keepFirst
        ((paths.map fun p => (p.components, p)).filter fun x => keep x.2) =
      (distinct.keepFirst (paths.map fun p => (p.components, p))).filter fun x => keep x.2 :=
    keepFirst_filter hpairs
  rw [List.filter_map] at hkept
  rw [distinct, distinct, List.filter_map]
  exact congrArg (List.map Prod.snd) hkept

end Path

end ArtifactHarvest
