import ArtifactHarvest.Proofs.Expansion.Meaning

/-!
Names that are asked for by a wildcard. Where a wildcard stands for one name alone, as the text of
the name with its first character in brackets does (`Glob.matches_bracketed_iff`), the walk is that
of the name (`matchesBelow_singled`), behind whatever other segments (`matchesBelow_append_congr`).
-/

namespace ArtifactHarvest

/-- A name is a text if its bytes are those of its text. -/
def Name.IsText (n : Name) : Prop :=
  Text.Utf8.encode n.text = n.bytes

instance (n : Name) : Decidable n.IsText :=
  inferInstanceAs (Decidable (_ = _))

theorem Name.IsText.text_eq_iff {k n : Name} (hk : k.IsText) (hn : n.IsText) :
    k.text = n.text ↔ k = n := by
  constructor
  · intro h
    rw [← Name.bytes_inj, ← hk, ← hn, h]
  · rintro rfl
    rfl

theorem Glob.matches_chars_iff {chars cs : List Char} :
    Matches (chars.map .char) cs ↔ cs = chars := by
  induction chars generalizing cs with
  | nil => exact matches_nil_iff
  | cons c chars ih =>
      cases cs with
      | nil => simp [matches_one_nil]
      | cons d cs => simp [matches_one_cons, GlobToken.takes, ih]

/-- The text of a name with its first character in brackets stands for this name alone. -/
theorem Glob.matches_bracketed_iff {c : Char} {chars : List Char} {k n : Name} (hk : k.IsText)
    (hn : n.IsText) (htext : n.text.toList = c :: chars) (hc : c ≠ '/') :
    Matches (.oneOf false [.single c] :: chars.map .char) k.text.toList ↔ k = n := by
  rw [← hk.text_eq_iff hn, ← String.toList_inj, htext]
  cases k.text.toList with
  | nil => simp [matches_one_nil]
  | cons d cs =>
      rw [matches_one_cons (by simp), matches_chars_iff, List.cons.injEq]
      have htakes : GlobToken.takes d (.oneOf false [.single c]) = true ↔ d = c := by
        simp only [GlobToken.takes, List.any_cons, ClassItem.holds, List.any_nil, Bool.or_false,
          Bool.and_eq_true, bne_iff_ne, ne_eq, Bool.not_eq_false, beq_iff_eq]
        constructor
        · exact fun h => h.2
        · rintro rfl
          exact ⟨hc, rfl⟩
      rw [htakes]

namespace View

variable {v : View}

/-- A directory is asked about the one name that a wildcard stands for, if it lists it. -/
theorem candidates_singled {dir : Path} {n : Name} {g : Glob}
    (hone : ∀ k ∈ v.workspace.entries dir, Glob.Matches g k.text.toList ↔ k = n) :
    v.candidates dir (.matching g) = if n ∈ v.workspace.entries dir then [n] else [] := by
  have hsame : v.candidates dir (.matching g) = (v.workspace.entries dir).filter (· = n) := by
    apply List.filter_congr
    intro k hk
    rw [Bool.eq_iff_iff, Glob.accepts_iff, hone k hk, decide_eq_true_iff]
  rw [hsame, List.filter_eq]
  split
  · rename_i hn
    rw [List.count_eq_one_of_mem (v.workspace.nodup_entries dir) hn, List.replicate_one]
  · rename_i hn
    rw [List.count_eq_zero_of_not_mem hn, List.replicate_zero]

/-- A name that is not listed leads nowhere, where all directories can be listed. -/
theorem classify_unlisted {dir : Path} {n : Name} (hlist : v.workspace.files.Listable)
    (habs : dir.isAbsolute = true) (hn : n ∉ v.workspace.entries dir) :
    v.classify (dir.child n) = .other := by
  cases hkind : v.classify (dir.child n) with
  | other => rfl
  | file =>
      exact absurd (mem_entries_of_leadsToFile hlist habs (classify_eq_file_iff.mp hkind)) hn
  | directory loc =>
      exact absurd (Workspace.mem_entries_of_lookup hlist habs (lookup_of_classify hkind)) hn

theorem matchesBelow_singled {dir : Path} {branch : List Location} {n : Name} {g : Glob}
    (rest : List Segment) (hlist : v.workspace.files.Listable) (habs : dir.isAbsolute = true)
    (hone : ∀ k ∈ v.workspace.entries dir, Glob.Matches g k.text.toList ↔ k = n) :
    v.matchesBelow (.matching g :: rest) dir branch =
      v.matchesBelow (.named n :: rest) dir branch := by
  have hnamed : v.candidates dir (.named n) = [n] := rfl
  by_cases hrest : rest = []
  · subst hrest
    rw [matchesBelow_single_last rfl, matchesBelow_single_last rfl, candidates_singled hone, hnamed]
    split
    · rfl
    · rename_i hn
      simp [classify_unlisted hlist habs hn]
  · rw [matchesBelow_single rfl hrest, matchesBelow_single rfl hrest, candidates_singled hone,
      hnamed]
    split
    · rfl
    · rename_i hn
      simp [inside, classify_unlisted hlist habs hn]

theorem inside_congr {segments segments' : List Segment} {p : Path} {branch : List Location}
    (h : ∀ loc inner, v.classify p = .directory loc → v.enter? branch p loc = some inner →
      v.matchesBelow segments p inner = v.matchesBelow segments' p inner) :
    v.inside segments p branch = v.inside segments' p branch :=
  inside_of_same (· = ·) rfl (fun _ => rfl) rfl h

/-- Segments that are walked alike are walked alike behind any others. -/
theorem matchesBelow_append_congr {tail tail' : List Segment} (htail : tail ≠ [])
    (htail' : tail' ≠ []) (h : ∀ dir branch, dir.isAbsolute = true →
      v.matchesBelow tail dir branch = v.matchesBelow tail' dir branch)
    (front : List Segment) {dir : Path} {branch : List Location} (habs : dir.isAbsolute = true) :
    v.matchesBelow (front ++ tail) dir branch = v.matchesBelow (front ++ tail') dir branch := by
  generalize hsegments : front ++ tail = segments
  induction segments, dir, branch using walk_induction (v := v) generalizing front with
  | nil dir branch => exact absurd (List.append_eq_nil_iff.mp hsegments).2 htail
  | parent rest dir branch ih =>
      cases front with
      | nil =>
          obtain rfl : tail = .parent :: rest := hsegments
          exact h dir branch habs
      | cons segment front =>
          rw [List.cons_append] at hsegments
          obtain ⟨rfl, rfl⟩ := List.cons.inj hsegments
          rw [List.cons_append, matchesBelow_parent, matchesBelow_parent]
          exact ih front (Path.isAbsolute_up habs) rfl
  | anyDepth rest dir branch ihHere ihBelow =>
      cases front with
      | nil =>
          obtain rfl : tail = .anyDepth :: rest := hsegments
          exact h dir branch habs
      | cons segment front =>
          rw [List.cons_append] at hsegments
          obtain ⟨rfl, rfl⟩ := List.cons.inj hsegments
          have hrest := List.append_ne_nil_of_right_ne_nil front htail
          have hrest' := List.append_ne_nil_of_right_ne_nil front htail'
          rw [List.cons_append, matchesBelow_anyDepth hrest, matchesBelow_anyDepth hrest',
            ihHere front habs rfl]
          congr 1
          apply List.flatMap_congr
          intro n hn
          apply inside_congr
          intro loc inner hkind henter
          exact ihBelow n hn loc inner hkind henter (.anyDepth :: front)
            (Path.isAbsolute_child n habs) rfl
  | single segment rest dir branch hone ih =>
      cases front with
      | nil =>
          obtain rfl : tail = segment :: rest := hsegments
          exact h dir branch habs
      | cons first front =>
          rw [List.cons_append] at hsegments
          obtain ⟨rfl, rfl⟩ := List.cons.inj hsegments
          have hrest := List.append_ne_nil_of_right_ne_nil front htail
          have hrest' := List.append_ne_nil_of_right_ne_nil front htail'
          rw [List.cons_append, matchesBelow_single hone hrest, matchesBelow_single hone hrest']
          apply List.flatMap_congr
          intro n hn
          apply inside_congr
          intro loc inner hkind henter
          exact ih n hn loc inner hkind henter front (Path.isAbsolute_child n habs) rfl

end View

end ArtifactHarvest
