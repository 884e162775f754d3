import ArtifactHarvest.Proofs.Options.Spelling
import ArtifactHarvest.Proofs.Path.Steps
import Mathlib.Data.List.Basic

/-!
What options that are given one after another come to. As long as none is given twice that may be
given once, every value is kept, and the values of one setting stay in sequence (`exists_gathered`).
One that is given twice is refused wherever the second stands (`foldlM_accept_inserted`). Options
are known by what they keep (`eq_of_values`), so the sequence in which they were given is lost but
for the one of the experiments.
-/

namespace ArtifactHarvest.Options

open Text.Utf8 (encode encode_injective)

/-- The values that are set, in order. Only experiments may have several. -/
def values (o : Options) : Setting → List Bytes
  | .paths => (o.paths.map encode).toList
  | .root => (o.root.map Path.bytes).toList
  | .experiment => o.experiments.map encode
  | .config => (o.config.map Path.bytes).toList
  | .summary => (o.summary.map Path.bytes).toList
  | .logLevel => (o.logLevel.map encode).toList

namespace Given

/-- The value that is given for a setting, if this is the one. -/
def valuesFor (t : Setting) : Given → List Bytes
  | setting s value => if s = t then [value] else []
  | switch _ => []

end Given

/-- The options that may be given once, as they are given. -/
def once (givens : List Given) : List Key :=
  (givens.map Given.key).filter (· ≠ .setting .experiment)

/-! ### Options are known by what they keep -/

theorem eq_of_toList_map {α : Type} {f : α → Bytes} (hf : Function.Injective f) {a b : Option α}
    (h : (a.map f).toList = (b.map f).toList) : a = b := by
  cases a with
  | none =>
      cases b with
      | none => rfl
      | some y => cases h
  | some x =>
      cases b with
      | none => cases h
      | some y => exact congrArg some (hf (List.cons.inj h).1)

theorem eq_of_values {o p : Options} (hvalues : ∀ s, o.values s = p.values s)
    (hswitches : ∀ s, o.isOn s = p.isOn s) : o = p := by
  cases o
  cases p
  congr 1
  · exact eq_of_toList_map encode_injective (hvalues .paths)
  · exact hswitches .followSymlinks
  · exact eq_of_toList_map (fun _ _ => Path.eq_of_bytes) (hvalues .root)
  · exact List.map_injective_iff.mpr encode_injective (hvalues .experiment)
  · exact hswitches .skipUnreadable
  · exact eq_of_toList_map (fun _ _ => Path.eq_of_bytes) (hvalues .config)
  · exact eq_of_toList_map (fun _ _ => Path.eq_of_bytes) (hvalues .summary)
  · exact eq_of_toList_map encode_injective (hvalues .logLevel)
  · exact hswitches .debug
  · exact hswitches .noColor

theorem values_nil_or_single {s : Setting} (hs : s ≠ .experiment) (o : Options) :
    o.values s = [] ∨ ∃ value, o.values s = [value] := by
  have hoption : ∀ value : Option Bytes, value.toList = [] ∨ ∃ v, value.toList = [v] := by
    intro value
    cases value with
    | none => exact .inl rfl
    | some v => exact .inr ⟨v, rfl⟩
  cases s with
  | experiment => exact absurd rfl hs
  | paths | root | config | summary | logLevel => exact hoption _

theorem gives_iff (o : Options) (s : Setting) :
    o.gives s = true ↔ s ≠ .experiment ∧ o.values s ≠ [] := by
  cases s <;> simp [gives, values, Option.isSome_iff_ne_none]

/-! ### What is given together -/

theorem mem_once {k : Key} {givens : List Given} :
    k ∈ once givens ↔ (∃ g ∈ givens, g.key = k) ∧ k ≠ .setting .experiment := by
  simp [once]

theorem once_append (front back : List Given) : once (front ++ back) = once front ++ once back := by
  simp [once]

theorem once_perm {givens others : List Given} (h : givens.Perm others) :
    (once givens).Perm (once others) :=
  (h.map Given.key).filter _

theorem valuesFor_ne_nil (g : Given) (t : Setting) : g.valuesFor t ≠ [] ↔ g.key = .setting t := by
  cases g <;> simp [Given.valuesFor, Given.key]

theorem eq_switch_iff (g : Given) (s : Switch) : g = .switch s ↔ g.key = .switch s := by
  cases g <;> simp [Given.key]

/-- What options become by what is given: for each setting its values behind those it had, and
the switches on. -/
structure Gathers (o : Options) (givens : List Given) (o' : Options) : Prop where
  values : ∀ t, o'.values t = o.values t ++ givens.flatMap (·.valuesFor t)
  isOn : ∀ s, o'.isOn s = (o.isOn s || decide (.switch s ∈ givens))

theorem values_put {o : Options} {g : Given} (hg : g.Proper) (hfree : o.holds g.key = false)
    (t : Setting) : (o.put g).values t = o.values t ++ g.valuesFor t := by
  cases g with
  | switch s => cases s <;> cases t <;> simp [put, turnOn, values, Given.valuesFor]
  | setting s value =>
      cases s with
      | root | config | summary =>
          cases t <;> simp_all [put, give?, values, Given.valuesFor, holds, gives, Given.key]
      | paths | experiment | logLevel =>
          obtain ⟨text, rfl⟩ := hg
          cases t <;> simp_all [put, give?, values, Given.valuesFor, holds, gives, Given.key,
            Text.Utf8.decode?_encode]

theorem isOn_put {o : Options} {g : Given} (hg : g.Proper) (s : Switch) :
    (o.put g).isOn s = (o.isOn s || decide (g = .switch s)) := by
  cases g with
  | setting t value =>
      cases t with
      | root | config | summary => cases s <;> simp [put, give?, isOn]
      | paths | experiment | logLevel =>
          obtain ⟨text, rfl⟩ := hg
          cases s <;> simp [put, give?, isOn, Text.Utf8.decode?_encode]
  | switch t =>
      have hhelp : t ≠ .help := hg
      cases t <;> cases s <;> simp_all [put, turnOn, isOn]

namespace Gathers

theorem nil (o : Options) : Gathers o [] o where
  values t := by simp
  isOn s := by simp

theorem put {o : Options} {g : Given} (hg : g.Proper) (hfree : o.holds g.key = false) :
    Gathers o [g] (o.put g) where
  values t := by rw [values_put hg hfree t, List.flatMap_singleton]
  isOn s := by
    rw [isOn_put hg s]
    simp [eq_comm]

theorem append {o o' o'' : Options} {front back : List Given} (hfront : Gathers o front o')
    (hback : Gathers o' back o'') : Gathers o (front ++ back) o'' where
  values t := by
    rw [hback.values, hfront.values, List.flatMap_append, List.append_assoc]
  isOn s := by
    rw [hback.isOn, hfront.isOn, Bool.or_assoc]
    simp

/-- What may be given once has been given if it was before, or is now. -/
theorem holds_iff {o o' : Options} {givens : List Given} (h : Gathers o givens o') (k : Key) :
    o'.holds k = true ↔ o.holds k = true ∨ k ∈ once givens := by
  rw [mem_once]
  cases k with
  | setting t =>
      have hnew : givens.flatMap (·.valuesFor t) ≠ [] ↔ ∃ g ∈ givens, g.key = .setting t := by
        simp only [ne_eq, List.flatMap_eq_nil_iff, not_forall, exists_prop, ← valuesFor_ne_nil]
      have hexperiment : Key.setting t ≠ .setting .experiment ↔ t ≠ .experiment := by simp
      simp only [Options.holds]
      rw [gives_iff, gives_iff, h.values, ← hnew, hexperiment]
      simp only [ne_eq, List.append_eq_nil_iff]
      tauto
  | switch s =>
      have hnew : .switch s ∈ givens ↔ ∃ g ∈ givens, g.key = .switch s := by
        simp only [← eq_switch_iff, exists_eq_right]
      simp only [Options.holds]
      rw [h.isOn, ← hnew]
      simp

end Gathers

/-! ### One after another -/

/-- **What may be given once is given once**, and then everything that is given is kept. -/
theorem exists_gathered {givens : List Given} (hproper : ∀ g ∈ givens, g.Proper)
    (hnodup : (once givens).Nodup) {o : Options} (hfree : ∀ k ∈ once givens, o.holds k = false) :
    ∃ o', givens.foldlM accept o = .ok o' ∧ Gathers o givens o' := by
  induction givens generalizing o with
  | nil => exact ⟨o, rfl, .nil o⟩
  | cons g rest ih =>
      obtain ⟨hg, hrest⟩ := List.forall_mem_cons.mp hproper
      have hsplit : once (g :: rest) = once [g] ++ once rest := once_append [g] rest
      rw [hsplit] at hnodup hfree
      have hfirst : o.holds g.key = false := by
        by_cases hkey : g.key = .setting .experiment
        · rw [hkey]
          rfl
        · exact hfree g.key (List.mem_append_left _ (mem_once.mpr ⟨⟨g, by simp, rfl⟩, hkey⟩))
      have hput : Gathers o [g] (o.put g) := .put hg hfirst
      -- nothing is given twice, so what comes behind is still free when `g` is taken up
      have hnext : ∀ k ∈ once rest, (o.put g).holds k = false := by
        intro k hk
        rw [Bool.eq_false_iff, ne_eq, hput.holds_iff]
        rintro (hold | hnew)
        · rw [hfree k (List.mem_append_right _ hk)] at hold
          cases hold
        · exact (List.nodup_append.mp hnodup).2.2 k hnew k hk rfl
      obtain ⟨o', hrun, hgathers⟩ := ih hrest (List.nodup_append.mp hnodup).2.1 hnext
      refine ⟨o', ?_, hput.append hgathers⟩
      have haccept : o.accept g = .ok (o.put g) := by simp [accept, hfirst]
      rw [List.foldlM_cons, haccept]
      exact hrun

theorem holds_none (k : Key) : Options.none.holds k = false := by
  cases k with
  | setting s => cases s <;> rfl
  | switch s => cases s <;> rfl

/-- The first option that is given again is refused, whatever comes behind it. -/
theorem foldlM_accept_repeated {front : List Given} (hproper : ∀ g ∈ front, g.Proper)
    (hnodup : (once front).Nodup) {again : Given} (hagain : again.key ∈ once front)
    (rest : List Given) :
    (front ++ again :: rest).foldlM accept Options.none = .error again.key.conflict := by
  obtain ⟨o, hrun, hgathers⟩ := exists_gathered hproper hnodup fun k _ => holds_none k
  have hheld : o.holds again.key = true := (hgathers.holds_iff again.key).mpr (.inr hagain)
  have hrefused : o.accept again = .error again.key.conflict := by simp [accept, hheld]
  rw [List.foldlM_append, hrun]
  show ((again :: rest).foldlM accept o) = _
  rw [List.foldlM_cons, hrefused]
  rfl

theorem Given.forall_proper_insert {front back : List Given} (h : ∀ g ∈ front ++ back, g.Proper)
    {again : Given} (hagain : again.Proper) : ∀ g ∈ front ++ again :: back, g.Proper := by
  obtain ⟨hfront, hback⟩ := List.forall_mem_append.mp h
  exact List.forall_mem_append.mpr ⟨hfront, List.forall_mem_cons.mpr ⟨hagain, hback⟩⟩

/-- An option that is given twice is refused, wherever the second one stands. -/
theorem foldlM_accept_inserted {front back : List Given} {again : Given}
    (hproper : ∀ g ∈ front ++ back, g.Proper) (hnodup : (once (front ++ back)).Nodup)
    (hagain : again.Proper) (hkey : again.key ∈ once (front ++ back)) :
    (front ++ again :: back).foldlM accept Options.none = .error again.key.conflict := by
  have hfront : ∀ g ∈ front, g.Proper := fun g hg => hproper g (List.mem_append_left _ hg)
  rw [once_append, List.mem_append] at hkey
  rcases hkey with hkey | hkey
  · rw [once_append] at hnodup
    exact foldlM_accept_repeated hfront (List.nodup_append.mp hnodup).1 hkey back
  · -- the one that stood here before is now the second
    obtain ⟨⟨g, hg, hsame⟩, honce⟩ := mem_once.mp hkey
    obtain ⟨between, behind, rfl⟩ := List.append_of_mem hg
    have hseen : ∀ g ∈ front ++ again :: between, g.Proper := by
      apply Given.forall_proper_insert _ hagain
      intro g' hg'
      apply hproper
      rw [← List.append_assoc]
      exact List.mem_append_left _ hg'
    have hmoved : (once (front ++ again :: between)).Perm (once (front ++ (between ++ [g]))) := by
      have hone : once [again] = once [g] := by simp [once, hsame]
      have hcons : once (again :: between) = once [again] ++ once between :=
        once_append [again] between
      rw [once_append, once_append, once_append, hcons, hone]
      exact List.perm_append_comm.append_left _
    have hseenNodup : (once (front ++ again :: between)).Nodup := by
      apply hmoved.nodup_iff.mpr
      have hlonger : front ++ (between ++ g :: behind) = front ++ (between ++ [g]) ++ behind := by
        simp
      rw [hlonger, once_append] at hnodup
      exact (List.nodup_append.mp hnodup).1
    have hmem : g.key ∈ once (front ++ again :: between) := by
      rw [hsame]
      exact mem_once.mpr ⟨⟨again, by simp, rfl⟩, honce⟩
    have hregroup : front ++ again :: (between ++ g :: behind) =
        (front ++ again :: between) ++ g :: behind := by simp
    rw [hregroup, foldlM_accept_repeated hseen hseenNodup hmem behind, hsame]

end ArtifactHarvest.Options
