import CompactIds.LocalRuns
import Mathlib.Data.List.Pairwise
import Mathlib.Tactic.Common

/-!
# Runs as sets of generations

The runs of a record ascend and do not overlap, so the search for the last run
that starts at a generation or before finds the only one that can hold it.
-/

namespace CompactIds.LocalRuns

variable {locals : LocalRuns} {run : Run} {runs : List Run}
variable {first count g least gap limit : Nat}

/-- The runs ascend from 1 on, and end before `limit`. -/
structure Within (locals : LocalRuns) (limit : Nat) : Prop where
  nonempty : ∀ run ∈ locals.runs, 0 < run.count
  positive : ∀ run ∈ locals.runs, 1 ≤ run.first
  disjoint : locals.runs.toList.Pairwise fun a b => a.first + a.count ≤ b.first
  bounded : ∀ run ∈ locals.runs, run.first + run.count ≤ limit

def Holds (locals : LocalRuns) (g : Nat) : Prop :=
  ∃ run ∈ locals.runs, run.first ≤ g ∧ g < run.first + run.count

/-- No run is empty or starts before `least`, between two of them there is room for
`gap` generations, and all of them end before `limit`. -/
structure Spaced (least gap limit : Nat) (runs : List Run) : Prop where
  nonempty : ∀ run ∈ runs, 0 < run.count
  least_le : ∀ run ∈ runs, least ≤ run.first
  apart : runs.Pairwise fun a b => a.first + a.count + gap ≤ b.first
  bounded : ∀ run ∈ runs, run.first + run.count < limit

theorem within_iff_spaced : locals.Within limit ↔ Spaced 1 0 (limit + 1) locals.runs.toList := by
  constructor
  · rintro ⟨hnonempty, hpositive, hdisjoint, hbounded⟩
    simp only [← Array.mem_toList_iff] at hnonempty hpositive hbounded
    exact ⟨hnonempty, hpositive, hdisjoint, fun run hrun => Nat.lt_succ_of_le (hbounded run hrun)⟩
  · rintro ⟨hnonempty, hpositive, hdisjoint, hbounded⟩
    simp only [Array.mem_toList_iff, Nat.lt_succ_iff] at hnonempty hpositive hbounded
    exact ⟨hnonempty, hpositive, hdisjoint, hbounded⟩

theorem spaced_iff :
    Spaced least gap limit runs ↔
      (∀ run ∈ runs, 0 < run.count ∧ least ≤ run.first ∧ run.first + run.count < limit) ∧
        runs.Pairwise fun a b => a.first + a.count + gap ≤ b.first := by
  constructor
  · intro ⟨nonempty, least_le, apart, bounded⟩
    exact ⟨fun run hrun => ⟨nonempty run hrun, least_le run hrun, bounded run hrun⟩, apart⟩
  · intro ⟨heach, apart⟩
    exact ⟨fun run hrun => (heach run hrun).1, fun run hrun => (heach run hrun).2.1, apart,
      fun run hrun => (heach run hrun).2.2⟩

theorem Spaced.mono (spaced : Spaced least gap limit runs) {least' : Nat} (h : least' ≤ least) :
    Spaced least' gap limit runs where
  nonempty := spaced.nonempty
  least_le := fun run hrun => Nat.le_trans h (spaced.least_le run hrun)
  apart := spaced.apart
  bounded := spaced.bounded

theorem spaced_nil : Spaced least gap limit [] := by
  constructor <;> simp

theorem spaced_cons :
    Spaced least gap limit (run :: runs) ↔
      (0 < run.count ∧ least ≤ run.first ∧ run.first + run.count < limit) ∧
        Spaced (run.first + run.count + gap) gap limit runs := by
  constructor
  · rintro ⟨hnonempty, hleast, hapart, hbounded⟩
    rw [List.forall_mem_cons] at hnonempty hleast hbounded
    rw [List.pairwise_cons] at hapart
    exact ⟨⟨hnonempty.1, hleast.1, hbounded.1⟩, hnonempty.2, hapart.1, hapart.2, hbounded.2⟩
  · rintro ⟨⟨hcount, hleast, hlimit⟩, hnonempty, hafter, hapart, hbounded⟩
    refine ⟨?_, ?_, List.pairwise_cons.2 ⟨hafter, hapart⟩, ?_⟩ <;> rw [List.forall_mem_cons]
    · exact ⟨hcount, hnonempty⟩
    · refine ⟨hleast, fun r hr => ?_⟩
      have := hafter r hr
      omega
    · exact ⟨hlimit, hbounded⟩

theorem spaced_append_singleton :
    Spaced least gap limit (runs ++ [run]) ↔
      Spaced least gap limit runs ∧
        (0 < run.count ∧ least ≤ run.first ∧ run.first + run.count < limit) ∧
        ∀ r ∈ runs, r.first + r.count + gap ≤ run.first := by
  constructor
  · rintro ⟨hnonempty, hleast, hapart, hbounded⟩
    simp only [List.forall_mem_append, List.forall_mem_singleton] at hnonempty hleast hbounded
    simp only [List.pairwise_append, List.forall_mem_singleton] at hapart
    exact ⟨⟨hnonempty.1, hleast.1, hapart.1, hbounded.1⟩,
      ⟨hnonempty.2, hleast.2, hbounded.2⟩, hapart.2.2⟩
  · rintro ⟨⟨hnonempty, hleast, hapart, hbounded⟩, ⟨hcount, hfirst, hlimit⟩, hbefore⟩
    constructor <;> simp only [List.forall_mem_append, List.forall_mem_singleton,
      List.pairwise_append, List.pairwise_singleton, true_and]
    · exact ⟨hnonempty, hcount⟩
    · exact ⟨hleast, hfirst⟩
    · exact ⟨hapart, hbefore⟩
    · exact ⟨hbounded, hlimit⟩

theorem ascendingFrom_iff (next : Nat) (runs : List Run) :
    ascendingFrom next runs = true ↔ Spaced next 0 wordLimit runs := by
  induction runs generalizing next with
  | nil => simp [ascendingFrom, spaced_nil]
  | cons run runs ih =>
      simp [ascendingFrom, ih, spaced_cons, Nat.pos_iff_ne_zero, and_assoc]

theorem ofList?_eq_some_iff {runs : List Run} :
    ofList? runs = some locals ↔
      locals.runs.toList = runs ∧ Spaced 1 0 wordLimit runs := by
  rw [ofList?, Option.ite_none_right_eq_some, Option.some.injEq, ascendingFrom_iff, and_comm]
  refine and_congr_left' ?_
  constructor
  · rintro rfl
    rfl
  · rintro rfl
    rfl

private theorem end_le_of_back? {runs : List Run} {last : Run}
    (hpairwise : runs.Pairwise fun a b => a.first + a.count ≤ b.first)
    (hlast : runs.getLast? = some last) :
    ∀ run ∈ runs, run.first + run.count ≤ last.first + last.count := by
  obtain ⟨init, rfl⟩ := List.getLast?_eq_some_iff.1 hlast
  intro run hrun
  rcases List.mem_append.1 hrun with hrun | hrun
  · have := (List.pairwise_append.1 hpairwise).2.2 run hrun last (by simp)
    omega
  · cases List.mem_singleton.1 hrun
    exact Nat.le_refl _

theorem within_of_ofList? {runs : Array Run} (h : ofList? runs.toList = some locals)
    (hback : runs.back?.any (fun run => limit < run.first + run.count) = false) :
    locals.Within limit := by
  obtain ⟨hruns, spaced⟩ := ofList?_eq_some_iff.1 h
  rw [within_iff_spaced, hruns]
  refine ⟨spaced.nonempty, spaced.least_le, spaced.apart, fun run hrun => ?_⟩
  cases hlast : runs.back? with
  | none =>
      rw [Array.back?_eq_none_iff] at hlast
      simp [hlast] at hrun
  | some last =>
      rw [hlast, Option.any_some, decide_eq_false_iff_not] at hback
      rw [← Array.getLast?_toList] at hlast
      have := end_le_of_back? spaced.apart hlast run hrun
      omega

theorem Within.ofList?_eq (within : locals.Within limit) (hlimit : limit < wordLimit) :
    ofList? locals.runs.toList = some locals := by
  have spaced := within_iff_spaced.1 within
  refine ofList?_eq_some_iff.2 ⟨rfl, spaced.nonempty, spaced.least_le, spaced.apart, ?_⟩
  intro run hrun
  have := spaced.bounded run hrun
  omega

theorem Within.back? (within : locals.Within limit) :
    locals.runs.back?.any (fun run => limit < run.first + run.count) = false := by
  cases hlast : locals.runs.back? with
  | none => rfl
  | some last =>
      have hmem := Array.mem_of_back? hlast
      have := within.bounded last hmem
      simp
      omega

theorem Spaced.length_lt (spaced : Spaced least gap limit runs) (hlt : least < limit) :
    least + runs.length < limit := by
  induction runs generalizing least with
  | nil => exact hlt
  | cons run runs ih =>
      obtain ⟨⟨hcount, hleast, hend⟩, hrest⟩ := spaced_cons.1 spaced
      have := ih (hrest.mono (Nat.le_add_right _ gap)) hend
      rw [List.length_cons]
      omega

theorem Within.size_le (within : locals.Within limit) (hlimit : 1 ≤ limit) :
    locals.runs.size + 1 ≤ limit := by
  have := (within_iff_spaced.1 within).length_lt (Nat.lt_succ_of_le hlimit)
  rw [Array.length_toList] at this
  omega

theorem within_empty (limit : Nat) : empty.Within limit := by
  constructor <;> simp [empty]

theorem Within.mono (within : locals.Within limit) {limit' : Nat} (h : limit ≤ limit') :
    locals.Within limit' where
  nonempty := within.nonempty
  positive := within.positive
  disjoint := within.disjoint
  bounded := fun run hrun => Nat.le_trans (within.bounded run hrun) h

private theorem runs_add (locals : LocalRuns) (first count : Nat) :
    (∃ init last, locals.runs.toList = init ++ [last] ∧ last.first + last.count = first ∧
      (locals.add first count).runs.toList = init ++ [⟨last.first, last.count + count⟩]) ∨
    (locals.add first count).runs.toList = locals.runs.toList ++ [⟨first, count⟩] := by
  unfold add
  cases hlast : locals.runs.back? with
  | none =>
      rw [Array.back?_eq_none_iff] at hlast
      simp [hlast]
  | some last =>
      obtain ⟨init, hinit⟩ := Array.back?_eq_some_iff.1 hlast
      by_cases hjoin : last.first + last.count = first
      · left
        exact ⟨init.toList, last, by simp [hinit], hjoin, by simp [hjoin, hinit]⟩
      · right
        simp [hjoin]

/-- A run that does not start at the end of the last one leaves out at least one
generation, and maybe not more. -/
theorem Spaced.add (spaced : Spaced least gap limit locals.runs.toList) (hgap : gap ≤ 1)
    (hleast : locals.runs = #[] → least ≤ first)
    (hbehind : ∀ last ∈ locals.runs.back?, last.first + last.count ≤ first)
    (hcount : 0 < count) (hlimit : first + count < limit) :
    Spaced least gap limit (locals.add first count).runs.toList := by
  unfold LocalRuns.add
  cases hlast : locals.runs.back? with
  | none =>
      have hfirst := hleast (Array.back?_eq_none_iff.1 hlast)
      exact spaced_cons.2 ⟨⟨hcount, hfirst, hlimit⟩, spaced_nil⟩
  | some last =>
      obtain ⟨init, hinit⟩ := Array.back?_eq_some_iff.1 hlast
      have hend : last.first + last.count ≤ first := hbehind last hlast
      have hspaced := spaced
      rw [hinit, Array.toList_push, spaced_append_singleton] at hspaced
      obtain ⟨hbefore, ⟨-, hlastLeast, -⟩, hapart⟩ := hspaced
      by_cases hjoin : last.first + last.count = first
      · have hnonempty : 0 < last.count + count := Nat.add_pos_right _ hcount
        have hbounded : last.first + (last.count + count) < limit := by omega
        simp only [hjoin, if_pos, hinit, Array.pop_push, Array.toList_push]
        exact spaced_append_singleton.2 ⟨hbefore, ⟨hnonempty, hlastLeast, hbounded⟩, hapart⟩
      · have hfirst : least ≤ first := by omega
        simp only [hjoin, if_false, Array.toList_push]
        refine spaced_append_singleton.2 ⟨spaced, ⟨hcount, hfirst, hlimit⟩, ?_⟩
        simp only [hinit, Array.toList_push, List.forall_mem_append, List.forall_mem_singleton]
        refine ⟨fun run hrun => ?_, by omega⟩
        have := hapart run hrun
        omega

theorem Within.add (within : locals.Within limit) (hlimit : limit ≤ first) (hfirst : 1 ≤ first)
    (hcount : 0 < count) : (locals.add first count).Within (first + count) := by
  have spaced := within_iff_spaced.1 (within.mono (Nat.le_trans hlimit (Nat.le_add_right _ count)))
  refine within_iff_spaced.2 (spaced.add (Nat.zero_le 1) (fun _ => hfirst) ?_ hcount
    (Nat.lt_succ_self _))
  intro last hlast
  exact Nat.le_trans (within.bounded last (Array.mem_of_back? hlast)) hlimit

theorem holds_add (locals : LocalRuns) (first count g : Nat) :
    (locals.add first count).Holds g ↔
      locals.Holds g ∨ first ≤ g ∧ g < first + count := by
  unfold Holds
  simp only [← Array.mem_toList_iff]
  rcases runs_add locals first count with ⟨init, last, hruns, hjoin, hadd⟩ | hadd
  · rw [hadd, hruns]
    simp only [List.mem_append, List.mem_singleton, or_and_right, exists_or,
      exists_eq_left, or_assoc]
    refine or_congr_right ?_
    omega
  · rw [hadd]
    simp only [List.mem_append, List.mem_singleton, or_and_right, exists_or, exists_eq_left]

section Lookup

variable {a b : Run} {i j : Nat}
variable (hdisjoint : locals.runs.toList.Pairwise fun a b => a.first + a.count ≤ b.first)
include hdisjoint

theorem end_le_first (hij : i < j) (ha : locals.runs[i]? = some a)
    (hb : locals.runs[j]? = some b) : a.first + a.count ≤ b.first := by
  obtain ⟨hi, rfl⟩ := Array.getElem?_eq_some_iff.1 ha
  obtain ⟨hj, rfl⟩ := Array.getElem?_eq_some_iff.1 hb
  exact List.pairwise_iff_getElem.1 hdisjoint i j hi hj hij

theorem lastIndex?_first_eq_some_iff :
    Search.lastIndex? (fun run => run.first ≤ g) locals.runs = some i ↔
      (∃ run, locals.runs[i]? = some run ∧ run.first ≤ g) ∧
        ∀ j run, i < j → locals.runs[j]? = some run → g < run.first := by
  -- The starts ascend, so the runs that start early enough stand in front.
  have hdown : ∀ (i j : Nat) (a b : Run), i ≤ j → locals.runs[i]? = some a →
      locals.runs[j]? = some b → decide (b.first ≤ g) = true → decide (a.first ≤ g) = true := by
    intro i j a b hij ha hb h
    rw [decide_eq_true_eq] at h ⊢
    rcases Nat.lt_or_eq_of_le hij with hij | rfl
    · have := end_le_first hdisjoint hij ha hb
      omega
    · rw [ha] at hb
      cases hb
      exact h
  simpa using Search.lastIndex?_eq_some_iff hdown

theorem contains_iff_holds : locals.contains g = true ↔ locals.Holds g := by
  unfold contains Holds
  constructor
  · intro h
    split at h
    · rename_i i hi
      obtain ⟨⟨run, hrun, hle⟩, -⟩ := (lastIndex?_first_eq_some_iff hdisjoint).1 hi
      rw [hrun, Option.any_some, decide_eq_true_eq] at h
      exact ⟨run, Array.mem_of_getElem? hrun, hle, h⟩
    · cases h
  · rintro ⟨run, hrun, hle, hlt⟩
    obtain ⟨i, hi⟩ := Array.mem_iff_getElem?.1 hrun
    have hlast := (lastIndex?_first_eq_some_iff hdisjoint).2
      ⟨⟨run, hi, hle⟩, fun j b hij hb => Nat.lt_of_lt_of_le hlt (end_le_first hdisjoint hij hi hb)⟩
    simp [hlast, hi, hlt]

end Lookup

theorem Within.contains_iff (within : locals.Within limit) :
    locals.contains g = true ↔ locals.Holds g :=
  contains_iff_holds within.disjoint

end CompactIds.LocalRuns
