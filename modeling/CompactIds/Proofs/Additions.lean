import CompactIds.Proofs.Words.Peer
import Mathlib.Order.Bounds.Basic

/-!
# Additions to the runs

A record of runs holds the generations it was read with and those that were
added, and no others.  Additions alone never leave two runs side by side, so
which generations were added settles the record, and how they were added does
not.
-/

namespace CompactIds.LocalRuns

open Checked

variable {locals : LocalRuns} {run run' : Run} {runs runs' added added' : List Run}
variable {first count g least least' gap limit limit' : Nat}

def generations (runs : List Run) : Set Nat :=
  {g | ∃ run ∈ runs, run.first ≤ g ∧ g < run.first + run.count}

/-- A run that may be added is not empty, starts where the last one ends or later,
and has an end that fits a word. -/
structure Admits (locals : LocalRuns) (run : Run) : Prop where
  nonempty : 0 < run.count
  behind : ∀ last ∈ locals.runs.back?, last.first + last.count ≤ run.first
  fits : run.first + run.count < wordLimit

instance (locals : LocalRuns) (run : Run) : Decidable (locals.Admits run) :=
  decidable_of_iff (0 < run.count ∧
      (∀ last ∈ locals.runs.back?, last.first + last.count ≤ run.first) ∧
      run.first + run.count < wordLimit)
    ⟨fun ⟨nonempty, behind, fits⟩ => ⟨nonempty, behind, fits⟩,
      fun ⟨nonempty, behind, fits⟩ => ⟨nonempty, behind, fits⟩⟩

def addAll (locals : LocalRuns) (added : List Run) : LocalRuns :=
  added.foldl (fun locals run => locals.add run.first run.count) locals

def checkedAddAll (locals : LocalRuns) (added : List Run) : Checked LocalRuns :=
  added.foldlM (fun locals run => locals.checkedAdd run.first run.count) locals

def AdmitsAll : LocalRuns → List Run → Prop
  | _, [] => True
  | locals, run :: added =>
      locals.Admits run ∧ (locals.add run.first run.count).AdmitsAll added

instance decidableAdmitsAll : (locals : LocalRuns) → (added : List Run) →
    Decidable (locals.AdmitsAll added)
  | _, [] => .isTrue trivial
  | locals, run :: added =>
      have := decidableAdmitsAll (locals.add run.first run.count) added
      inferInstanceAs (Decidable (_ ∧ _))

theorem generations_nil : generations [] = ∅ := by
  simp [generations]

theorem mem_generations_cons :
    g ∈ generations (run :: runs) ↔
      (run.first ≤ g ∧ g < run.first + run.count) ∨ g ∈ generations runs := by
  simp [generations]

theorem mem_generations_append :
    g ∈ generations (runs ++ runs') ↔ g ∈ generations runs ∨ g ∈ generations runs' := by
  simp [generations, or_and_right, exists_or]

theorem holds_iff_mem_generations : locals.Holds g ↔ g ∈ generations locals.runs.toList := by
  simp [Holds, generations]

theorem holds_addAll (locals : LocalRuns) (added : List Run) (g : Nat) :
    (locals.addAll added).Holds g ↔ locals.Holds g ∨ g ∈ generations added := by
  induction added generalizing locals with
  | nil => simp [addAll, generations_nil]
  | cons run added ih =>
      change ((locals.add run.first run.count).addAll added).Holds g ↔ _
      rw [ih, holds_add, mem_generations_cons, or_assoc]

theorem generations_addAll (locals : LocalRuns) (added : List Run) :
    generations (locals.addAll added).runs.toList = generations (locals.runs.toList ++ added) := by
  ext g
  rw [← holds_iff_mem_generations, holds_addAll, mem_generations_append,
    holds_iff_mem_generations]

theorem add_ne_empty (locals : LocalRuns) (first count : Nat) :
    (locals.add first count).runs ≠ #[] := by
  unfold LocalRuns.add
  cases locals.runs.back? with
  | none => simp
  | some last => by_cases hjoin : last.first + last.count = first <;> simp [hjoin]

theorem Admits.spaced (admits : locals.Admits run) (hgap : gap ≤ 1)
    (spaced : Spaced least gap wordLimit locals.runs.toList)
    (hleast : locals.runs = #[] → least ≤ run.first) :
    Spaced least gap wordLimit (locals.add run.first run.count).runs.toList :=
  spaced.add hgap hleast admits.behind admits.nonempty admits.fits

theorem AdmitsAll.spaced (admits : locals.AdmitsAll added) (hgap : gap ≤ 1)
    (spaced : Spaced least gap wordLimit locals.runs.toList)
    (hleast : locals.runs = #[] → ∀ run ∈ added, least ≤ run.first) :
    Spaced least gap wordLimit (locals.addAll added).runs.toList := by
  induction added generalizing locals with
  | nil => exact spaced
  | cons run added ih =>
      have hnext := admits.1.spaced hgap spaced fun h => hleast h run (List.mem_cons_self ..)
      -- Only the first run of all can start too early: each later one lies behind it.
      exact ih admits.2 hnext fun h => absurd h (add_ne_empty locals run.first run.count)

theorem AdmitsAll.spaced_empty (admits : empty.AdmitsAll added) :
    Spaced 0 1 wordLimit (empty.addAll added).runs.toList :=
  admits.spaced (Nat.le_refl 1) spaced_nil fun _ _ _ => Nat.zero_le _

theorem AdmitsAll.nonempty (admits : locals.AdmitsAll added) : ∀ run ∈ added, 0 < run.count := by
  induction added generalizing locals with
  | nil => nofun
  | cons run added ih => exact List.forall_mem_cons.2 ⟨admits.1.nonempty, ih admits.2⟩

theorem AdmitsAll.positive_iff (admits : locals.AdmitsAll added)
    (spaced : Spaced 1 gap wordLimit locals.runs.toList) (hgap : gap ≤ 1) :
    (∀ run ∈ (locals.addAll added).runs, 1 ≤ run.first) ↔
      (locals.runs = #[] → ∀ run ∈ added, 1 ≤ run.first) := by
  constructor
  · intro hpositive _ run hrun
    -- The run may have been joined to another one, but some run holds where it starts.
    have hstart : run.first ∈ generations added :=
      ⟨run, hrun, Nat.le_refl _, Nat.lt_add_of_pos_right (admits.nonempty run hrun)⟩
    obtain ⟨holder, hholder, hle, -⟩ :=
      (holds_addAll locals added run.first).2 (.inr hstart)
    exact Nat.le_trans (hpositive holder hholder) hle
  · intro hleast run hrun
    exact (admits.spaced hgap spaced hleast).least_le run (by simpa using hrun)

theorem contains_iff_mem_generations (spaced : Spaced least gap limit locals.runs.toList) :
    locals.contains g = true ↔ g ∈ generations locals.runs.toList := by
  rw [← holds_iff_mem_generations]
  exact contains_iff_holds (spaced.apart.imp fun h => Nat.le_trans (Nat.le_add_right ..) h)

theorem AdmitsAll.checkedAddAll_eq (admits : locals.AdmitsAll added)
    (spaced : Spaced 0 0 wordLimit locals.runs.toList) :
    locals.checkedAddAll added = .ok (locals.addAll added) := by
  induction added generalizing locals with
  | nil => rfl
  | cons run added ih =>
      have hadd := checkedAdd_eq (fun run hrun => spaced.bounded run (by simpa using hrun))
        admits.1.behind admits.1.fits
      have hnext := admits.1.spaced (Nat.zero_le 1) spaced fun _ => Nat.zero_le _
      rw [checkedAddAll, List.foldlM_cons, hadd, ok_bind]
      exact ih admits.2 hnext

theorem Spaced.le_of_mem (spaced : Spaced least gap limit runs) (hg : g ∈ generations runs) :
    least ≤ g := by
  obtain ⟨run, hrun, hle, -⟩ := hg
  exact Nat.le_trans (spaced.least_le run hrun) hle

theorem Spaced.isLeast_first (spaced : Spaced least gap limit (run :: runs)) :
    IsLeast (generations (run :: runs)) run.first := by
  obtain ⟨⟨hcount, -, -⟩, spaced⟩ := spaced_cons.1 spaced
  refine ⟨mem_generations_cons.2 (.inl (by omega)), fun g hg => ?_⟩
  rcases mem_generations_cons.1 hg with hg | hg
  · exact hg.1
  · have := spaced.le_of_mem hg
    omega

/-- The first run ends at the first generation behind its start that is missing. -/
theorem Spaced.isLeast_end (spaced : Spaced least 1 limit (run :: runs)) :
    IsLeast {g | run.first ≤ g ∧ g ∉ generations (run :: runs)} (run.first + run.count) := by
  obtain ⟨-, spaced⟩ := spaced_cons.1 spaced
  refine ⟨⟨Nat.le_add_right .., fun hg => ?_⟩, fun g hg => ?_⟩
  · rcases mem_generations_cons.1 hg with hg | hg
    · omega
    · have := spaced.le_of_mem hg
      omega
  · obtain ⟨hle, hmissing⟩ := hg
    rw [mem_generations_cons, not_or] at hmissing
    omega

theorem Spaced.mem_tail_iff (spaced : Spaced least gap limit (run :: runs)) :
    g ∈ generations runs ↔ g ∈ generations (run :: runs) ∧ run.first + run.count ≤ g := by
  obtain ⟨-, spaced⟩ := spaced_cons.1 spaced
  rw [mem_generations_cons]
  constructor
  · intro hg
    have := spaced.le_of_mem hg
    exact ⟨.inr hg, by omega⟩
  · rintro ⟨hg | hg, hle⟩
    · omega
    · exact hg

theorem Spaced.eq_of_generations_eq (spaced : Spaced least 1 limit runs)
    (spaced' : Spaced least' 1 limit' runs') (h : generations runs = generations runs') :
    runs = runs' := by
  induction runs generalizing runs' least least' with
  | nil =>
      cases runs' with
      | nil => rfl
      | cons run' runs' =>
          rw [generations_nil] at h
          exact absurd h.symm spaced'.isLeast_first.nonempty.ne_empty
  | cons run runs ih =>
      cases runs' with
      | nil =>
          rw [generations_nil] at h
          exact absurd h spaced.isLeast_first.nonempty.ne_empty
      | cons run' runs' =>
          have hfirst : run.first = run'.first :=
            spaced.isLeast_first.unique (h ▸ spaced'.isLeast_first)
          have hend : run.first + run.count = run'.first + run'.count := by
            refine spaced.isLeast_end.unique ?_
            rw [h, hfirst]
            exact spaced'.isLeast_end
          have htail : generations runs = generations runs' := by
            ext g
            rw [spaced.mem_tail_iff, spaced'.mem_tail_iff, h, hend]
          have hcount : run.count = run'.count := by omega
          have hrun : run = run' := congrArg₂ Run.mk hfirst hcount
          rw [hrun, ih (spaced_cons.1 spaced).2 (spaced_cons.1 spaced').2 htail]

theorem AdmitsAll.addAll_eq_iff (admits : empty.AdmitsAll added)
    (admits' : empty.AdmitsAll added') :
    empty.addAll added = empty.addAll added' ↔ generations added = generations added' := by
  have hgenerations : ∀ added, generations (empty.addAll added).runs.toList = generations added :=
    fun added => generations_addAll empty added
  constructor
  · intro h
    rw [← hgenerations added, h, hgenerations]
  · intro h
    have hruns := admits.spaced_empty.eq_of_generations_eq admits'.spaced_empty
      (by rw [hgenerations, hgenerations, h])
    exact congrArg LocalRuns.mk (Array.toList_inj.1 hruns)

/-- Reading takes the lists whose runs are in order, and no others.  A record holds what
it was read with and what was added, in runs that stay in order, and no sum leaves its
word.  The runs start from 1 exactly if the record was not empty before or nothing that
is added starts at 0.  Records that are built by additions alone differ only if their
generations do. -/
theorem addAll_canonical :
    (∀ (runs : List Run) (locals : LocalRuns), ofList? runs = some locals ↔
      locals.runs.toList = runs ∧
        (∀ run ∈ runs, 0 < run.count ∧ 1 ≤ run.first ∧ run.first + run.count < wordLimit) ∧
        runs.Pairwise fun a b => a.first + a.count ≤ b.first) ∧
    (∀ (runs added : List Run) (loaded : LocalRuns), ofList? runs = some loaded →
      loaded.AdmitsAll added →
      let locals := loaded.addAll added
      (∀ g, locals.contains g = true ↔ g ∈ generations (runs ++ added)) ∧
        (∀ run ∈ locals.runs, 0 < run.count) ∧
        ((∀ run ∈ locals.runs, 1 ≤ run.first) ↔
          (runs = [] → ∀ run ∈ added, 1 ≤ run.first)) ∧
        (locals.runs.toList.Pairwise fun a b => a.first + a.count ≤ b.first) ∧
        loaded.checkedAddAll added = .ok locals ∧
        ∀ g, locals.checkedContains g = .ok (locals.contains g)) ∧
    (∀ added, empty.AdmitsAll added →
      (empty.addAll added).runs.toList.Pairwise fun a b => a.first + a.count < b.first) ∧
    ∀ added added', empty.AdmitsAll added → empty.AdmitsAll added' →
      (empty.addAll added = empty.addAll added' ↔ generations added = generations added') := by
  refine ⟨fun runs locals => ?_, fun runs added loaded hload admits => ?_,
    fun added admits => admits.spaced_empty.apart, fun _ _ => AdmitsAll.addAll_eq_iff⟩
  · rw [ofList?_eq_some_iff, spaced_iff]
    rfl
  · obtain ⟨hruns, hspaced⟩ := ofList?_eq_some_iff.1 hload
    rw [← hruns] at hspaced ⊢
    have hloose : Spaced 0 0 wordLimit loaded.runs.toList := hspaced.mono (Nat.zero_le 1)
    have spaced := admits.spaced (Nat.zero_le 1) hloose fun _ _ _ => Nat.zero_le _
    refine ⟨fun g => ?_, fun run hrun => spaced.nonempty run (by simpa using hrun),
      ?_, spaced.apart, admits.checkedAddAll_eq hloose, fun g => ?_⟩
    · rw [contains_iff_mem_generations spaced, generations_addAll]
    · rw [admits.positive_iff hspaced (Nat.zero_le 1), Array.toList_eq_nil_iff]
    · exact checkedContains_eq (fun run hrun => spaced.bounded run (by simpa using hrun)) g

/-- Generation 0 is no id, but a record that is empty accepts it as the start of its
first run. -/
theorem addAll_from_zero :
    let added : List Run := [⟨0, 1⟩]
    ofList? [] = some empty ∧ empty.AdmitsAll added ∧
      (empty.addAll added).runs = #[⟨0, 1⟩] ∧
      ¬ ∀ run ∈ (empty.addAll added).runs, 1 ≤ run.first := by
  decide

theorem addAll_canonical_split :
    let runs : List Run := [⟨1, 2⟩, ⟨3, 1⟩]
    let loaded : LocalRuns := ⟨#[⟨1, 2⟩, ⟨3, 1⟩]⟩
    let added : List Run := [⟨4, 2⟩, ⟨8, 1⟩]
    let whole : List Run := [⟨1, 5⟩, ⟨8, 1⟩]
    let split : List Run := [⟨1, 2⟩, ⟨3, 3⟩, ⟨8, 1⟩]
    ofList? runs = some loaded ∧ loaded.AdmitsAll added ∧
      (loaded.addAll added).runs = #[⟨1, 2⟩, ⟨3, 3⟩, ⟨8, 1⟩] ∧
      (loaded.addAll added).contains 5 = true ∧ (loaded.addAll added).contains 6 = false ∧
      (∀ run ∈ (loaded.addAll added).runs, 1 ≤ run.first) ∧
      empty.AdmitsAll whole ∧ empty.AdmitsAll split ∧
      empty.addAll whole = empty.addAll split ∧ (empty.addAll whole).runs = #[⟨1, 5⟩, ⟨8, 1⟩] := by
  intro runs loaded added whole split
  obtain ⟨reads, records, -, canonical⟩ := addAll_canonical
  have hload : ofList? runs = some loaded := (reads runs loaded).2 (by decide)
  have admits : loaded.AdmitsAll added := by decide
  have hwhole : empty.AdmitsAll whole := by decide
  have hsplit : empty.AdmitsAll split := by decide
  obtain ⟨contains, -, positive, -⟩ := records runs added loaded hload admits
  have hsame : generations whole = generations split := by
    ext g
    simp [generations, whole, split]
    omega
  refine ⟨hload, admits, rfl, (contains 5).2 ?_, ?_, positive.2 nofun, hwhole, hsplit,
    (canonical whole split hwhole hsplit).2 hsame, rfl⟩
  · exact ⟨⟨4, 2⟩, by decide⟩
  · rw [← Bool.not_eq_true, contains 6]
    simp [generations, runs, added]

end CompactIds.LocalRuns
