import CompactIds.CompactId
import CompactIds.Search

/-!
# Runs of local ids

An id that was handed out by its generation keeps that form in its session for
good, also after it was finalized.  Which generations these are is recorded as
ascending runs that do not overlap.
-/

namespace CompactIds

structure Run where
  first : Nat
  count : Nat
  deriving DecidableEq, Repr

structure LocalRuns where
  runs : Array Run
  deriving DecidableEq, Repr

namespace LocalRuns

def empty : LocalRuns :=
  ⟨#[]⟩

/-- No run is empty, none starts before `next` or before the end of the run
ahead of it, and every end fits a word. -/
def ascendingFrom (next : Nat) : List Run → Bool
  | [] => true
  | run :: runs =>
      run.count ≠ 0 && next ≤ run.first && run.first + run.count < wordLimit &&
        ascendingFrom (run.first + run.count) runs

def ofList? (runs : List Run) : Option LocalRuns :=
  if ascendingFrom 1 runs then some ⟨runs.toArray⟩ else none

/-- Appends a run; one that starts where the last one ends is joined to it. -/
def add (locals : LocalRuns) (first count : Nat) : LocalRuns :=
  match locals.runs.back? with
  | some last =>
      if last.first + last.count = first then
        ⟨locals.runs.pop.push ⟨last.first, last.count + count⟩⟩
      else ⟨locals.runs.push ⟨first, count⟩⟩
  | none => ⟨#[⟨first, count⟩]⟩

def contains (locals : LocalRuns) (generation : Nat) : Bool :=
  match Search.lastIndex? (fun run => run.first ≤ generation) locals.runs with
  | some i => locals.runs[i]?.any fun run => generation < run.first + run.count
  | none => false

end LocalRuns

end CompactIds
