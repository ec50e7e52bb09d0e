import CompactIds.CompactId
import CompactIds.Search
import Mathlib.Tactic.Common

/-!
# Checked words

On a machine every counter is a word and every list an array.  A checked
computation does what a machine does, one operation after another, and traps
where a sum or a difference leaves its type, an index is out of bounds, or an id
is made that no signed word can hold.
-/

namespace CompactIds

inductive Trap where
  | overflow
  | underflow
  | outOfBounds
  | generation
  | final
  deriving DecidableEq, Repr

abbrev Checked (α : Type) := Except Trap α

namespace Checked

@[simp] theorem ok_bind {α β : Type} (a : α) (f : α → Checked β) : (Except.ok a >>= f) = f a :=
  rfl

@[simp] theorem pure_eq {α : Type} (a : α) : (pure a : Checked α) = .ok a :=
  rfl

@[simp] theorem map_ok {α β : Type} (f : α → β) (a : α) :
    (f <$> (.ok a : Checked α)) = .ok (f a) :=
  rfl

def wideLimit : Nat := 1 <<< 128

def signedLimit : Nat := 1 <<< 63

def addWord (a b : Nat) : Checked Nat :=
  if a + b < wordLimit then .ok (a + b) else .error .overflow

def subWord (a b : Nat) : Checked Nat :=
  if b ≤ a then .ok (a - b) else .error .underflow

/-- A sum that is compared with the greatest id; it is none if it leaves its word. -/
def fitsId (a b : Nat) : Bool :=
  a + b < wordLimit && a + b ≤ idLimit

def addWide (a b : Nat) : Checked Nat :=
  if a + b < wideLimit then .ok (a + b) else .error .overflow

/-- The signed word with the same bits. -/
def signed (n : Nat) : Int :=
  if n < signedLimit then n else (n : Int) - wordLimit

def subSigned (a b : Int) : Checked Int :=
  if -(signedLimit : Int) ≤ a - b ∧ a - b < signedLimit then .ok (a - b) else .error .underflow

def subWideSigned (a b : Int) : Checked Int :=
  if -((1 <<< 127 : Nat) : Int) ≤ a - b ∧ a - b < (1 <<< 127 : Nat) then .ok (a - b)
  else .error .underflow

theorem addWord_eq {a b : Nat} (h : a + b < wordLimit) : addWord a b = .ok (a + b) :=
  if_pos h

theorem addWord_of_le {a b : Nat} (h : a + b ≤ idLimit) : addWord a b = .ok (a + b) :=
  addWord_eq (by simp only [wordLimit, idLimit] at *; omega)

theorem subWord_eq {a b : Nat} (h : b ≤ a) : subWord a b = .ok (a - b) :=
  if_pos h

theorem addWide_eq {a b : Nat} (h : a + b < wideLimit) : addWide a b = .ok (a + b) :=
  if_pos h

@[simp] theorem fitsId_eq (a b : Nat) : fitsId a b = decide (a + b ≤ idLimit) := by
  have hlimit : idLimit < wordLimit := by decide
  rw [Bool.eq_iff_iff, fitsId, Bool.and_eq_true, decide_eq_true_eq, decide_eq_true_eq]
  omega

theorem subSigned_signed {n : Nat} (hpos : 1 ≤ n) (h : n ≤ idLimit) :
    subSigned (signed n) 1 = .ok ((n : Int) - 1) := by
  have hsigned : signed n = n := if_pos (by simp only [signedLimit, idLimit] at *; omega)
  rw [hsigned]
  exact if_pos (by simp only [signedLimit, idLimit] at *; omega)

def localId (generation : Nat) : Checked Nat :=
  if 0 < generation ∧ generation ≤ idLimit then .ok generation else .error .generation

def finalId (final : Nat) : Checked Nat :=
  if final ≤ idLimit then .ok final else .error .final

def offsetFinal (final delta : Nat) : Checked Nat := do
  finalId (← addWord final delta)

theorem localId_eq {generation : Nat} (hpos : 0 < generation) (h : generation ≤ idLimit) :
    localId generation = .ok generation :=
  if_pos ⟨hpos, h⟩

theorem offsetFinal_eq {final delta : Nat} (h : final + delta ≤ idLimit) :
    offsetFinal final delta = .ok (final + delta) := by
  simp [offsetFinal, addWord_of_le h, finalId, h]

theorem lt_size_of_lastIndex? {α : Type} {p : α → Bool} {xs : Array α} {k : Nat}
    (h : Search.lastIndex? p xs = some k) : k < xs.size := by
  have hle := (Search.boundary_le (fun i => xs[i]?.any p) (Nat.zero_le xs.size)).2
  unfold Search.lastIndex? Search.last? at h
  split at h
  · cases h
  · cases h
    omega

section Lists

variable {α β : Type}

def element (xs : Array α) (i : Nat) : Checked α :=
  match xs[i]? with
  | some x => .ok x
  | none => .error .outOfBounds

theorem element_eq {xs : Array α} {i : Nat} {x : α} (h : xs[i]? = some x) :
    element xs i = .ok x := by
  simp [element, h]

def boundary (p : Nat → Checked Bool) (lo hi : Nat) : Checked Nat :=
  if lo < hi then do
    if ← p (lo + (hi - lo) / 2) then boundary p (lo + (hi - lo) / 2 + 1) hi
    else boundary p lo (lo + (hi - lo) / 2)
  else pure lo
termination_by hi - lo

theorem boundary_eq {p : Nat → Checked Bool} {q : Nat → Bool} {lo hi : Nat}
    (h : ∀ i, i < hi → p i = .ok (q i)) : boundary p lo hi = .ok (Search.boundary q lo hi) := by
  fun_induction Search.boundary q lo hi with
  | case1 lo hi hlt hq ih =>
      rw [boundary, if_pos hlt, h _ (by omega), hq]
      exact ih h
  | case2 lo hi hlt hq ih =>
      rw [boundary, if_pos hlt, h _ (by omega), Bool.eq_false_iff.2 hq]
      exact ih fun i hi => h i (by omega)
  | case3 lo hi hge => rw [boundary, if_neg hge, pure_eq]

def lastIndex? (p : α → Checked Bool) (xs : Array α) : Checked (Option Nat) := do
  match ← boundary (fun i => do p (← element xs i)) 0 xs.size with
  | 0 => pure none
  | i + 1 => pure (some i)

theorem lastIndex?_eq {p : α → Checked Bool} {q : α → Bool} {xs : Array α}
    (h : ∀ x ∈ xs, p x = .ok (q x)) : lastIndex? p xs = .ok (Search.lastIndex? q xs) := by
  have hp : ∀ i, i < xs.size → (do p (← element xs i)) = .ok (xs[i]?.any q) := by
    intro i hi
    have hx : xs[i]? = some xs[i] := Array.getElem?_eq_getElem hi
    simp [element_eq hx, hx, h _ (Array.getElem_mem hi)]
  rw [lastIndex?, boundary_eq hp]
  unfold Search.lastIndex? Search.last?
  cases Search.boundary (fun i => xs[i]?.any q) 0 xs.size <;> rfl

theorem lastIndex?_pure (q : α → Bool) (xs : Array α) :
    lastIndex? (fun x => pure (q x)) xs = .ok (Search.lastIndex? q xs) :=
  lastIndex?_eq fun _ _ => rfl

def findSome? (f : α → Checked (Option β)) : List α → Checked (Option β)
  | [] => pure none
  | a :: as => do
      match ← f a with
      | some b => pure (some b)
      | none => findSome? f as

theorem findSome?_eq {f : α → Checked (Option β)} {g : α → Option β} {as : List α}
    (h : ∀ a ∈ as, f a = .ok (g a)) : findSome? f as = .ok (as.findSome? g) := by
  induction as with
  | nil => rfl
  | cons a as ih =>
      rw [List.forall_mem_cons] at h
      cases hg : g a <;> simp [findSome?, h.1, hg, ih h.2]

def find? (p : α → Checked Bool) : List α → Checked (Option α)
  | [] => pure none
  | a :: as => do if ← p a then pure (some a) else find? p as

theorem find?_eq {p : α → Checked Bool} {q : α → Bool} {as : List α}
    (h : ∀ a ∈ as, p a = .ok (q a)) : find? p as = .ok (as.find? q) := by
  induction as with
  | nil => rfl
  | cons a as ih =>
      rw [List.forall_mem_cons] at h
      cases hq : q a <;> simp [find?, h.1, hq, ih h.2]

theorem mapM_eq {f : α → Checked β} {g : α → β} {as : List α}
    (h : ∀ a ∈ as, f a = .ok (g a)) : as.mapM f = .ok (as.map g) := by
  induction as with
  | nil => rfl
  | cons a as ih =>
      rw [List.forall_mem_cons] at h
      simp [h.1, ih h.2]

def all (p : α → Checked Bool) : List α → Checked Bool
  | [] => pure true
  | a :: as => do if ← p a then all p as else pure false

theorem all_eq {p : α → Checked Bool} {q : α → Bool} {as : List α}
    (h : ∀ a ∈ as, p a = .ok (q a)) : all p as = .ok (as.all q) := by
  induction as with
  | nil => rfl
  | cons a as ih =>
      rw [List.forall_mem_cons] at h
      cases hq : q a <;> simp [all, h.1, hq, ih h.2]

end Lists

end Checked

end CompactIds
