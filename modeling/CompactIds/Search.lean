/-!
# Binary search

A test that holds up to some index and fails from there on has a boundary,
which is found by halving.
-/

namespace CompactIds.Search

/-- The first index from `lo` on, and before `hi`, at which the test fails. -/
def boundary (p : Nat → Bool) (lo hi : Nat) : Nat :=
  if lo < hi then
    if p (lo + (hi - lo) / 2) then boundary p (lo + (hi - lo) / 2 + 1) hi
    else boundary p lo (lo + (hi - lo) / 2)
  else lo
termination_by hi - lo

def last? (p : Nat → Bool) (n : Nat) : Option Nat :=
  match boundary p 0 n with
  | 0 => none
  | i + 1 => some i

def lastIndex? {α : Type} (p : α → Bool) (xs : Array α) : Option Nat :=
  last? (fun i => xs[i]?.any p) xs.size

theorem boundary_le (p : Nat → Bool) {lo hi : Nat} (h : lo ≤ hi) :
    lo ≤ boundary p lo hi ∧ boundary p lo hi ≤ hi := by
  fun_induction boundary p lo hi with
  | case1 lo hi hlt hp ih => have := ih (by omega); omega
  | case2 lo hi hlt hp ih => have := ih (by omega); omega
  | case3 lo hi hge => omega

theorem boundary_spec {p : Nat → Bool} {lo hi : Nat}
    (down : ∀ i j, i ≤ j → j < hi → p j = true → p i = true) :
    (∀ i, lo ≤ i → i < boundary p lo hi → p i = true) ∧
      ∀ i, boundary p lo hi ≤ i → i < hi → p i = false := by
  fun_induction boundary p lo hi with
  | case1 lo hi hlt hp ih =>
      obtain ⟨before, after⟩ := ih down
      refine ⟨fun i _ hi' => ?_, after⟩
      by_cases hmid : i ≤ lo + (hi - lo) / 2
      · exact down _ _ hmid (by omega) hp
      · exact before i (by omega) hi'
  | case2 lo hi hlt hp ih =>
      obtain ⟨before, after⟩ := ih fun i j hij hj => down i j hij (by omega)
      refine ⟨before, fun i hb hi' => ?_⟩
      by_cases hmid : i < lo + (hi - lo) / 2
      · exact after i hb hmid
      · cases hpi : p i with
        | false => rfl
        | true => exact absurd (down _ _ (by omega) hi' hpi) hp
  | case3 lo hi hge => exact ⟨fun i _ _ => by omega, fun i _ _ => by omega⟩

section LastIndex

variable {α : Type} {p : α → Bool} {xs : Array α} {k : Nat}

private theorem lt_boundary_iff
    (down : ∀ (i j : Nat) (x y : α), i ≤ j → xs[i]? = some x → xs[j]? = some y →
      p y = true → p x = true) :
    k < boundary (fun i => xs[i]?.any p) 0 xs.size ↔ ∃ x, xs[k]? = some x ∧ p x = true := by
  have hle := (boundary_le (fun i => xs[i]?.any p) (Nat.zero_le xs.size)).2
  have hdown : ∀ i j, i ≤ j → j < xs.size → xs[j]?.any p = true → xs[i]?.any p = true := by
    intro i j hij hj h
    obtain ⟨y, hy, hpy⟩ := (Option.any_eq_true _ _).1 h
    have hx := Array.getElem?_eq_getElem (Nat.lt_of_le_of_lt hij hj)
    rw [hx]
    exact down i j _ y hij hx hy hpy
  obtain ⟨before, after⟩ := @boundary_spec _ 0 _ hdown
  constructor
  · intro hlt
    simpa [Option.any_eq_true] using before k (Nat.zero_le k) hlt
  · rintro ⟨x, hx, hpx⟩
    apply Nat.lt_of_not_le
    intro hge
    have hk : k < xs.size := (Array.getElem?_eq_some_iff.1 hx).1
    have hfalse := after k hge hk
    rw [hx, Option.any_some, hpx] at hfalse
    cases hfalse

/-- The test must pass for all elements in front of one that passes. -/
theorem lastIndex?_eq_some_iff
    (down : ∀ (i j : Nat) (x y : α), i ≤ j → xs[i]? = some x → xs[j]? = some y →
      p y = true → p x = true) :
    lastIndex? p xs = some k ↔
      (∃ x, xs[k]? = some x ∧ p x = true) ∧
        ∀ j y, k < j → xs[j]? = some y → p y = false := by
  have hlast : lastIndex? p xs = some k ↔
      boundary (fun i => xs[i]?.any p) 0 xs.size = k + 1 := by
    unfold lastIndex? last?
    split
    · rename_i hzero
      simp [hzero]
    · rename_i i hi
      simp [hi]
  rw [hlast, ← lt_boundary_iff down]
  constructor
  · intro hb
    refine ⟨by omega, fun j y hj hy => ?_⟩
    cases hpy : p y with
    | false => rfl
    | true =>
        have := (lt_boundary_iff down).2 ⟨y, hy, hpy⟩
        omega
  · rintro ⟨hk, hafter⟩
    apply Decidable.byContradiction
    intro hne
    obtain ⟨y, hy, hpy⟩ := (lt_boundary_iff down).1 (show k + 1 < _ by omega)
    rw [hafter _ y (Nat.lt_succ_self k) hy] at hpy
    cases hpy

end LastIndex

end CompactIds.Search
