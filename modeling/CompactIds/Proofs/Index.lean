import CompactIds.Registry.Neighbour
import Mathlib.Data.List.Sort

/-!
# Looking sessions up by position

The index is a finite map from positions to places.  It is determined by what
it finds, and a scan from some position downwards stops at the highest entry
that passes the scan.
-/

namespace CompactIds

namespace Position

theorem le_iff {a b : Position} : a ≤ b ↔ a.val ≤ b.val := Iff.rfl

end Position

theorem StableId.position_injective {a b : StableId} (h : a.position = b.position) :
    a = b := by
  rw [← a.toStableId_position, h, b.toStableId_position]

namespace PositionIndex

private theorem eq_of_mem {es : List (Position × Nat)}
    (descending : es.Pairwise fun a b => b.1 < a.1) {p : Position} {i j : Nat}
    (hi : (p, i) ∈ es) (hj : (p, j) ∈ es) : i = j := by
  induction es with
  | nil => cases hi
  | cons e es ih =>
      obtain ⟨below, rest⟩ := List.pairwise_cons.1 descending
      rcases List.mem_cons.1 hi with rfl | hi' <;> rcases List.mem_cons.1 hj with hj' | hj'
      · exact (congrArg Prod.snd hj').symm
      · exact absurd (below _ hj') (Nat.lt_irrefl _)
      · subst hj'
        exact absurd (below _ hi') (Nat.lt_irrefl _)
      · exact ih rest hi' hj'

theorem find?_eq_some_iff {index : PositionIndex} {p : Position} {place : Nat} :
    index.find? p = some place ↔ (p, place) ∈ index.entries := by
  unfold find?
  constructor
  · intro h
    obtain ⟨⟨q, i⟩, hfind, rfl⟩ := Option.map_eq_some_iff.1 h
    have hq : q = p := by simpa using List.find?_some hfind
    exact hq ▸ List.mem_of_find?_eq_some hfind
  · intro h
    cases hfind : index.entries.find? fun e => e.1 = p with
    | none => simpa using List.find?_eq_none.1 hfind _ h
    | some e =>
        have hq : e.1 = p := by simpa using List.find?_some hfind
        have he : (p, e.2) ∈ index.entries := hq ▸ List.mem_of_find?_eq_some hfind
        rw [Option.map_some, eq_of_mem index.descending he h]

theorem ext_find? {index other : PositionIndex} (h : ∀ p, index.find? p = other.find? p) :
    index = other := by
  have hmem : ∀ e, e ∈ index.entries ↔ e ∈ other.entries := by
    rintro ⟨p, place⟩
    rw [← find?_eq_some_iff, h, find?_eq_some_iff]
  have : Std.Irrefl fun a b : Position × Nat => b.1 < a.1 := ⟨fun a => Nat.lt_irrefl a.1.val⟩
  have : Std.Antisymm fun a b : Position × Nat => b.1 < a.1 :=
    ⟨fun a b hab hba => absurd (Nat.lt_trans hab hba) (Nat.lt_irrefl _)⟩
  have hentries := index.descending.eq_of_mem_iff other.descending hmem
  cases index
  cases other
  simp_all

@[simp] theorem find?_empty (p : Position) : empty.find? p = none := rfl

private theorem find?_insertEntry (p q : Position) (place : Nat)
    (es : List (Position × Nat)) :
    ((insertEntry (p, place) es).find? fun e => e.1 = q).map (·.2) =
      if p = q then some place else (es.find? fun e => e.1 = q).map (·.2) := by
  induction es with
  | nil => by_cases h : p = q <;> simp [insertEntry, h]
  | cons e es ih =>
      simp only [insertEntry]
      split
      · by_cases h : p = q <;> simp [h]
      · split
        · rename_i heq
          by_cases h : p = q
          · simp [h]
          · simp [heq, h]
        · rename_i heq
          by_cases he : e.1 = q
          · have hp : ¬ p = q := fun hp => heq (he.trans hp.symm)
            simp [he, hp]
          · simp only [List.find?_cons, he, decide_false]
            exact ih

theorem find?_insert (index : PositionIndex) (p q : Position) (place : Nat) :
    (index.insert p place).find? q = if p = q then some place else index.find? q :=
  find?_insertEntry p q place index.entries

private theorem entries_foldr_insert {es : List (Position × Nat)}
    (descending : es.Pairwise fun a b => b.1 < a.1) :
    (es.foldr (fun e built => built.insert e.1 e.2) empty : PositionIndex).entries = es := by
  induction es with
  | nil => rfl
  | cons e es ih =>
      obtain ⟨below, rest⟩ := List.pairwise_cons.1 descending
      rw [List.foldr_cons]
      change insertEntry e (List.foldr _ _ es : PositionIndex).entries = e :: es
      rw [ih rest]
      cases es with
      | nil => rfl
      | cons a es => simp [insertEntry, below a]

@[simp] theorem rebuild_eq (index : PositionIndex) : index.rebuild = index := by
  apply ext_find?
  intro p
  unfold find? rebuild
  rw [entries_foldr_insert index.descending]

private theorem upTo_eq_filter (index : PositionIndex) (p : Position) :
    index.upTo p = (index.entries.filter fun e => e.1 ≤ p).map (·.2) := by
  unfold upTo
  congr 1
  have descending := index.descending
  generalize index.entries = es at descending
  induction es with
  | nil => rfl
  | cons e es ih =>
      obtain ⟨below, rest⟩ := List.pairwise_cons.1 descending
      by_cases hp : p < e.1
      · have hnot : ¬ e.1 ≤ p := Nat.not_le.2 hp
        rw [List.dropWhile_cons_of_pos (by simpa using hp), ih rest]
        simp [hnot]
      · have hall : ∀ e' ∈ e :: es, e'.1 ≤ p := by
          intro e' he'
          rcases List.mem_cons.1 he' with rfl | he'
          · exact Nat.not_lt.1 hp
          · exact Nat.le_trans (Nat.le_of_lt (below e' he')) (Nat.not_lt.1 hp)
        rw [List.dropWhile_cons_of_neg (by simpa using hp),
          List.filter_eq_self.2 fun e' he' => by simpa using hall e' he']

private theorem findSome?_descending {α : Type} {es : List (Position × Nat)}
    (descending : es.Pairwise fun a b => b.1 < a.1) (f : Nat → Option α) (a : α) :
    (es.map (·.2)).findSome? f = some a ↔
      ∃ e ∈ es, f e.2 = some a ∧ ∀ e' ∈ es, (f e'.2).isSome → e'.1 ≤ e.1 := by
  induction es with
  | nil => simp
  | cons e es ih =>
      obtain ⟨below, rest⟩ := List.pairwise_cons.1 descending
      rw [List.map_cons, List.findSome?_cons]
      cases hf : f e.2 with
      | some b =>
          constructor
          · rintro ⟨⟩
            refine ⟨e, List.mem_cons_self, hf, fun e' he' _ => ?_⟩
            rcases List.mem_cons.1 he' with rfl | he'
            · exact Nat.le_refl _
            · exact Nat.le_of_lt (below e' he')
          · rintro ⟨e', he', hf', hmax⟩
            rcases List.mem_cons.1 he' with rfl | hmem
            · rw [← hf, hf']
            · have hge := hmax e List.mem_cons_self (by simp [hf])
              exact absurd (below e' hmem) (Nat.not_lt.2 hge)
      | none =>
          simp only [ih rest, List.mem_cons, exists_eq_or_imp, forall_eq_or_imp, hf]
          simp

theorem findSome?_upTo_eq_some_iff {α : Type} {index : PositionIndex} {p : Position}
    {f : Nat → Option α} {a : α} :
    (index.upTo p).findSome? f = some a ↔
      ∃ q place, index.find? q = some place ∧ q ≤ p ∧ f place = some a ∧
        ∀ q' place', index.find? q' = some place' → q' ≤ p → (f place').isSome → q' ≤ q := by
  rw [upTo_eq_filter, findSome?_descending (index.descending.filter _)]
  simp only [find?_eq_some_iff, Prod.exists, Prod.forall, List.mem_filter, decide_eq_true_eq,
    and_assoc, and_imp]

theorem findSome?_upTo_eq_none_iff {α : Type} {index : PositionIndex} {p : Position}
    {f : Nat → Option α} :
    (index.upTo p).findSome? f = none ↔
      ∀ q place, index.find? q = some place → q ≤ p → f place = none := by
  rw [upTo_eq_filter, List.findSome?_eq_none_iff]
  simp only [find?_eq_some_iff, List.mem_map, List.mem_filter, decide_eq_true_eq, Prod.exists]
  constructor
  · intro h q place hmem hle
    exact h place ⟨q, place, ⟨hmem, hle⟩, rfl⟩
  · rintro h _ ⟨q, place, ⟨hmem, hle⟩, rfl⟩
    exact h q place hmem hle

end PositionIndex

end CompactIds
