import CompactIds.StableId.Position

/-!
# The index of positions

Sessions are looked up by position.  The entries stand in descending order, so
the sessions at or below a position are the rest of the list from some point.
-/

namespace CompactIds

/-- Each entry pairs a position with a place in the registry. -/
structure PositionIndex where
  entries : List (Position × Nat)
  descending : entries.Pairwise fun a b => b.1 < a.1
  deriving DecidableEq, Repr

namespace PositionIndex

def empty : PositionIndex :=
  ⟨[], .nil⟩

/-- The entries with one more in its place; an entry of the same position is
replaced. -/
def insertEntry (entry : Position × Nat) : List (Position × Nat) → List (Position × Nat)
  | [] => [entry]
  | e :: es =>
      if e.1 < entry.1 then entry :: e :: es
      else if e.1 = entry.1 then entry :: es
      else e :: insertEntry entry es

theorem mem_insertEntry {entry e : Position × Nat} {es : List (Position × Nat)}
    (h : e ∈ insertEntry entry es) : e = entry ∨ e ∈ es := by
  induction es with
  | nil => simpa [insertEntry] using h
  | cons a es ih =>
      simp only [insertEntry] at h
      split at h
      · simpa using h
      · split at h
        · rcases List.mem_cons.1 h with h | h
          · exact .inl h
          · exact .inr (List.mem_cons_of_mem _ h)
        · rcases List.mem_cons.1 h with h | h
          · exact .inr (h ▸ List.mem_cons_self)
          · exact (ih h).imp_right (List.mem_cons_of_mem _)

theorem descending_insertEntry {entry : Position × Nat} {es : List (Position × Nat)}
    (h : es.Pairwise fun a b => b.1 < a.1) :
    (insertEntry entry es).Pairwise fun a b => b.1 < a.1 := by
  induction es with
  | nil => simp [insertEntry]
  | cons a es ih =>
      obtain ⟨below, rest⟩ := List.pairwise_cons.1 h
      simp only [insertEntry]
      split
      · rename_i hlt
        refine List.pairwise_cons.2 ⟨fun b hb => ?_, h⟩
        rcases List.mem_cons.1 hb with rfl | hb
        · exact hlt
        · exact Nat.lt_trans (below b hb) hlt
      · split
        · rename_i heq
          exact List.pairwise_cons.2 ⟨fun b hb => heq ▸ below b hb, rest⟩
        · rename_i hlt heq
          refine List.pairwise_cons.2 ⟨fun b hb => ?_, ih rest⟩
          rcases mem_insertEntry hb with rfl | hb
          · have : a.1.val ≠ b.1.val := fun h => heq (Position.ext h)
            have : ¬ a.1.val < b.1.val := hlt
            show b.1.val < a.1.val
            omega
          · exact below b hb

def insert (index : PositionIndex) (p : Position) (place : Nat) : PositionIndex :=
  ⟨insertEntry (p, place) index.entries, descending_insertEntry index.descending⟩

def find? (index : PositionIndex) (p : Position) : Option Nat :=
  (index.entries.find? fun e => e.1 = p).map (·.2)

def rebuild (index : PositionIndex) : PositionIndex :=
  index.entries.foldr (fun e built => built.insert e.1 e.2) empty

/-- The places of the entries at `p` or below, the highest one first. -/
def upTo (index : PositionIndex) (p : Position) : List Nat :=
  (index.entries.dropWhile fun e => p < e.1).map (·.2)

end PositionIndex

end CompactIds
