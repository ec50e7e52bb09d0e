/-!
# Compact ids

A session numbers its ids by generation, starting from 1, and every id gets a
final number once its creation range is in order.  Both forms share one signed
integer of 64 bits: generations are written as negative numbers.  So generation
counts and final ids stay below a common limit.
-/

namespace CompactIds

def wordLimit : Nat := 1 <<< 64

/-- The greatest generation count, and the greatest final id. -/
def idLimit : Nat := 1 <<< 63 - 1

inductive CompactId where
  | ofGeneration (generation : Nat)
  | ofFinal (final : Nat)
  deriving DecidableEq, Repr

namespace CompactId

def toInt : CompactId → Int
  | ofGeneration generation => -(generation : Int)
  | ofFinal final => final

def ofInt (value : Int) : CompactId :=
  if value < 0 then ofGeneration value.natAbs else ofFinal value.natAbs

@[simp] theorem toInt_ofInt (value : Int) : (ofInt value).toInt = value := by
  unfold ofInt
  split <;> simp only [toInt] <;> omega

theorem ofInt_toInt_ofGeneration {generation : Nat} (h : 0 < generation) :
    ofInt (ofGeneration generation).toInt = ofGeneration generation := by
  have : generation ≠ 0 := by omega
  simp [ofInt, toInt, this]

@[simp] theorem ofInt_toInt_ofFinal (final : Nat) :
    ofInt (ofFinal final).toInt = ofFinal final := by
  have : ¬ (final : Int) < 0 := by omega
  simp [ofInt, toInt, this]

end CompactId

/-- What an integer means depends on who holds it.  In the session space of a peer
a generation is one of its own; in the op space, where ids travel with
operations, it is one of the sender's. -/
inductive Space where
  | session
  | op
  deriving DecidableEq, Repr

structure SpaceId (space : Space) where
  value : Int
  deriving DecidableEq, Repr

abbrev SessionSpaceId := SpaceId .session

abbrev OpSpaceId := SpaceId .op

namespace SpaceId

variable {space : Space}

def form (id : SpaceId space) : CompactId :=
  CompactId.ofInt id.value

def ofForm (form : CompactId) : SpaceId space :=
  ⟨form.toInt⟩

def ofGeneration (generation : Nat) : SpaceId space :=
  ofForm (.ofGeneration generation)

def ofFinal (final : Nat) : SpaceId space :=
  ofForm (.ofFinal final)

def isLocal (id : SpaceId space) : Bool :=
  id.value < 0

def isFinal (id : SpaceId space) : Bool :=
  0 ≤ id.value

def text (id : SpaceId space) : String :=
  toString id.value

instance : Ord (SpaceId space) := ⟨fun a b => compare a.value b.value⟩

@[simp] theorem ofForm_form (id : SpaceId space) : ofForm id.form = id := by
  simp [ofForm, form]

@[simp] theorem form_ofFinal (final : Nat) :
    (ofFinal final : SpaceId space).form = .ofFinal final := by
  simp [form, ofFinal, ofForm]

theorem form_ofGeneration {generation : Nat} (h : 0 < generation) :
    (ofGeneration generation : SpaceId space).form = .ofGeneration generation := by
  simp [form, ofGeneration, ofForm, CompactId.ofInt_toInt_ofGeneration h]

@[simp] theorem ofFinal_inj {a b : Nat} :
    (ofFinal a : SpaceId space) = ofFinal b ↔ a = b := by
  simp only [ofFinal, ofForm, CompactId.toInt, SpaceId.mk.injEq]
  omega

@[simp] theorem ofGeneration_inj {a b : Nat} :
    (ofGeneration a : SpaceId space) = ofGeneration b ↔ a = b := by
  simp only [ofGeneration, ofForm, CompactId.toInt, SpaceId.mk.injEq]
  omega

theorem ofGeneration_ne_ofFinal {generation : Nat} (h : 0 < generation) (final : Nat) :
    (ofGeneration generation : SpaceId space) ≠ ofFinal final := by
  simp only [ofGeneration, ofFinal, ofForm, CompactId.toInt, ne_eq, SpaceId.mk.injEq]
  omega

theorem eq_ofGeneration_or_eq_ofFinal (id : SpaceId space) :
    (∃ generation, 0 < generation ∧ id = ofGeneration generation) ∨
      ∃ final, id = ofFinal final := by
  obtain ⟨value⟩ := id
  simp only [ofGeneration, ofFinal, ofForm, CompactId.toInt, SpaceId.mk.injEq]
  by_cases h : value < 0
  · exact .inl ⟨value.natAbs, by omega, by omega⟩
  · exact .inr ⟨value.natAbs, by omega⟩

end SpaceId

end CompactIds
