import CompactIds.Text.Hyphenated

/-!
# Stable ids

A stable id is a version 4 identifier of the common variant: 128 bits of which
the six that name version and variant are fixed.  Sessions are named by stable
ids as well.
-/

namespace CompactIds

/-- The low bit of the version is bit 76, the low bit of the variant bit 62. -/
structure StableId where
  bits : Nat
  isLt : bits < 1 <<< 128
  version : bits >>> 76 % 16 = 4
  variant : bits >>> 62 % 4 = 2
  deriving DecidableEq, Repr

/-- A session goes by the stable id of the first id that it generates. -/
abbrev SessionId := StableId

namespace StableId

def ofBits? (bits : Nat) : Option StableId :=
  if h : bits < 1 <<< 128 ∧ bits >>> 76 % 16 = 4 ∧ bits >>> 62 % 4 = 2 then
    some ⟨bits, h.1, h.2.1, h.2.2⟩
  else none

instance : Ord StableId := ⟨fun a b => compare a.bits b.bits⟩

def text (id : StableId) : String :=
  String.ofList (Hyphenated.write id.bits)

@[ext] theorem ext {a b : StableId} (h : a.bits = b.bits) : a = b := by
  cases a; cases b; simp_all

@[simp] theorem ofBits?_bits (id : StableId) : ofBits? id.bits = some id :=
  dif_pos ⟨id.isLt, id.version, id.variant⟩

theorem bits_of_ofBits? {bits : Nat} {id : StableId} (h : ofBits? bits = some id) :
    id.bits = bits := by
  unfold ofBits? at h
  split at h
  · cases h; rfl
  · cases h

end StableId

end CompactIds
