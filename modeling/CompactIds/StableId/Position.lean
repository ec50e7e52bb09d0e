import CompactIds.CompactId
import CompactIds.StableId.Basic

/-!
# Positions

Without its six fixed bits a stable id is a number of 122 bits, its position.
The ids of one session lie at consecutive positions from the session's own.
-/

namespace CompactIds

structure Position where
  val : Nat
  isLt : val < 1 <<< 122
  deriving DecidableEq, Repr

namespace Position

instance : LT Position := ⟨fun a b => a.val < b.val⟩

instance : LE Position := ⟨fun a b => a.val ≤ b.val⟩

instance (a b : Position) : Decidable (a < b) := inferInstanceAs (Decidable (a.val < b.val))

instance (a b : Position) : Decidable (a ≤ b) := inferInstanceAs (Decidable (a.val ≤ b.val))

instance : Ord Position := ⟨fun a b => compare a.val b.val⟩

@[ext] theorem ext {a b : Position} (h : a.val = b.val) : a = b := by
  cases a; cases b; simp_all

def ofNat (n : Nat) : Position :=
  ⟨n % 1 <<< 122, Nat.mod_lt _ (by decide)⟩

def last : Position :=
  ⟨1 <<< 122 - 1, by decide⟩

/-- A step of `delta`, around the end of the range where it is reached. -/
def offset (p : Position) (delta : Int) : Position :=
  ⟨((p.val + delta) % (1 <<< 122 : Nat)).toNat, by simp only [Nat.reduceShiftLeft]; omega⟩

def difference (p base : Position) : Int :=
  p.val - base.val

/-- The distance from `base`, if it leads upwards and an id can lie that far. -/
def above? (p base : Position) : Option Nat :=
  if base.val ≤ p.val ∧ p.val - base.val < idLimit then some (p.val - base.val) else none

/-- The last of `length` positions from `base` on, if there is such a position. -/
def lastOf? (base : Position) (length : Nat) : Option Position :=
  if h : 0 < base.val + length ∧ base.val + length ≤ 1 <<< 122 then
    some ⟨base.val + length - 1, by omega⟩
  else none

def text (p : Position) : String :=
  String.ofList ('0' :: 'x' :: Hex.fixed 31 p.val)

end Position

/-- The variant stands between the low 62 bits and the 12 above them, the version
between those and the high 48. -/
def stamped (high middle low : Nat) : Nat :=
  high <<< 80 + 4 <<< 76 + middle <<< 64 + 2 <<< 62 + low

def packed (high middle low : Nat) : Nat :=
  high <<< 74 + middle <<< 62 + low

theorem stamped_version {middle low : Nat} (high : Nat) (hm : middle < 1 <<< 12)
    (hl : low < 1 <<< 62) : stamped high middle low >>> 76 % 16 = 4 := by
  simp only [stamped]; omega

theorem stamped_variant {low : Nat} (high middle : Nat) (hl : low < 1 <<< 62) :
    stamped high middle low >>> 62 % 4 = 2 := by
  simp only [stamped]; omega

theorem stamped_lt {high middle low : Nat} (hh : high < 1 <<< 48) (hm : middle < 1 <<< 12)
    (hl : low < 1 <<< 62) : stamped high middle low < 1 <<< 128 := by
  simp only [stamped]; omega

theorem packed_lt {high middle low : Nat} (hh : high < 1 <<< 48) (hm : middle < 1 <<< 12)
    (hl : low < 1 <<< 62) : packed high middle low < 1 <<< 122 := by
  simp only [packed]; omega

theorem packed_parts (n : Nat) :
    packed (n >>> 74) (n >>> 62 % 1 <<< 12) (n % 1 <<< 62) = n := by
  simp only [packed, Nat.reduceShiftLeft]; omega

theorem stamped_parts {n : Nat} (version : n >>> 76 % 16 = 4)
    (variant : n >>> 62 % 4 = 2) :
    stamped (n >>> 80) (n >>> 64 % 1 <<< 12) (n % 1 <<< 62) = n := by
  simp only [stamped, Nat.reduceShiftLeft]; omega

def Position.toStableId (p : Position) : StableId where
  bits := stamped (p.val >>> 74) (p.val >>> 62 % 1 <<< 12) (p.val % 1 <<< 62)
  isLt := stamped_lt (by have := p.isLt; omega) (Nat.mod_lt _ (by decide))
    (Nat.mod_lt _ (by decide))
  version := stamped_version _ (Nat.mod_lt _ (by decide)) (Nat.mod_lt _ (by decide))
  variant := stamped_variant _ _ (Nat.mod_lt _ (by decide))

def StableId.position (id : StableId) : Position where
  val := packed (id.bits >>> 80) (id.bits >>> 64 % 1 <<< 12) (id.bits % 1 <<< 62)
  isLt := packed_lt (by have := id.isLt; omega) (Nat.mod_lt _ (by decide))
    (Nat.mod_lt _ (by decide))

@[simp] theorem StableId.toStableId_position (id : StableId) :
    id.position.toStableId = id := by
  apply StableId.ext
  rw [← stamped_parts id.version id.variant]
  simp only [StableId.position, Position.toStableId]
  congr 1 <;> simp only [packed, Nat.reduceShiftLeft] <;> omega

@[simp] theorem Position.position_toStableId (p : Position) :
    p.toStableId.position = p := by
  apply Position.ext
  rw [← packed_parts p.val]
  simp only [StableId.position, Position.toStableId]
  congr 1 <;> simp only [stamped, Nat.reduceShiftLeft] <;> omega

end CompactIds
