import CompactIds.Registry.Basic

/-!
# Neighbours in the range of positions

The positions reserved for different sessions never overlap, so the nearest
populated session below a position is the only one that can reach it.  A
session without clusters reserves nothing and may lie in the span of another.
-/

namespace CompactIds.Registry

def ownerBelow? (registry : Registry) (p : Position) : Option Nat :=
  (registry.index.upTo p).find? fun place =>
    (registry.session? place).any Session.isPopulated

def clusterAt? (registry : Registry) (p : Position) (tiling : Tiling) :
    Option (Nat × Nat) := do
  let place ← registry.ownerBelow? p
  let s ← registry.session? place
  let distance ← p.above? s.position
  if distance + 1 < s.endOf .reserved tiling then
    let i ← s.clusterOfGeneration? .reserved (distance + 1) tiling
    some (i, distance + 1)
  else none

/-- The session at a place with the last position that it reserves, if it is not
`owner` and reserves any. -/
def reservedBy? (registry : Registry) (owner : SessionId) (tiling : Tiling) (place : Nat) :
    Option (SessionId × Position) := do
  let s ← registry.session? place
  if s.id = owner then none
  else
    let last ← s.lastReserved? tiling
    some (s.id, last)

def nearestOther? (registry : Registry) (owner : SessionId) (p : Position)
    (tiling : Tiling) : Option (SessionId × Position) :=
  (registry.index.upTo p).findSome? (registry.reservedBy? owner tiling)

/-- The session that `length` positions from `base` on would collide with.  A
span that leaves the range of positions collides with the owner itself. -/
def collision? (registry : Registry) (owner : SessionId) (base : Position) (length : Nat)
    (tiling : Tiling) : Option SessionId :=
  match base.lastOf? length with
  | none => some owner
  | some top =>
      match registry.nearestOther? owner top tiling with
      | some (other, last) => if base ≤ last then some other else none
      | none => none

end CompactIds.Registry
