import CompactIds.CreationRange
import CompactIds.Fault
import CompactIds.Registry.Neighbour

/-!
# The ledger

The part of a peer's state that follows from the sequence of creation ranges
alone, apart from the place that the peer's own session takes in the registry.
-/

namespace CompactIds

/-- `capacity` is the reserve that a new cluster gets. -/
structure Ledger where
  capacity : Nat
  registry : Registry
  tiling : Tiling
  deriving DecidableEq, Repr

namespace Ledger

def empty : Ledger :=
  ⟨defaultCapacity, .empty, .empty⟩

def tailPlace? (ledger : Ledger) (session : SessionId) : Option Nat := do
  let place ← ledger.registry.find? session
  let s ← ledger.registry.session? place
  s.chain.back?

def tail? (ledger : Ledger) (session : SessionId) : Option Cluster := do
  let i ← ledger.tailPlace? session
  ledger.tiling.cluster? i

/-- The first generation of a session that is not finalized, or not reserved. -/
def endOf (ledger : Ledger) (session : SessionId) (extent : Extent) : Nat :=
  match ledger.tail? session with
  | some c => c.endOf extent
  | none => 1

def reserve (ledger : Ledger) (session : SessionId) : Nat :=
  match ledger.tail? session with
  | some c => c.remaining
  | none => 0

def finalOf? (ledger : Ledger) (session : SessionId) (extent : Extent) (generation : Nat) :
    Option Nat := do
  let place ← ledger.registry.find? session
  let s ← ledger.registry.session? place
  s.finalOf? extent generation ledger.tiling

def append (ledger : Ledger) (place baseGeneration capacity count : Nat) : Ledger :=
  { ledger with
    registry := ledger.registry.link place ledger.tiling.size
    tiling := ledger.tiling.push
      ⟨place, ledger.tiling.nextBase, baseGeneration, capacity, count⟩ }

end Ledger

end CompactIds
