import CompactIds.Tiling
import CompactIds.StableId.Position

/-!
# Sessions

A session owns a chain of clusters, ascending in generations and in final ids.
The chain holds the places of the clusters in the tiling.
-/

namespace CompactIds

structure Session where
  id : SessionId
  chain : Array Nat
  deriving DecidableEq, Repr

namespace Session

def ofId (id : SessionId) : Session :=
  ⟨id, #[]⟩

def position (s : Session) : Position :=
  s.id.position

def isPopulated (s : Session) : Bool :=
  !s.chain.isEmpty

def tail? (s : Session) (tiling : Tiling) : Option Cluster := do
  let i ← s.chain.back?
  tiling.cluster? i

/-- The first generation that is not finalized, or not reserved. -/
def endOf (s : Session) (extent : Extent) (tiling : Tiling) : Nat :=
  match s.tail? tiling with
  | some c => c.endOf extent
  | none => 1

def positionOf (s : Session) (generation : Nat) : Position :=
  s.position.offset ((generation : Int) - 1)

def stableIdOf (s : Session) (generation : Nat) : StableId :=
  (s.positionOf generation).toStableId

def lastReserved? (s : Session) (tiling : Tiling) : Option Position := do
  let c ← s.tail? tiling
  some (s.positionOf (c.endOf .reserved - 1))

def clusterOfGeneration? (s : Session) (extent : Extent) (generation : Nat)
    (tiling : Tiling) : Option Nat := do
  let k ← Search.lastIndex?
    (fun i => (tiling.cluster? i).any fun c => c.baseGeneration ≤ generation) s.chain
  let i ← s.chain[k]?
  let c ← tiling.cluster? i
  if c.covers extent generation then some i else none

def clusterOfFinal? (s : Session) (final : Nat) (tiling : Tiling) : Option Nat := do
  let k ← Search.lastIndex?
    (fun i => (tiling.cluster? i).any fun c => c.baseFinal ≤ final) s.chain
  let i ← s.chain[k]?
  let c ← tiling.cluster? i
  if c.containsFinal final then some i else none

def finalOf? (s : Session) (extent : Extent) (generation : Nat) (tiling : Tiling) :
    Option Nat := do
  let i ← s.clusterOfGeneration? extent generation tiling
  let c ← tiling.cluster? i
  c.finalOf? generation

def generationOf? (s : Session) (final : Nat) (tiling : Tiling) : Option Nat := do
  let i ← s.clusterOfFinal? final tiling
  let c ← tiling.cluster? i
  c.generationOf? final

end Session

end CompactIds
