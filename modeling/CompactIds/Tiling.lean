import CompactIds.Cluster
import CompactIds.Search

/-!
# The tiling of final ids

All clusters in the order of their final ids.  Each one starts where the one
before it ends, so the cluster of a final id is found by binary search.
-/

namespace CompactIds

structure Tiling where
  clusters : Array Cluster
  deriving DecidableEq, Repr

namespace Tiling

def empty : Tiling :=
  ⟨#[]⟩

def size (tiling : Tiling) : Nat :=
  tiling.clusters.size

def cluster? (tiling : Tiling) (i : Nat) : Option Cluster :=
  tiling.clusters[i]?

def tail? (tiling : Tiling) : Option Cluster :=
  tiling.clusters.back?

def nextBase (tiling : Tiling) : Nat :=
  match tiling.tail? with
  | some c => c.baseFinal + c.capacity
  | none => 0

/-- One past the greatest finalized id. -/
def limit (tiling : Tiling) : Nat :=
  match tiling.tail? with
  | some c => c.baseFinal + c.count
  | none => 0

/-- Only the last cluster has room behind it to grow. -/
def canGrow (tiling : Tiling) (i : Nat) : Bool :=
  i + 1 = tiling.size

def push (tiling : Tiling) (c : Cluster) : Tiling :=
  ⟨tiling.clusters.push c⟩

def modify (tiling : Tiling) (i : Nat) (f : Cluster → Cluster) : Tiling :=
  ⟨tiling.clusters.modify i f⟩

def clusterOfFinal? (tiling : Tiling) (final : Nat) : Option Nat := do
  let i ← Search.lastIndex? (fun c => c.baseFinal ≤ final) tiling.clusters
  let c ← tiling.cluster? i
  if c.containsFinal final then some i else none

end Tiling

end CompactIds
