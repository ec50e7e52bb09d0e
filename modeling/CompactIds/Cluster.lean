/-!
# Clusters

A cluster reserves `capacity` consecutive final ids for as many consecutive
generations of one session.  The first `count` of them are finalized; the rest
is in reserve for ids that the session has yet to announce.
-/

namespace CompactIds

/-- `session` is the place of the owner in the registry. -/
structure Cluster where
  session : Nat
  baseFinal : Nat
  baseGeneration : Nat
  capacity : Nat
  count : Nat
  deriving DecidableEq, Repr

/-- How far a cluster is taken to reach. -/
inductive Extent where
  | finalized
  | reserved
  deriving DecidableEq, Repr

namespace Cluster

def endOf (c : Cluster) : Extent → Nat
  | .finalized => c.baseGeneration + c.count
  | .reserved => c.baseGeneration + c.capacity

def lastGeneration? (c : Cluster) (extent : Extent) : Option Nat :=
  if c.baseGeneration < c.endOf extent then some (c.endOf extent - 1) else none

def remaining (c : Cluster) : Nat :=
  c.capacity - c.count

def covers (c : Cluster) (extent : Extent) (generation : Nat) : Bool :=
  c.baseGeneration ≤ generation && generation < c.endOf extent

def containsFinal (c : Cluster) (final : Nat) : Bool :=
  c.baseFinal ≤ final && final < c.baseFinal + c.capacity

theorem covers_iff {c : Cluster} {extent : Extent} {generation : Nat} :
    c.covers extent generation = true ↔
      c.baseGeneration ≤ generation ∧ generation < c.endOf extent := by
  simp [covers]

theorem containsFinal_iff {c : Cluster} {final : Nat} :
    c.containsFinal final = true ↔
      c.baseFinal ≤ final ∧ final < c.baseFinal + c.capacity := by
  simp [containsFinal]

def lastFinal (c : Cluster) : Nat :=
  c.baseFinal + c.capacity - 1

def finalOf? (c : Cluster) (generation : Nat) : Option Nat :=
  if c.covers .reserved generation then
    some (c.baseFinal + (generation - c.baseGeneration))
  else none

def generationOf? (c : Cluster) (final : Nat) : Option Nat :=
  if c.containsFinal final then some (c.baseGeneration + (final - c.baseFinal)) else none

theorem generationOf?_eq_some_iff (c : Cluster) (final generation : Nat) :
    c.generationOf? final = some generation ↔ c.finalOf? generation = some final := by
  simp only [generationOf?, finalOf?, Option.ite_none_right_eq_some, Option.some.injEq,
    covers_iff, containsFinal_iff, endOf]
  omega

def fill (c : Cluster) (count : Nat) : Cluster :=
  { c with count := c.count + count }

def grow (c : Cluster) (room count : Nat) : Cluster :=
  { c with capacity := c.capacity + room, count := c.count + count }

def fillUp (c : Cluster) : Cluster :=
  { c with count := c.capacity }

end Cluster

end CompactIds
