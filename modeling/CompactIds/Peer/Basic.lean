import CompactIds.Ledger.Finalize
import CompactIds.LocalRuns

/-!
# Peers

A peer generates ids for its own session without asking anyone, and follows
the common sequence of creation ranges.  Its own session is the first one in
its registry.
-/

namespace CompactIds

/-- `generated` ids exist so far, and the first `taken` of them have been taken. -/
structure Peer where
  session : SessionId
  generated : Nat
  taken : Nat
  locals : LocalRuns
  ledger : Ledger
  deriving DecidableEq, Repr

namespace Peer

def ofSession (session : SessionId) : Peer where
  session
  generated := 0
  taken := 0
  locals := .empty
  ledger := { Ledger.empty with registry := (Registry.empty.register session).1 }

def setCapacity (peer : Peer) (capacity : Nat) : Except Fault Peer :=
  match checkCapacity capacity with
  | .ok _ => .ok { peer with ledger := { peer.ledger with capacity } }
  | .error fault => .error fault

def ofSettings (session : SessionId) (settings : Settings) : Except Fault Peer :=
  (ofSession session).setCapacity settings.clusterCapacity

def ownPlace : Nat := 0

def own? (peer : Peer) : Option Session :=
  peer.ledger.registry.session? ownPlace

def ownTail? (peer : Peer) : Option Cluster := do
  let s ← peer.own?
  s.tail? peer.ledger.tiling

def ownFinal? (peer : Peer) (generation : Nat) : Option Nat := do
  let s ← peer.own?
  s.finalOf? .reserved generation peer.ledger.tiling

def ownGeneration? (peer : Peer) (final : Nat) : Option Nat := do
  let s ← peer.own?
  s.generationOf? final peer.ledger.tiling

/-- The next id is final at once if the last cluster still has it in reserve. -/
def generate (peer : Peer) : SessionSpaceId × Peer :=
  let generation := peer.generated + 1
  match peer.ownTail?.bind (·.finalOf? generation) with
  | some final => (.ofFinal final, { peer with generated := generation })
  | none =>
      (.ofGeneration generation,
        { peer with generated := generation, locals := peer.locals.add generation 1 })

def take (peer : Peer) : CreationRange × Peer :=
  if peer.taken < peer.generated then
    (.ofSpan peer.session (peer.taken + 1) (peer.generated - peer.taken),
      { peer with taken := peer.generated })
  else (.empty peer.session, peer)

def finalize (peer : Peer) (range : CreationRange) : Except Fault Peer :=
  match peer.ledger.finalize range with
  | .ok ledger => .ok { peer with ledger }
  | .error fault => .error fault

def copy (peer : Peer) : Peer :=
  { peer with ledger := { peer.ledger with registry := peer.ledger.registry.copy } }

end Peer

end CompactIds
