import CompactIds.Peer.Basic
import CompactIds.Snapshot.Load

/-!
# Histories

What a peer is asked to do, as data, so that a history can be replayed.
-/

namespace CompactIds

inductive Action where
  | generate
  | take
  | setCapacity (capacity : Nat)
  | finalize (range : CreationRange)
  | copy
  | reload
  deriving DecidableEq, Repr

namespace Peer

/-- A refused action leaves the peer as it is.  No id can be generated past the
greatest generation count. -/
def perform (peer : Peer) : Action → Peer
  | .generate => if peer.generated < idLimit then peer.generate.2 else peer
  | .take => peer.take.2
  | .setCapacity capacity => (peer.setCapacity capacity).toOption.getD peer
  | .finalize range => (peer.finalize range).toOption.getD peer
  | .copy => peer.copy
  | .reload => (load none (peer.save true)).toOption.getD peer

def replay (peer : Peer) (actions : List Action) : Peer :=
  actions.foldl perform peer

end Peer

end CompactIds
