import CompactIds.Peer.Basic

/-!
# Converting ids

Ids go between the session space of a peer, the op space and their stable
form.  Each conversion comes as a partial function and as one that names the
unknown id.
-/

namespace CompactIds.Peer

/-- A generation is sent in its final form as soon as that is reserved. -/
def toOp? (peer : Peer) (id : SessionSpaceId) : Option OpSpaceId :=
  match id.form with
  | .ofFinal final => some (.ofFinal final)
  | .ofGeneration generation =>
      if peer.locals.contains generation then
        match peer.ownFinal? generation with
        | some final => some (.ofFinal final)
        | none => some (.ofGeneration generation)
      else none

/-- An id of this peer takes the form in which it was handed out.  Other final
ids must lie below the limit, and other generations must be finalized. -/
def toSession? (peer : Peer) (id : OpSpaceId) (origin : SessionId) : Option SessionSpaceId :=
  match id.form with
  | .ofFinal final =>
      match peer.ownGeneration? final with
      | some generation =>
          if peer.locals.contains generation then some (.ofGeneration generation)
          else if generation ≤ peer.generated then some (.ofFinal final)
          else none
      | none => if final < peer.ledger.tiling.limit then some (.ofFinal final) else none
  | .ofGeneration generation =>
      if origin = peer.session then
        if peer.locals.contains generation then some (.ofGeneration generation)
        else if generation ≤ peer.generated then
          (peer.ownFinal? generation).map .ofFinal
        else none
      else (peer.ledger.finalOf? origin .finalized generation).map .ofFinal

def toOp (peer : Peer) (id : SessionSpaceId) : Except Fault OpSpaceId :=
  match peer.toOp? id with
  | some op => .ok op
  | none => .error (.unknownSessionSpaceId id)

def toSession (peer : Peer) (id : OpSpaceId) (origin : SessionId) :
    Except Fault SessionSpaceId :=
  match peer.toSession? id origin with
  | some own => .ok own
  | none => .error (.unknownOpSpaceId id origin)

/-- Whether a generation of a cluster can be held as a final id.  Past the
finalized part only the cluster's owner can, for ids that it generated so. -/
def holdsFinal (peer : Peer) (c : Cluster) (generation : Nat) : Bool :=
  generation < c.endOf .finalized ||
    (c.session = ownPlace && !peer.locals.contains generation &&
      generation ≤ peer.generated)

def expand? (peer : Peer) (id : SessionSpaceId) : Option StableId :=
  match id.form with
  | .ofFinal final => do
      let i ← peer.ledger.tiling.clusterOfFinal? final
      let c ← peer.ledger.tiling.cluster? i
      let generation ← c.generationOf? final
      let s ← peer.ledger.registry.session? c.session
      if peer.holdsFinal c generation then some (s.stableIdOf generation) else none
  | .ofGeneration generation => do
      let s ← peer.own?
      if peer.locals.contains generation then some (s.stableIdOf generation) else none

def localGeneration? (peer : Peer) (id : StableId) : Option Nat := do
  let distance ← id.position.above? peer.session.position
  if distance + 1 ≤ peer.generated ∧ peer.locals.contains (distance + 1) then
    some (distance + 1)
  else none

def isVisible (peer : Peer) (c : Cluster) (generation : Nat) : Bool :=
  if c.session = ownPlace then generation ≤ peer.generated
  else generation < c.endOf .finalized

def compress? (peer : Peer) (id : StableId) : Option SessionSpaceId :=
  match peer.localGeneration? id with
  | some generation => some (.ofGeneration generation)
  | none => do
      let (i, generation) ← peer.ledger.registry.clusterAt? id.position peer.ledger.tiling
      let c ← peer.ledger.tiling.cluster? i
      if peer.isVisible c generation then (c.finalOf? generation).map .ofFinal else none

def expand (peer : Peer) (id : SessionSpaceId) : Except Fault StableId :=
  match peer.expand? id with
  | some stable => .ok stable
  | none => .error (.unknownSessionSpaceId id)

def compress (peer : Peer) (id : StableId) : Except Fault SessionSpaceId :=
  match peer.compress? id with
  | some own => .ok own
  | none => .error (.unknownStableId id)

end CompactIds.Peer
