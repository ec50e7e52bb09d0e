import CompactIds.Ledger.Basic

/-!
# Finalizing creation ranges

A range is first judged and then applied, so a refused range changes nothing.
Ids that fit the reserve of their session only count it down.  For the others
room is reserved behind all clusters: the range's own surplus and a full new
reserve.
-/

namespace CompactIds.Ledger

def roomFor (ledger : Ledger) (session : SessionId) (count : Nat) : Nat :=
  ledger.capacity + (count - ledger.reserve session)

/-- Why `room` more generations of a session cannot be reserved.  Positions are
compared from the session's own on, which also finds a span that leaves the
range of positions. -/
def roomRefusal? (ledger : Ledger) (session : SessionId) (room : Nat) : Option Fault :=
  if idLimit < ledger.endOf session .reserved + room ∨
      idLimit < ledger.tiling.nextBase + room then
    some (.malformedRange session .noRoom)
  else
    (ledger.registry.collision? session session.position
      (ledger.endOf session .reserved - 1 + room) ledger.tiling).map (.collision session)

def refusal? (ledger : Ledger) (session : SessionId) (ids : Span) : Option Fault :=
  if ids.count = 0 then some (.malformedRange session .noIds)
  else if ids.first = 0 then some (.malformedRange session .generationZero)
  else if idLimit < ids.first + ids.count then
    some (.malformedRange session .generationsTooLarge)
  else if ids.first ≠ ledger.endOf session .finalized then
    some (.outOfOrder session (ledger.endOf session .finalized) ids.first)
  else if ids.count ≤ ledger.reserve session then none
  else ledger.roomRefusal? session (ledger.roomFor session ids.count)

def modifyCluster (ledger : Ledger) (i : Nat) (f : Cluster → Cluster) : Ledger :=
  { ledger with tiling := ledger.tiling.modify i f }

def appendSurplus (ledger : Ledger) (session : SessionId) (count : Nat) : Ledger :=
  let filled := match ledger.tailPlace? session with
    | some i => ledger.modifyCluster i .fillUp
    | none => ledger
  let (registry, place) := filled.registry.register session
  { filled with registry }.append place (ledger.endOf session .reserved)
    (ledger.roomFor session count) (count - ledger.reserve session)

/-- The last cluster of all grows where it stands; any other is filled. -/
def apply (ledger : Ledger) (session : SessionId) (count : Nat) : Ledger :=
  match ledger.tailPlace? session with
  | some i =>
      if count ≤ ledger.reserve session then ledger.modifyCluster i (·.fill count)
      else if ledger.tiling.canGrow i then
        ledger.modifyCluster i (·.grow (ledger.roomFor session count) count)
      else ledger.appendSurplus session count
  | none => ledger.appendSurplus session count

def finalize (ledger : Ledger) (range : CreationRange) : Except Fault Ledger :=
  match range.ids with
  | none => .ok ledger
  | some ids =>
      match ledger.refusal? range.session ids with
      | some fault => .error fault
      | none => .ok (ledger.apply range.session ids.count)

end CompactIds.Ledger
