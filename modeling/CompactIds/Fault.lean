import CompactIds.CompactId
import CompactIds.StableId.Basic

/-!
# Faults

Every operation that can fail names its cause here.  The wording of each cause
is fixed: peers log and compare it.  Settings and the texts of stable ids come
from outside and are checked first of all.
-/

namespace CompactIds

def defaultCapacity : Nat := 512

def largestCapacity : Nat := 1 <<< 20

def layoutVersion : Nat := 1

inductive RangeDefect where
  | noIds
  | generationZero
  | generationsTooLarge
  | noRoom
  deriving DecidableEq, Repr

inductive SnapshotDefect where
  | truncated
  | trailing
  | localFlag
  | localSession
  | counters
  | runsTooLong
  | runs
  | capacity
  | sessionId
  | duplicateSession
  | sessionIndex
  | clusterSize
  | afterUnfilled
  | noRoom
  | overlap
  | idleSession
  | neverTaken
  deriving DecidableEq, Repr

inductive Fault where
  | malformedRange (session : SessionId) (defect : RangeDefect)
  | outOfOrder (session : SessionId) (expected actual : Nat)
  | unknownSessionSpaceId (id : SessionSpaceId)
  | unknownOpSpaceId (id : OpSpaceId) (origin : SessionId)
  | unknownStableId (id : StableId)
  | collision (session other : SessionId)
  | versionMismatch (found : Nat)
  | malformedSnapshot (defect : SnapshotDefect)
  | sessionIdRequired
  | sessionIdForbidden
  | sessionIdConflict (session : SessionId)
  | invalidStableId (text : String)
  | invalidCapacity (capacity : Nat)
  deriving DecidableEq, Repr

def RangeDefect.message : RangeDefect → String
  | noIds => "id payload is empty"
  | generationZero => "generation counts start at 1"
  | generationsTooLarge => "generation counts overflow"
  | noRoom => "reservation exceeds the id space"

def SnapshotDefect.message : SnapshotDefect → String
  | truncated => "unexpected end of snapshot"
  | trailing => "trailing bytes"
  | localFlag => "invalid local state flag"
  | localSession => "local session id is not a v4 uuid"
  | counters => "inconsistent generation counters"
  | runsTooLong => "local ids beyond the generated id count"
  | runs => "invalid local id runs"
  | capacity => "invalid cluster capacity"
  | sessionId => "session id is not a v4 uuid"
  | duplicateSession => "duplicate session"
  | sessionIndex => "session index out of range"
  | clusterSize => "invalid cluster size"
  | afterUnfilled => "cluster follows an unfilled cluster of its session"
  | noRoom => "cluster exceeds the id space"
  | overlap => "overlapping session uuid spans"
  | idleSession => "session without clusters"
  | neverTaken => "local session finalized ids it never handed out"

def Fault.message : Fault → String
  | malformedRange session defect =>
      "malformed creation range from session " ++ session.text ++ ": " ++ defect.message
  | outOfOrder session expected actual =>
      "creation range from session " ++ session.text ++
        " finalized out of order: expected generation count " ++ toString expected ++
        ", got " ++ toString actual
  | unknownSessionSpaceId id => "unknown session space id " ++ id.text
  | unknownOpSpaceId id origin =>
      "unknown op space id " ++ id.text ++ " from session " ++ origin.text
  | unknownStableId id => "unknown stable id " ++ id.text
  | collision session other =>
      "uuid span of a new cluster for session " ++ session.text ++
        " collides with session " ++ other.text
  | versionMismatch found =>
      "unsupported snapshot version " ++ toString found ++ " (expected " ++
        toString layoutVersion ++ ")"
  | malformedSnapshot defect => "snapshot is malformed: " ++ defect.message
  | sessionIdRequired => "snapshot has no local state, a session id must be supplied"
  | sessionIdForbidden =>
      "snapshot carries local state, a session id must not be supplied"
  | sessionIdConflict session =>
      "session " ++ session.text ++ " already exists in the snapshot"
  | invalidStableId text => "invalid stable id: " ++ text
  | invalidCapacity capacity =>
      "invalid cluster capacity " ++ toString capacity ++
        " (must be between 1 and " ++ toString largestCapacity ++ ")"

/-- All peers of a document must use the same settings. -/
structure Settings where
  clusterCapacity : Nat := defaultCapacity
  deriving DecidableEq, Repr

def checkCapacity (capacity : Nat) : Except Fault Unit :=
  if 1 ≤ capacity ∧ capacity ≤ largestCapacity then .ok ()
  else .error (.invalidCapacity capacity)

def Settings.check (settings : Settings) : Except Fault Unit :=
  checkCapacity settings.clusterCapacity

namespace StableId

def ofBits (bits : Nat) : Except Fault StableId :=
  match ofBits? bits with
  | some id => .ok id
  | none => .error (.invalidStableId (String.ofList (Hyphenated.write bits)))

/-- A text in the wrong shape is reported as it stands.  A text in the right shape
with the wrong version or variant is reported in lower case. -/
def ofText (text : String) : Except Fault StableId :=
  match Hyphenated.read? text.toList with
  | some bits => ofBits bits
  | none => .error (.invalidStableId text)

end StableId

end CompactIds
