import CompactIds.Snapshot.Layout

/-!
# Loading snapshots

A snapshot is read from front to back, and each session and cluster is checked
against those before it.  The clusters get their final ids and generations
again by being appended in the order in which they were written.
-/

namespace CompactIds

def malformed {α : Type} (defect : SnapshotDefect) : Except Fault α :=
  .error (.malformedSnapshot defect)

def readWord (width : Nat) (bytes : List UInt8) : Except Fault (Nat × List UInt8) :=
  match Word.decode? width bytes with
  | some result => .ok result
  | none => malformed .truncated

def readItems {σ α : Type} (item : List UInt8 → Except Fault (α × List UInt8))
    (accept : σ → α → Except Fault σ) :
    Nat → σ → List UInt8 → Except Fault (σ × List UInt8)
  | 0, state, bytes => .ok (state, bytes)
  | n + 1, state, bytes =>
      match item bytes with
      | .error fault => .error fault
      | .ok (a, rest) =>
          match accept state a with
          | .error fault => .error fault
          | .ok next => readItems item accept n next rest

def readList {σ α : Type} (item : List UInt8 → Except Fault (α × List UInt8))
    (accept : σ → α → Except Fault σ) (state : σ) (bytes : List UInt8) :
    Except Fault (σ × List UInt8) := do
  let (n, bytes) ← readWord 8 bytes
  readItems item accept n state bytes

def readRun (bytes : List UInt8) : Except Fault (Run × List UInt8) := do
  let (first, bytes) ← readWord 8 bytes
  let (count, bytes) ← readWord 8 bytes
  .ok (⟨first, count⟩, bytes)

def readEntry (bytes : List UInt8) : Except Fault (ClusterEntry × List UInt8) := do
  let (owner, bytes) ← readWord 8 bytes
  let (capacity, bytes) ← readWord 8 bytes
  let (count, bytes) ← readWord 8 bytes
  .ok (⟨owner, capacity, count⟩, bytes)

/-- How many ids were taken, if `next` is the first one that was not.  They
must have been generated, and the next generation be expressible. -/
def checkCounters (generated next : Nat) : Except Fault Nat :=
  if idLimit ≤ generated ∨ next = 0 ∨ generated + 1 < next then malformed .counters
  else .ok (next - 1)

def checkRuns (generated : Nat) (runs : Array Run) : Except Fault LocalRuns :=
  if runs.back?.any fun run => generated + 1 < run.first + run.count then
    malformed .runsTooLong
  else
    match LocalRuns.ofList? runs.toList with
    | some locals => .ok locals
    | none => malformed .runs

def checkSessionId (defect : SnapshotDefect) (bits : Nat) : Except Fault SessionId :=
  match StableId.ofBits? bits with
  | some id => .ok id
  | none => malformed defect

def readLocalState (bytes : List UInt8) : Except Fault (LocalState × List UInt8) := do
  let (bits, bytes) ← readWord 16 bytes
  let session ← checkSessionId .localSession bits
  let (generated, bytes) ← readWord 8 bytes
  let (next, bytes) ← readWord 8 bytes
  let taken ← checkCounters generated next
  let (runs, bytes) ← readList readRun (fun runs run => .ok (runs.push run)) #[] bytes
  let locals ← checkRuns generated runs
  .ok (⟨session, generated, taken, locals⟩, bytes)

/-- How a peer starts: as the session of the snapshot, or as another one. -/
inductive Start where
  | resume (state : LocalState)
  | join (session : SessionId)
  deriving DecidableEq, Repr

def Start.session : Start → SessionId
  | resume state => state.session
  | join session => session

def readStart (given : Option SessionId) (bytes : List UInt8) :
    Except Fault (Start × List UInt8) := do
  let (version, bytes) ← readWord 4 bytes
  if version ≠ layoutVersion then .error (.versionMismatch version)
  else
    let (flag, bytes) ← readWord 1 bytes
    match flag, given with
    | 0, some session => .ok (.join session, bytes)
    | 0, none => .error .sessionIdRequired
    | 1, some _ => .error .sessionIdForbidden
    | 1, none =>
        let (state, bytes) ← readLocalState bytes
        .ok (.resume state, bytes)
    | _, _ => malformed .localFlag

/-- `table` holds the places in the registry of the sessions read so far. -/
structure Loading where
  ledger : Ledger
  table : Array Nat
  deriving DecidableEq, Repr

namespace Loading

def ofStart (start : Start) (capacity : Nat) : Loading where
  ledger := { (Peer.ofSession start.session).ledger with capacity }
  table := #[]

/-- The own session is known already, and may be in the table if it resumes. -/
def acceptSession (start : Start) (loading : Loading) (bits : Nat) : Except Fault Loading := do
  let id ← checkSessionId .sessionId bits
  match loading.ledger.registry.find? id with
  | none =>
      let (registry, place) := loading.ledger.registry.register id
      .ok ⟨{ loading.ledger with registry }, loading.table.push place⟩
  | some place =>
      if place = Peer.ownPlace then
        match start with
        | .join _ => .error (.sessionIdConflict id)
        | .resume _ =>
            if loading.table.contains place then malformed .duplicateSession
            else .ok { loading with table := loading.table.push place }
      else malformed .duplicateSession

def clusterDefect? (ledger : Ledger) (owner : Session) (capacity count : Nat) :
    Option SnapshotDefect :=
  let base := owner.endOf .reserved ledger.tiling
  if capacity = 0 ∨ count = 0 ∨ capacity < count then some .clusterSize
  else if (owner.tail? ledger.tiling).any fun c => c.count ≠ c.capacity then
    some .afterUnfilled
  else if idLimit < base + capacity ∨ idLimit < ledger.tiling.nextBase + capacity then
    some .noRoom
  else if (ledger.registry.collision? owner.id owner.position (base - 1 + capacity)
      ledger.tiling).isSome then
    some .overlap
  else none

def acceptCluster (loading : Loading) (entry : ClusterEntry) : Except Fault Loading :=
  match loading.table[entry.owner]? with
  | none => malformed .sessionIndex
  | some place =>
      match loading.ledger.registry.session? place with
      | none => malformed .sessionIndex
      | some owner =>
          match clusterDefect? loading.ledger owner entry.capacity entry.count with
          | some defect => malformed defect
          | none =>
              .ok { loading with
                ledger := loading.ledger.append place
                  (owner.endOf .reserved loading.ledger.tiling) entry.capacity entry.count }

def isSettled (loading : Loading) : Bool :=
  loading.table.all fun place =>
    (loading.ledger.registry.session? place).any Session.isPopulated

def finish (start : Start) (loading : Loading) : Except Fault Peer :=
  if !loading.isSettled then malformed .idleSession
  else
    match start with
    | .join session => .ok { Peer.ofSession session with ledger := loading.ledger }
    | .resume state =>
        if state.taken + 1 < loading.ledger.endOf state.session .finalized then
          malformed .neverTaken
        else
          .ok ⟨state.session, state.generated, state.taken, state.locals, loading.ledger⟩

end Loading

def readCapacity (bytes : List UInt8) : Except Fault (Nat × List UInt8) := do
  let (capacity, bytes) ← readWord 8 bytes
  match checkCapacity capacity with
  | .ok _ => .ok (capacity, bytes)
  | .error _ => malformed .capacity

def Peer.load (given : Option SessionId) (bytes : List UInt8) : Except Fault Peer := do
  let (start, bytes) ← readStart given bytes
  let (capacity, bytes) ← readCapacity bytes
  let (loading, bytes) ←
    readList (readWord 16) (Loading.acceptSession start) (.ofStart start capacity) bytes
  let (loading, bytes) ← readList readEntry Loading.acceptCluster loading bytes
  if bytes.isEmpty then loading.finish start else malformed .trailing

end CompactIds
