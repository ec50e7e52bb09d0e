import CompactIds.Peer.Basic

/-!
# Snapshots

A snapshot keeps what follows from the sequence of creation ranges, and on
request what the peer needs to go on as the same session.  Final ids and
generations are not written: they follow from the capacities.  Numbers have a
fixed number of bytes, the most significant byte first.
-/

namespace CompactIds

namespace Word

/-- What does not fit `width` bytes is left out. -/
def encode : Nat → Nat → List UInt8
  | 0, _ => []
  | width + 1, n => encode width (n / 256) ++ [UInt8.ofNat (n % 256)]

def extend? : Nat → Nat → List UInt8 → Option (Nat × List UInt8)
  | 0, acc, bytes => some (acc, bytes)
  | _ + 1, _, [] => none
  | width + 1, acc, byte :: bytes => extend? width (256 * acc + byte.toNat) bytes

def decode? (width : Nat) (bytes : List UInt8) : Option (Nat × List UInt8) :=
  extend? width 0 bytes

@[simp] theorem length_encode (width n : Nat) : (encode width n).length = width := by
  induction width generalizing n with
  | zero => rfl
  | succ width ih => simp [encode, ih]

end Word

structure LocalState where
  session : SessionId
  generated : Nat
  taken : Nat
  locals : LocalRuns
  deriving DecidableEq, Repr

structure ClusterEntry where
  owner : Nat
  capacity : Nat
  count : Nat
  deriving DecidableEq, Repr

/-- Only sessions that own clusters are in the table. -/
structure Snapshot where
  localState : Option LocalState
  capacity : Nat
  sessions : List SessionId
  clusters : List ClusterEntry
  deriving DecidableEq, Repr

def encodeRun (run : Run) : List UInt8 :=
  Word.encode 8 run.first ++ Word.encode 8 run.count

def encodeSession (id : SessionId) : List UInt8 :=
  Word.encode 16 id.bits

def encodeEntry (entry : ClusterEntry) : List UInt8 :=
  Word.encode 8 entry.owner ++ Word.encode 8 entry.capacity ++ Word.encode 8 entry.count

def encodeList {α : Type} (encode : α → List UInt8) (items : List α) : List UInt8 :=
  Word.encode 8 items.length ++ items.flatMap encode

/-- The first generation that was not taken stands for how many were. -/
def LocalState.encode (state : LocalState) : List UInt8 :=
  encodeSession state.session ++ Word.encode 8 state.generated ++
    Word.encode 8 (state.taken + 1) ++ encodeList encodeRun state.locals.runs.toList

def encodeLocalState : Option LocalState → List UInt8
  | none => Word.encode 1 0
  | some state => Word.encode 1 1 ++ state.encode

def Snapshot.encode (snapshot : Snapshot) : List UInt8 :=
  Word.encode 4 layoutVersion ++ encodeLocalState snapshot.localState ++
    Word.encode 8 snapshot.capacity ++ encodeList encodeSession snapshot.sessions ++
    encodeList encodeEntry snapshot.clusters

def Registry.populated (registry : Registry) : List SessionId :=
  (registry.sessions.toList.filter Session.isPopulated).map Session.id

def Registry.tablePlace (registry : Registry) (place : Nat) : Nat :=
  (registry.sessions.toList.take place).countP Session.isPopulated

def Ledger.entries (ledger : Ledger) : List ClusterEntry :=
  ledger.tiling.clusters.toList.map fun c =>
    ⟨ledger.registry.tablePlace c.session, c.capacity, c.count⟩

def Peer.localState (peer : Peer) : LocalState :=
  ⟨peer.session, peer.generated, peer.taken, peer.locals⟩

def Peer.snapshot (peer : Peer) (withLocal : Bool) : Snapshot where
  localState := if withLocal then some peer.localState else none
  capacity := peer.ledger.capacity
  sessions := peer.ledger.registry.populated
  clusters := peer.ledger.entries

def Peer.save (peer : Peer) (withLocal : Bool) : List UInt8 :=
  (peer.snapshot withLocal).encode

end CompactIds
