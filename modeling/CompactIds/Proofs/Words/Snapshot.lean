import CompactIds.Proofs.Tables
import CompactIds.Proofs.Words.Peer

/-!
# Snapshots in words

The bytes of a snapshot may say anything.  What is read is compared before it is
added up, against the sessions and clusters that were accepted so far.
-/

namespace CompactIds

open Checked

/-- For each session the size of the table when it is reached, if `n` sessions
are in the table before. -/
def tableIndices : Nat → List Session → List Nat
  | _, [] => []
  | n, s :: sessions => n :: tableIndices (if s.isPopulated then n + 1 else n) sessions

theorem getElem?_tableIndices {sessions : List Session} {i : Nat} (n : Nat)
    (h : i < sessions.length) :
    (tableIndices n sessions)[i]? = some (n + (sessions.take i).countP Session.isPopulated) := by
  induction sessions generalizing n i with
  | nil => simp at h
  | cons s sessions ih =>
      cases i with
      | zero => rfl
      | succ i =>
          have hi : i < sessions.length := by simpa using h
          rw [tableIndices, List.getElem?_cons_succ, ih _ hi, List.take_succ_cons, List.countP_cons]
          cases s.isPopulated <;> simp [Nat.add_assoc, Nat.add_comm 1]

def Ledger.checkedEntries (ledger : Ledger) : Checked (List ClusterEntry) :=
  let indices := (tableIndices 0 ledger.registry.sessions.toList).toArray
  ledger.tiling.clusters.toList.mapM fun c => do
    let owner ← element indices c.session
    pure ⟨owner, c.capacity, c.count⟩

def Peer.checkedSave (peer : Peer) (withLocal : Bool) : Checked (List UInt8) := do
  let clusters ← peer.ledger.checkedEntries
  pure { peer.snapshot withLocal with clusters }.encode

theorem Ledger.Linked.checkedEntries_eq {ledger : Ledger} (linked : ledger.Linked) :
    ledger.checkedEntries = .ok ledger.entries := by
  apply Checked.mapM_eq
  intro c hc
  obtain ⟨i, hi⟩ := Tiling.mem_clusters_iff.1 hc
  have hlt : c.session < ledger.registry.sessions.toList.length := by
    simpa [Registry.size] using linked.owner hi
  have howner : (tableIndices 0 ledger.registry.sessions.toList).toArray[c.session]? =
      some (ledger.registry.tablePlace c.session) := by
    simp [getElem?_tableIndices 0 hlt, Registry.tablePlace]
  rw [element_eq howner]
  rfl

theorem Peer.Sound.checkedSave_eq {peer : Peer} (sound : peer.Sound) (withLocal : Bool) :
    peer.checkedSave withLocal = .ok (peer.save withLocal) := by
  rw [checkedSave, sound.ledger.linked.checkedEntries_eq]
  rfl

/-! ## Reading -/

abbrev Reading (α : Type) := ExceptT Fault Checked α

namespace Reading

variable {α β σ : Type}

def settled (x : Except Fault α) : Reading α :=
  ExceptT.mk (.ok x)

def computed (x : Checked α) : Reading α :=
  ExceptT.lift x

@[simp] theorem computed_ok (a : α) : computed (.ok a) = settled (.ok a) :=
  rfl

@[simp] theorem settled_ok_bind (a : α) (f : α → Reading β) : (settled (.ok a) >>= f) = f a :=
  rfl

theorem settled_bind {x : Except Fault α} {f : α → Reading β} {g : α → Except Fault β}
    (h : ∀ a, x = .ok a → f a = settled (g a)) : (settled x >>= f) = settled (x >>= g) := by
  cases x with
  | error fault => rfl
  | ok a => exact h a rfl

def checkedItems (item : List UInt8 → Except Fault (α × List UInt8))
    (accept : σ → α → Reading σ) : Nat → σ → List UInt8 → Reading (σ × List UInt8)
  | 0, state, bytes => settled (.ok (state, bytes))
  | n + 1, state, bytes => do
      let (a, rest) ← settled (item bytes)
      let next ← accept state a
      checkedItems item accept n next rest

def checkedList (item : List UInt8 → Except Fault (α × List UInt8))
    (accept : σ → α → Reading σ) (state : σ) (bytes : List UInt8) :
    Reading (σ × List UInt8) := do
  let (n, bytes) ← settled (readWord 8 bytes)
  checkedItems item accept n state bytes

section Items

variable {item : List UInt8 → Except Fault (α × List UInt8)} {accept : σ → α → Except Fault σ}
  {accept' : σ → α → Reading σ} {P : σ → Prop}

theorem checkedItems_eq
    (settles : ∀ state a, P state → accept' state a = settled (accept state a))
    (step : ∀ state a next, P state → accept state a = .ok next → P next)
    {n : Nat} {state : σ} {bytes : List UInt8} (start : P state) :
    checkedItems item accept' n state bytes = settled (readItems item accept n state bytes) := by
  induction n generalizing state bytes with
  | zero => rfl
  | succ n ih =>
      rw [checkedItems, readItems]
      cases item bytes with
      | error fault => rfl
      | ok read =>
          obtain ⟨a, rest⟩ := read
          simp only [settled_ok_bind, settles state a start]
          cases hnext : accept state a with
          | error fault => rfl
          | ok next => exact ih (step state a next start hnext)

theorem checkedList_eq
    (settles : ∀ state a, P state → accept' state a = settled (accept state a))
    (step : ∀ state a next, P state → accept state a = .ok next → P next)
    {state : σ} {bytes : List UInt8} (start : P state) :
    checkedList item accept' state bytes = settled (readList item accept state bytes) :=
  settled_bind fun ⟨_, _⟩ _ => checkedItems_eq settles step start

end Items

end Reading

open Reading

def checkedCounters (generated next : Nat) : Reading Nat := do
  if idLimit ≤ generated then settled (malformed .counters)
  else if next = 0 then settled (malformed .counters)
  else
    let limit ← computed (addWord generated 1)
    if limit < next then settled (malformed .counters) else settled (.ok (next - 1))

/-- The end of a run, or the greatest word if the end is not a word. -/
def Run.saturatedEnd (run : Run) : Nat :=
  min (run.first + run.count) (wordLimit - 1)

def checkedRuns (generated : Nat) (runs : Array Run) : Reading LocalRuns := do
  let tooLong ← match runs.back? with
    | none => settled (.ok false)
    | some run => do
        let limit ← computed (addWord generated 1)
        settled (.ok (limit < run.saturatedEnd))
  if tooLong then settled (malformed .runsTooLong)
  else
    match LocalRuns.ofList? runs.toList with
    | some locals => settled (.ok locals)
    | none => settled (malformed .runs)

def checkedLocalState (bytes : List UInt8) : Reading (LocalState × List UInt8) := do
  let (bits, bytes) ← settled (readWord 16 bytes)
  let session ← settled (checkSessionId .localSession bits)
  let (generated, bytes) ← settled (readWord 8 bytes)
  let (next, bytes) ← settled (readWord 8 bytes)
  let taken ← checkedCounters generated next
  let (runs, bytes) ← settled (readList readRun (fun runs run => .ok (runs.push run)) #[] bytes)
  let locals ← checkedRuns generated runs
  settled (.ok (⟨session, generated, taken, locals⟩, bytes))

def checkedStart (given : Option SessionId) (bytes : List UInt8) :
    Reading (Start × List UInt8) := do
  let (version, bytes) ← settled (readWord 4 bytes)
  if version ≠ layoutVersion then settled (.error (.versionMismatch version))
  else
    let (flag, bytes) ← settled (readWord 1 bytes)
    match flag, given with
    | 0, some session => settled (.ok (.join session, bytes))
    | 0, none => settled (.error .sessionIdRequired)
    | 1, some _ => settled (.error .sessionIdForbidden)
    | 1, none =>
        let (state, bytes) ← checkedLocalState bytes
        settled (.ok (.resume state, bytes))
    | _, _ => settled (malformed .localFlag)

theorem checkedCounters_eq (generated next : Nat) :
    checkedCounters generated next = settled (checkCounters generated next) := by
  unfold checkedCounters checkCounters
  by_cases hgenerated : idLimit ≤ generated
  · simp [hgenerated]
  · have hword : generated + 1 ≤ idLimit := by omega
    by_cases hzero : next = 0
    · simp [hzero]
    · by_cases hnext : generated + 1 < next <;>
        simp [hgenerated, hzero, hnext, addWord_of_le hword]

theorem checkedRuns_eq {generated : Nat} (h : generated < idLimit) (runs : Array Run) :
    checkedRuns generated runs = settled (checkRuns generated runs) := by
  have hword : generated + 1 ≤ idLimit := h
  have hend : ∀ run : Run,
      generated + 1 < run.saturatedEnd ↔ generated + 1 < run.first + run.count := by
    intro run
    unfold Run.saturatedEnd
    simp only [wordLimit, idLimit] at *
    omega
  unfold checkedRuns checkRuns
  cases runs.back? with
  | none =>
      cases LocalRuns.ofList? runs.toList <;> rfl
  | some run =>
      by_cases hlong : generated + 1 < run.first + run.count
      · simp [addWord_of_le hword, hend, hlong]
      · cases hlocals : LocalRuns.ofList? runs.toList <;>
          simp [addWord_of_le hword, hend, hlong]

theorem checkedLocalState_eq (bytes : List UInt8) :
    checkedLocalState bytes = settled (readLocalState bytes) := by
  unfold checkedLocalState readLocalState
  refine settled_bind fun ⟨bits, bytes⟩ _ => ?_
  refine settled_bind fun session _ => ?_
  refine settled_bind fun ⟨generated, bytes⟩ _ => ?_
  refine settled_bind fun ⟨next, bytes⟩ _ => ?_
  dsimp only
  rw [checkedCounters_eq]
  refine settled_bind fun taken hcounters => ?_
  refine settled_bind fun ⟨runs, bytes⟩ _ => ?_
  dsimp only
  rw [checkedRuns_eq (checkCounters_eq_ok hcounters).1]
  exact settled_bind fun locals _ => rfl

theorem checkedStart_eq (given : Option SessionId) (bytes : List UInt8) :
    checkedStart given bytes = settled (readStart given bytes) := by
  unfold checkedStart readStart
  refine settled_bind fun ⟨version, bytes⟩ _ => ?_
  dsimp only
  split
  · rfl
  · refine settled_bind fun ⟨flag, bytes⟩ _ => ?_
    dsimp only
    match flag, given with
    | 0, some session => rfl
    | 0, none => rfl
    | 1, some session => rfl
    | 1, none =>
        rw [checkedLocalState_eq]
        exact settled_bind fun ⟨state, bytes⟩ _ => rfl
    | flag + 2, given => rfl

namespace Loading

variable {start : Start} {capacity : Nat} {loading next : Loading}

def checkedDefect? (ledger : Ledger) (owner : Session) (capacity count : Nat) :
    Checked (Option SnapshotDefect) := do
  if capacity = 0 ∨ count = 0 ∨ capacity < count then pure (some .clusterSize)
  else
    let tail ← owner.checkedTail? ledger.tiling
    if tail.any fun c => c.count ≠ c.capacity then pure (some .afterUnfilled)
    else
      let base ← owner.checkedEndOf .reserved ledger.tiling
      if !fitsId base capacity then pure (some .noRoom)
      else if !fitsId (← ledger.tiling.checkedNextBase) capacity then pure (some .noRoom)
      else
        let length ← addWord (← subWord base 1) capacity
        let other ← ledger.registry.checkedCollision? owner.id owner.position length ledger.tiling
        pure (if other.isSome then some .overlap else none)

def checkedAcceptCluster (loading : Loading) (entry : ClusterEntry) : Reading Loading := do
  match loading.table[entry.owner]? with
  | none => settled (malformed .sessionIndex)
  | some place =>
      let owner ← computed (loading.ledger.registry.checkedSession place)
      match ← computed (checkedDefect? loading.ledger owner entry.capacity entry.count) with
      | some defect => settled (malformed defect)
      | none =>
          let base ← computed (owner.checkedEndOf .reserved loading.ledger.tiling)
          let ledger ← computed
            (loading.ledger.checkedAppend place base entry.capacity entry.count)
          settled (.ok { loading with ledger })

def checkedIsSettled (loading : Loading) : Checked Bool :=
  Checked.all (fun place => Session.isPopulated <$> loading.ledger.registry.checkedSession place)
    loading.table.toList

def checkedFinish (start : Start) (loading : Loading) : Reading Peer := do
  if !(← computed loading.checkedIsSettled) then settled (malformed .idleSession)
  else
    match start with
    | .join session => settled (.ok { Peer.ofSession session with ledger := loading.ledger })
    | .resume state =>
        let own ← computed (loading.ledger.registry.checkedSession Peer.ownPlace)
        let last ← computed (own.checkedEndOf .finalized loading.ledger.tiling)
        if (← computed (addWord state.taken 1)) < last then settled (malformed .neverTaken)
        else
          settled (.ok
            ⟨state.session, state.generated, state.taken, state.locals, loading.ledger⟩)

def Ready (start : Start) (loading : Loading) : Prop :=
  ∃ capacity ids shares, loading.Holds start capacity ids shares

namespace Ready

theorem exists_session {place : Nat} (ready : loading.Ready start)
    (h : place ∈ loading.table) : ∃ s, loading.ledger.registry.session? place = some s := by
  obtain ⟨capacity, ids, shares, holds⟩ := ready
  obtain ⟨i, hi⟩ := Array.mem_iff_getElem?.1 h
  obtain ⟨s, hs, -⟩ := holds.exists_id hi
  exact ⟨s, hs⟩

theorem acceptSession (ready : loading.Ready start) {bits : Nat}
    (h : loading.acceptSession start bits = .ok next) : next.Ready start := by
  obtain ⟨capacity, ids, shares, holds⟩ := ready
  obtain ⟨id, hid, -⟩ := bind_eq_ok h
  rw [checkSessionId_eq_ok hid] at h
  exact ⟨_, _, _, holds.acceptSession h⟩

theorem acceptCluster (ready : loading.Ready start) {entry : ClusterEntry}
    (h : loading.acceptCluster entry = .ok next) : next.Ready start := by
  obtain ⟨capacity, ids, shares, holds⟩ := ready
  exact ⟨_, _, _, holds.acceptCluster h⟩

end Ready

theorem checkedDefect?_eq {ledger : Ledger} (sound : ledger.Sound) {place : Nat} {owner : Session}
    (hs : ledger.registry.session? place = some owner) (capacity count : Nat) :
    checkedDefect? ledger owner capacity count =
      .ok (clusterDefect? ledger owner capacity count) := by
  have bounded := sound.bounded
  have within := bounded.within hs
  have hpos := sound.linked.one_le_endOf sound.laid hs
  unfold checkedDefect? clusterDefect?
  by_cases hsize : capacity = 0 ∨ count = 0 ∨ capacity < count
  · simp [hsize]
  by_cases htail : (owner.tail? ledger.tiling).any fun c => c.count ≠ c.capacity
  · simp only [if_neg hsize, within.checkedTail?_eq, ok_bind, if_pos htail, pure_eq]
  simp only [if_neg hsize, within.checkedTail?_eq, ok_bind, if_neg htail, fitsId_eq,
    within.checkedEndOf_eq bounded.clusters, bounded.clusters.checkedNextBase_eq]
  by_cases hgenerations : idLimit < owner.endOf .reserved ledger.tiling + capacity
  · simp [hgenerations]
  by_cases hfinals : idLimit < ledger.tiling.nextBase + capacity
  · simp [hfinals]
  have hlength : owner.endOf .reserved ledger.tiling - 1 + capacity ≤ idLimit := by omega
  have hword : owner.endOf .reserved ledger.tiling - 1 + capacity < wordLimit :=
    Nat.lt_of_le_of_lt hlength (by decide)
  simp [hgenerations, hfinals, subWord_eq hpos, addWord_of_le hlength,
    bounded.checkedCollision?_eq owner.id owner.position (by omega) hword]

theorem Ready.checkedAcceptCluster_eq (ready : loading.Ready start) (entry : ClusterEntry) :
    loading.checkedAcceptCluster entry = settled (loading.acceptCluster entry) := by
  have sound : loading.ledger.Sound := by
    obtain ⟨capacity, ids, shares, holds⟩ := ready
    exact holds.sound.ledger
  unfold checkedAcceptCluster Loading.acceptCluster
  cases hplace : loading.table[entry.owner]? with
  | none => rfl
  | some place =>
      obtain ⟨owner, hs⟩ := ready.exists_session (Array.mem_of_getElem? hplace)
      have within := sound.bounded.within hs
      simp only [Registry.checkedSession_eq hs, hs, checkedDefect?_eq sound hs, computed_ok,
        settled_ok_bind]
      cases hdefect : clusterDefect? loading.ledger owner entry.capacity entry.count with
      | some defect => rfl
      | none =>
          have fits := sound.clusterDefect?_eq_none_iff.1 hdefect
          have hpos := sound.linked.one_le_endOf sound.laid hs
          have hbase : owner.endOf .reserved loading.ledger.tiling ≤ idLimit :=
            Nat.le_trans (Nat.le_add_right _ _) fits.generations
          simp [within.checkedEndOf_eq sound.bounded.clusters,
            Ledger.checkedAppend_eq sound.bounded.clusters hs hpos hbase]

theorem Ready.checkedFinish_eq (ready : loading.Ready start) (hstart : start.Sound) :
    loading.checkedFinish start = settled (loading.finish start) := by
  have sound : loading.Sound start := by
    obtain ⟨capacity, ids, shares, holds⟩ := ready
    exact holds.sound
  have hsettled : loading.checkedIsSettled = .ok loading.isSettled := by
    unfold checkedIsSettled isSettled
    rw [← Array.all_toList]
    apply all_eq
    intro place hplace
    obtain ⟨s, hs⟩ := ready.exists_session (Array.mem_toList_iff.1 hplace)
    simp [Registry.checkedSession_eq hs, hs]
  unfold checkedFinish finish
  simp only [hsettled, computed_ok, settled_ok_bind]
  cases loading.isSettled with
  | false => rfl
  | true =>
      cases start with
      | join session => rfl
      | resume state =>
          obtain ⟨own, hown, hid⟩ := sound.own
          have within := sound.ledger.bounded.within hown
          have hend := sound.ledger.linked.endOf_session hown .finalized
          have hword : state.taken + 1 ≤ idLimit :=
            Nat.lt_of_le_of_lt hstart.taken_le hstart.generated_lt
          rw [hid] at hend
          simp only [Start.session] at hend
          simp only [Registry.checkedSession_eq hown, computed_ok, settled_ok_bind, hend,
            within.checkedEndOf_eq sound.ledger.bounded.clusters, addWord_of_le hword]
          by_cases htaken : state.taken + 1 < own.endOf .finalized loading.ledger.tiling <;>
            simp [htaken]

end Loading

/-! ## The whole snapshot -/

def Peer.checkedLoad (given : Option SessionId) (bytes : List UInt8) : Reading Peer := do
  let (start, bytes) ← checkedStart given bytes
  let (capacity, bytes) ← settled (readCapacity bytes)
  let (loading, bytes) ← settled
    (readList (readWord 16) (Loading.acceptSession start) (.ofStart start capacity) bytes)
  let (loading, bytes) ← checkedList readEntry Loading.checkedAcceptCluster loading bytes
  if bytes.isEmpty then loading.checkedFinish start else settled (malformed .trailing)

theorem Peer.checkedLoad_eq (given : Option SessionId) (bytes : List UInt8) :
    Peer.checkedLoad given bytes = settled (Peer.load given bytes) := by
  unfold Peer.checkedLoad Peer.load
  rw [checkedStart_eq]
  refine settled_bind fun ⟨start, bytes⟩ hstart => ?_
  refine settled_bind fun ⟨capacity, bytes⟩ hcapacity => ?_
  refine settled_bind fun ⟨registered, bytes⟩ hsessions => ?_
  have fresh : (Loading.ofStart start capacity).Ready start :=
    ⟨_, _, _, Loading.holds_ofStart start (readCapacity_bounds hcapacity)⟩
  have ready : registered.Ready start :=
    readList_invariant (fun _ _ _ ready h => ready.acceptSession h) fresh hsessions
  dsimp only
  -- Each cluster may use what the clusters before it left in bounds.
  rw [checkedList_eq (fun _ entry ready => ready.checkedAcceptCluster_eq entry)
    (fun _ _ _ ready h => ready.acceptCluster h) ready]
  refine settled_bind fun ⟨loading, bytes⟩ hclusters => ?_
  have read : loading.Ready start :=
    readList_invariant (fun _ _ _ ready h => ready.acceptCluster h) ready hclusters
  dsimp only
  split
  · exact read.checkedFinish_eq (readStart_sound hstart)
  · rfl

end CompactIds
