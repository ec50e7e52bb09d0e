import CompactIds.Proofs.Loading

/-!
# Reading back what was written

Each part of a snapshot is read back from the bytes that it was written to,
whatever follows it.  A list is read back item by item, so loading comes down
to accepting its items in turn.
-/

namespace CompactIds

namespace Word

private theorem extend?_append {width k acc n : Nat} {bytes rest : List UInt8}
    (h : extend? width acc bytes = some (n, rest)) :
    extend? (width + k) acc bytes = extend? k n rest := by
  induction width generalizing acc bytes with
  | zero =>
      obtain ⟨rfl, rfl⟩ : acc = n ∧ bytes = rest := by simpa [extend?] using h
      rw [Nat.zero_add]
  | succ width ih =>
      cases bytes with
      | nil => simp [extend?] at h
      | cons byte bytes =>
          rw [Nat.add_right_comm]
          exact ih h

private theorem extend?_encode (width acc n : Nat) (rest : List UInt8) :
    extend? width acc (encode width n ++ rest) =
      some (256 ^ width * acc + n % 256 ^ width, rest) := by
  induction width generalizing acc n rest with
  | zero => simp [extend?, encode, Nat.mod_one]
  | succ width ih =>
      rw [encode, List.append_assoc, extend?_append (ih acc (n / 256) _)]
      simp only [List.cons_append, List.nil_append, extend?, Option.some.injEq,
        Prod.mk.injEq, and_true]
      rw [Nat.pow_succ, Nat.mul_comm (256 ^ width) 256, Nat.mod_mul]
      simp only [UInt8.toNat_ofNat', Nat.mod_mod]
      rw [Nat.mul_add, Nat.mul_assoc]
      omega

theorem decode?_suffix {width n : Nat} (h : n < 256 ^ width) (rest : List UInt8) :
    decode? width (encode width n ++ rest) = some (n, rest) := by
  simp [decode?, extend?_encode, Nat.mod_eq_of_lt h]

end Word

variable {rest : List UInt8}

theorem readWord_suffix {width n : Nat} (h : n < 256 ^ width) (rest : List UInt8) :
    readWord width (Word.encode width n ++ rest) = .ok (n, rest) := by
  simp [readWord, Word.decode?_suffix h]

section Lists

variable {σ α β : Type} {item : List UInt8 → Except Fault (β × List UInt8)}
  {accept : σ → β → Except Fault σ} {encode : α → List UInt8} {view : α → β} {items : List α}

theorem readItems_suffix
    (hitem : ∀ a ∈ items, ∀ rest, item (encode a ++ rest) = .ok (view a, rest))
    (state : σ) (rest : List UInt8) :
    readItems item accept items.length state (items.flatMap encode ++ rest) =
      ((items.map view).foldlM accept state).map fun last => (last, rest) := by
  induction items generalizing state with
  | nil => rfl
  | cons a items ih =>
      rw [List.forall_mem_cons] at hitem
      simp only [List.length_cons, List.flatMap_cons, List.append_assoc, readItems, hitem.1,
        List.map_cons, List.foldlM_cons]
      cases accept state (view a) with
      | error fault => rfl
      | ok next => exact ih hitem.2 next

theorem readList_suffix
    (hitem : ∀ a ∈ items, ∀ rest, item (encode a ++ rest) = .ok (view a, rest))
    (hlength : items.length < 256 ^ 8) (state : σ) (rest : List UInt8) :
    readList item accept state (encodeList encode items ++ rest) =
      ((items.map view).foldlM accept state).map fun last => (last, rest) := by
  unfold readList encodeList
  rw [List.append_assoc, readWord_suffix hlength]
  exact readItems_suffix hitem state rest

end Lists

theorem foldlM_push {α : Type} (items : List α) (xs : Array α) :
    items.foldlM (fun xs x => (.ok (xs.push x) : Except Fault (Array α))) xs =
      .ok (xs ++ items.toArray) := by
  induction items generalizing xs with
  | nil => simp [pure, Except.pure]
  | cons x items ih =>
      rw [List.foldlM_cons]
      change items.foldlM _ (xs.push x) = _
      rw [ih]
      simp

theorem idLimit_lt : idLimit < 256 ^ 8 := by decide

theorem readRun_suffix {run : Run} (hfirst : run.first < 256 ^ 8) (hcount : run.count < 256 ^ 8)
    (rest : List UInt8) : readRun (encodeRun run ++ rest) = .ok (run, rest) := by
  unfold readRun encodeRun
  rw [List.append_assoc, readWord_suffix hfirst]
  simp only [bind, Except.bind, readWord_suffix hcount]

theorem readSession_suffix (id : SessionId) (rest : List UInt8) :
    readWord 16 (encodeSession id ++ rest) = .ok (id.bits, rest) :=
  readWord_suffix (Nat.lt_of_lt_of_eq id.isLt (by decide)) rest

structure ClusterEntry.Fits (entry : ClusterEntry) : Prop where
  owner : entry.owner < 256 ^ 8
  capacity : entry.capacity < 256 ^ 8
  count : entry.count < 256 ^ 8

theorem readEntry_suffix {entry : ClusterEntry} (fits : entry.Fits) (rest : List UInt8) :
    readEntry (encodeEntry entry ++ rest) = .ok (entry, rest) := by
  unfold readEntry encodeEntry
  simp only [List.append_assoc, readWord_suffix fits.owner, bind, Except.bind,
    readWord_suffix fits.capacity, readWord_suffix fits.count]

@[simp] theorem checkSessionId_bits (defect : SnapshotDefect) (id : SessionId) :
    checkSessionId defect id.bits = .ok id := by
  simp [checkSessionId]

section LocalState

variable {state : LocalState}

theorem checkCounters_ok {generated taken : Nat} (hgenerated : generated < idLimit)
    (htaken : taken ≤ generated) : checkCounters generated (taken + 1) = .ok taken := by
  unfold checkCounters
  rw [if_neg (by omega)]
  rfl

theorem checkRuns_ok {generated : Nat} {locals : LocalRuns} (hgenerated : generated < idLimit)
    (within : locals.Within (generated + 1)) :
    checkRuns generated locals.runs = .ok locals := by
  have hlimit : generated + 1 < wordLimit := by
    simp only [idLimit, wordLimit] at *
    omega
  simp [checkRuns, within.back?, within.ofList?_eq hlimit]

theorem readLocalState_suffix (sound : state.Sound) (rest : List UInt8) :
    readLocalState (state.encode ++ rest) = .ok (state, rest) := by
  obtain ⟨hgenerated, htaken, within⟩ := sound
  have hlimit := idLimit_lt
  have hruns : ∀ run ∈ state.locals.runs.toList, ∀ rest,
      readRun (encodeRun run ++ rest) = .ok (id run, rest) := by
    intro run hrun rest
    have := within.bounded run (Array.mem_toList_iff.1 hrun)
    exact readRun_suffix (by omega) (by omega) rest
  have hlength : state.locals.runs.toList.length < 256 ^ 8 := by
    have := within.size_le (Nat.le_add_left 1 state.generated)
    rw [Array.length_toList]
    omega
  have hpush : (state.locals.runs.toList.map id).foldlM
      (fun runs run => (.ok (runs.push run) : Except Fault (Array Run))) #[] =
      .ok state.locals.runs := by
    rw [List.map_id, foldlM_push]
    simp
  unfold readLocalState LocalState.encode
  simp only [List.append_assoc]
  rw [readSession_suffix]
  simp only [bind, Except.bind, checkSessionId_bits]
  rw [readWord_suffix (by omega)]
  simp only
  rw [readWord_suffix (by omega)]
  simp only [checkCounters_ok hgenerated htaken]
  rw [readList_suffix hruns hlength, hpush]
  simp only [Except.map, checkRuns_ok hgenerated within]

theorem readLocalState_exhausted (hgenerated : state.generated = idLimit)
    (htaken : state.taken ≤ state.generated) (rest : List UInt8) :
    readLocalState (state.encode ++ rest) = malformed .counters := by
  have hlimit : idLimit + 1 < 256 ^ 8 := by decide
  unfold readLocalState LocalState.encode
  simp only [List.append_assoc]
  rw [readSession_suffix]
  simp only [bind, Except.bind, checkSessionId_bits]
  rw [readWord_suffix (by omega)]
  simp only
  rw [readWord_suffix (by omega)]
  simp [checkCounters, hgenerated, malformed]

theorem readStart_resume (state : LocalState) (rest : List UInt8) :
    readStart none (Word.encode 4 layoutVersion ++ (encodeLocalState (some state) ++ rest)) =
      (readLocalState (state.encode ++ rest)).map fun (state, rest) => (.resume state, rest) := by
  unfold readStart encodeLocalState
  rw [readWord_suffix (by decide)]
  simp only [bind, Except.bind, ne_eq, not_true_eq_false, if_false, List.append_assoc]
  rw [readWord_suffix (by decide)]
  simp only
  cases readLocalState (state.encode ++ rest) with
  | error fault => simp only [Except.map]
  | ok result => simp only [Except.map]

end LocalState

structure Snapshot.Fits (snapshot : Snapshot) : Prop where
  capacity : 1 ≤ snapshot.capacity ∧ snapshot.capacity ≤ largestCapacity
  sessions : snapshot.sessions.length < 256 ^ 8
  clusters : snapshot.clusters.length < 256 ^ 8
  entries : ∀ entry ∈ snapshot.clusters, entry.Fits

/-- The peer of a snapshot, once it is known how it starts. -/
def Snapshot.restore (snapshot : Snapshot) (start : Start) : Except Fault Peer := do
  let loading ← (snapshot.sessions.map StableId.bits).foldlM (Loading.acceptSession start)
    (.ofStart start snapshot.capacity)
  let loading ← snapshot.clusters.foldlM Loading.acceptCluster loading
  loading.finish start

theorem readCapacity_suffix {capacity : Nat} (h : 1 ≤ capacity ∧ capacity ≤ largestCapacity)
    (rest : List UInt8) :
    readCapacity (Word.encode 8 capacity ++ rest) = .ok (capacity, rest) := by
  have hlimit : largestCapacity < 256 ^ 8 := by decide
  unfold readCapacity
  rw [readWord_suffix (by omega)]
  simp only [bind, Except.bind, Peer.checkCapacity_eq_ok_iff.2 h]

theorem Peer.load_encode {given : Option SessionId} {snapshot : Snapshot} {start : Start}
    (fits : snapshot.Fits)
    (hstart : ∀ rest, readStart given (Word.encode 4 layoutVersion ++
      (encodeLocalState snapshot.localState ++ rest)) = .ok (start, rest)) :
    Peer.load given snapshot.encode = snapshot.restore start := by
  unfold Peer.load Snapshot.encode Snapshot.restore
  simp only [List.append_assoc, hstart, bind, Except.bind, readCapacity_suffix fits.capacity]
  rw [readList_suffix (fun id _ rest => readSession_suffix id rest) fits.sessions]
  generalize (snapshot.sessions.map StableId.bits).foldlM (Loading.acceptSession start)
    (.ofStart start snapshot.capacity) = registered
  cases registered with
  | error fault => rfl
  | ok loading =>
      simp only [Except.map]
      rw [← List.append_nil (encodeList encodeEntry snapshot.clusters),
        readList_suffix (fun entry h rest => readEntry_suffix (fits.entries entry h) rest)
          fits.clusters]
      rw [List.map_id']
      cases snapshot.clusters.foldlM Loading.acceptCluster loading with
      | error fault => rfl
      | ok loading => rfl

theorem Peer.load_encode_error {given : Option SessionId} {snapshot : Snapshot} {fault : Fault}
    (hstart : ∀ rest, readStart given (Word.encode 4 layoutVersion ++
      (encodeLocalState snapshot.localState ++ rest)) = .error fault) :
    Peer.load given snapshot.encode = .error fault := by
  unfold Peer.load Snapshot.encode
  simp only [List.append_assoc, hstart]
  rfl

end CompactIds
