import CompactIds.Proofs.Codec

/-!
# What can be read was written

Whatever part of a snapshot is read, its bytes are those that it would be
written to.  So the bytes that load are the encodings of the snapshots that can
be restored.
-/

namespace CompactIds

namespace Word

private theorem encode_cons {width byte n : Nat} (hbyte : byte < 256) (hn : n < 256 ^ width) :
    encode (width + 1) (256 ^ width * byte + n) = UInt8.ofNat byte :: encode width n := by
  induction width generalizing n with
  | zero =>
      obtain rfl : n = 0 := by omega
      simp [encode, Nat.mod_eq_of_lt hbyte]
  | succ width ih =>
      have hdiv : (256 ^ (width + 1) * byte + n) / 256 = 256 ^ width * byte + n / 256 := by
        rw [Nat.pow_succ, Nat.mul_comm (256 ^ width) 256, Nat.mul_assoc]
        omega
      have hmod : (256 ^ (width + 1) * byte + n) % 256 = n % 256 := by
        rw [Nat.pow_succ, Nat.mul_comm (256 ^ width) 256, Nat.mul_assoc]
        omega
      have hlow : n / 256 < 256 ^ width := by
        rw [Nat.pow_succ] at hn
        omega
      rw [encode, hdiv, hmod, ih hlow, encode]
      rfl

private theorem extend?_eq_some {width acc n : Nat} {bytes rest : List UInt8}
    (h : extend? width acc bytes = some (n, rest)) :
    ∃ m < 256 ^ width, n = 256 ^ width * acc + m ∧ bytes = encode width m ++ rest := by
  induction width generalizing acc bytes with
  | zero =>
      obtain ⟨rfl, rfl⟩ : acc = n ∧ bytes = rest := by simpa [extend?] using h
      exact ⟨0, by simp, by simp, rfl⟩
  | succ width ih =>
      cases bytes with
      | nil => simp [extend?] at h
      | cons byte bytes =>
          obtain ⟨m, hm, rfl, rfl⟩ := ih h
          have hbyte := byte.toNat_lt
          refine ⟨256 ^ width * byte.toNat + m, ?_, ?_, ?_⟩
          · rw [Nat.pow_succ]
            calc 256 ^ width * byte.toNat + m < 256 ^ width * byte.toNat + 256 ^ width :=
                  Nat.add_lt_add_left hm _
              _ = 256 ^ width * (byte.toNat + 1) := by rw [Nat.mul_succ]
              _ ≤ 256 ^ width * 256 := Nat.mul_le_mul_left _ hbyte
          · rw [Nat.mul_add, Nat.pow_succ, Nat.mul_assoc, Nat.add_assoc]
          · rw [encode_cons hbyte hm, UInt8.ofNat_toNat]
            rfl

theorem decode?_eq_some_iff {width n : Nat} {bytes rest : List UInt8} :
    decode? width bytes = some (n, rest) ↔ n < 256 ^ width ∧ bytes = encode width n ++ rest := by
  constructor
  · intro h
    obtain ⟨m, hm, rfl, rfl⟩ := extend?_eq_some h
    simpa using hm
  · rintro ⟨hn, rfl⟩
    exact decode?_suffix hn rest

end Word

variable {bytes rest : List UInt8}

theorem readWord_eq_ok {width n : Nat} (h : readWord width bytes = .ok (n, rest)) :
    n < 256 ^ width ∧ bytes = Word.encode width n ++ rest := by
  unfold readWord at h
  split at h
  · rename_i hdecode
    cases h
    exact Word.decode?_eq_some_iff.1 hdecode
  · cases h

section Lists

variable {σ α : Type} {item : List UInt8 → Except Fault (α × List UInt8)}
  {accept : σ → α → Except Fault σ} {encode : α → List UInt8} {P : α → Prop} {n : Nat}
  {state last : σ}

theorem readItems_eq_ok
    (hitem : ∀ bytes a rest, item bytes = .ok (a, rest) → P a ∧ bytes = encode a ++ rest)
    (h : readItems item accept n state bytes = .ok (last, rest)) :
    ∃ items : List α, items.length = n ∧ (∀ a ∈ items, P a) ∧
      bytes = items.flatMap encode ++ rest ∧ items.foldlM accept state = .ok last := by
  induction n generalizing state bytes with
  | zero =>
      obtain ⟨rfl, rfl⟩ : state = last ∧ bytes = rest := by simpa [readItems] using h
      exact ⟨[], rfl, by simp, rfl, rfl⟩
  | succ n ih =>
      simp only [readItems] at h
      split at h
      · cases h
      · rename_i a bytes' ha
        split at h
        · cases h
        · rename_i next hnext
          obtain ⟨items, hlength, hall, rfl, hfold⟩ := ih h
          obtain ⟨hfirst, rfl⟩ := hitem _ _ _ ha
          refine ⟨a :: items, by rw [List.length_cons, hlength],
            List.forall_mem_cons.2 ⟨hfirst, hall⟩, by simp, ?_⟩
          rw [List.foldlM_cons, hnext]
          exact hfold

theorem readList_eq_ok
    (hitem : ∀ bytes a rest, item bytes = .ok (a, rest) → P a ∧ bytes = encode a ++ rest)
    (h : readList item accept state bytes = .ok (last, rest)) :
    ∃ items : List α, items.length < 256 ^ 8 ∧ (∀ a ∈ items, P a) ∧
      bytes = encodeList encode items ++ rest ∧ items.foldlM accept state = .ok last := by
  obtain ⟨⟨n, bytes'⟩, hn, hitems⟩ := bind_eq_ok h
  obtain ⟨hlt, hbytes⟩ := readWord_eq_ok hn
  obtain ⟨items, hlength, hall, hbytes', hfold⟩ := readItems_eq_ok hitem hitems
  refine ⟨items, hlength ▸ hlt, hall, ?_, hfold⟩
  rw [hbytes, hbytes', encodeList, hlength, List.append_assoc]

end Lists

theorem readRun_eq_ok {run : Run} (h : readRun bytes = .ok (run, rest)) :
    bytes = encodeRun run ++ rest := by
  obtain ⟨⟨first, bytes₁⟩, hfirst, h⟩ := bind_eq_ok h
  obtain ⟨⟨count, bytes₂⟩, hcount, h⟩ := bind_eq_ok h
  cases h
  rw [(readWord_eq_ok hfirst).2, (readWord_eq_ok hcount).2, encodeRun, List.append_assoc]

theorem readEntry_eq_ok {entry : ClusterEntry} (h : readEntry bytes = .ok (entry, rest)) :
    entry.Fits ∧ bytes = encodeEntry entry ++ rest := by
  obtain ⟨⟨owner, bytes₁⟩, howner, h⟩ := bind_eq_ok h
  obtain ⟨⟨capacity, bytes₂⟩, hcapacity, h⟩ := bind_eq_ok h
  obtain ⟨⟨count, bytes₃⟩, hcount, h⟩ := bind_eq_ok h
  cases h
  have howner := readWord_eq_ok howner
  have hcapacity := readWord_eq_ok hcapacity
  have hcount := readWord_eq_ok hcount
  refine ⟨⟨howner.1, hcapacity.1, hcount.1⟩, ?_⟩
  rw [howner.2, hcapacity.2, hcount.2, encodeEntry, List.append_assoc, List.append_assoc]

theorem checkSessionId_eq_ok {defect : SnapshotDefect} {bits : Nat} {id : SessionId}
    (h : checkSessionId defect bits = .ok id) : bits = id.bits := by
  unfold checkSessionId at h
  split at h
  · rename_i hbits
    cases h
    exact (StableId.bits_of_ofBits? hbits).symm
  · cases h

theorem readCapacity_eq_ok {capacity : Nat} (h : readCapacity bytes = .ok (capacity, rest)) :
    bytes = Word.encode 8 capacity ++ rest := by
  obtain ⟨⟨n, bytes₁⟩, hn, h⟩ := bind_eq_ok h
  simp only at h
  split at h
  · cases h
    exact (readWord_eq_ok hn).2
  · cases h

theorem checkRuns_runs {generated : Nat} {runs : Array Run} {locals : LocalRuns}
    (h : checkRuns generated runs = .ok locals) : locals.runs = runs := by
  unfold checkRuns LocalRuns.ofList? at h
  split at h
  · cases h
  · split at h
    · rename_i hlocals
      cases h
      simp only [Option.ite_none_right_eq_some, Option.some.injEq] at hlocals
      rw [← hlocals.2]
    · cases h

theorem readLocalState_eq_ok {state : LocalState} (h : readLocalState bytes = .ok (state, rest)) :
    bytes = state.encode ++ rest := by
  unfold readLocalState at h
  obtain ⟨⟨bits, bytes₁⟩, hbits, h⟩ := bind_eq_ok h
  obtain ⟨session, hsession, h⟩ := bind_eq_ok h
  obtain ⟨⟨generated, bytes₂⟩, hgenerated, h⟩ := bind_eq_ok h
  obtain ⟨⟨next, bytes₃⟩, hnext, h⟩ := bind_eq_ok h
  obtain ⟨taken, htaken, h⟩ := bind_eq_ok h
  obtain ⟨⟨runs, bytes₄⟩, hruns, h⟩ := bind_eq_ok h
  obtain ⟨locals, hlocals, h⟩ := bind_eq_ok h
  cases h
  obtain ⟨items, -, -, hitems, hfold⟩ := readList_eq_ok (P := fun _ => True)
    (fun _ _ _ h => ⟨trivial, readRun_eq_ok h⟩) hruns
  have hlist : locals.runs.toList = items := by
    rw [foldlM_push, Except.ok.injEq] at hfold
    rw [checkRuns_runs hlocals, ← hfold]
    simp
  rw [(readWord_eq_ok hbits).2, (readWord_eq_ok hgenerated).2, (readWord_eq_ok hnext).2, hitems,
    checkSessionId_eq_ok hsession, (checkCounters_eq_ok htaken).2.1, ← hlist]
  simp [LocalState.encode, encodeSession]

/-- A session is given exactly if the snapshot has none of its own. -/
inductive Starts : Option SessionId → Option LocalState → Start → Prop
  | join (session : SessionId) : Starts (some session) none (.join session)
  | resume {state : LocalState} (sound : state.Sound) : Starts none (some state) (.resume state)

theorem readStart_of_starts {given : Option SessionId} {localState : Option LocalState}
    {start : Start} (starts : Starts given localState start) (rest : List UInt8) :
    readStart given (Word.encode 4 layoutVersion ++ (encodeLocalState localState ++ rest)) =
      .ok (start, rest) := by
  cases starts with
  | join session =>
      unfold readStart encodeLocalState
      rw [readWord_suffix (by decide)]
      simp only [bind, Except.bind, ne_eq, not_true_eq_false, if_false]
      rw [readWord_suffix (by decide)]
      rfl
  | resume sound =>
      rw [readStart_resume, readLocalState_suffix sound]
      rfl

theorem readStart_eq_ok {given : Option SessionId} {start : Start}
    (h : readStart given bytes = .ok (start, rest)) :
    ∃ localState, Starts given localState start ∧
      bytes = Word.encode 4 layoutVersion ++ (encodeLocalState localState ++ rest) := by
  unfold readStart at h
  obtain ⟨⟨version, bytes₁⟩, hversion, h⟩ := bind_eq_ok h
  simp only at h
  split at h
  · cases h
  · rename_i hlayout
    rw [Decidable.not_not] at hlayout
    rw [(readWord_eq_ok hversion).2, hlayout]
    obtain ⟨⟨flag, bytes₂⟩, hflag, h⟩ := bind_eq_ok h
    rw [(readWord_eq_ok hflag).2]
    simp only at h
    split at h
    · cases h
      exact ⟨none, .join _, rfl⟩
    · cases h
    · cases h
    · obtain ⟨⟨state, bytes₃⟩, hstate, h⟩ := bind_eq_ok h
      cases h
      refine ⟨some state, .resume (readLocalState_sound hstate), ?_⟩
      rw [readLocalState_eq_ok hstate, encodeLocalState, List.append_assoc]
    · cases h

theorem exists_ids_of_foldlM {start : Start} {bits : List Nat} {loading last : Loading}
    (h : bits.foldlM (Loading.acceptSession start) loading = .ok last) :
    ∃ ids : List SessionId, bits = ids.map StableId.bits := by
  induction bits generalizing loading with
  | nil => exact ⟨[], rfl⟩
  | cons b bits ih =>
      rw [List.foldlM_cons] at h
      obtain ⟨next, hnext, h⟩ := bind_eq_ok h
      obtain ⟨id, hid, -⟩ := bind_eq_ok hnext
      obtain ⟨ids, rfl⟩ := ih h
      exact ⟨id :: ids, by rw [List.map_cons, checkSessionId_eq_ok hid]⟩

theorem Peer.load_eq_ok_iff {given : Option SessionId} {peer : Peer} :
    Peer.load given bytes = .ok peer ↔
      ∃ (snapshot : Snapshot) (start : Start), snapshot.Fits ∧
        Starts given snapshot.localState start ∧ bytes = snapshot.encode ∧
        snapshot.restore start = .ok peer := by
  constructor
  · intro h
    unfold Peer.load at h
    obtain ⟨⟨start, bytes₁⟩, hstart, h⟩ := bind_eq_ok h
    obtain ⟨⟨capacity, bytes₂⟩, hcapacity, h⟩ := bind_eq_ok h
    obtain ⟨⟨registered, bytes₃⟩, hsessions, h⟩ := bind_eq_ok h
    obtain ⟨⟨loading, bytes₄⟩, hclusters, h⟩ := bind_eq_ok h
    obtain ⟨localState, starts, hbytes⟩ := readStart_eq_ok hstart
    obtain ⟨bits, hbits, -, hbytes₂, hregistered⟩ := readList_eq_ok (P := fun _ => True)
      (fun _ _ _ h => ⟨trivial, (readWord_eq_ok h).2⟩) hsessions
    obtain ⟨entries, hentries, hfits, hbytes₃, hloading⟩ := readList_eq_ok
      (fun _ _ _ h => readEntry_eq_ok h) hclusters
    obtain ⟨ids, rfl⟩ := exists_ids_of_foldlM hregistered
    simp only at h
    split at h
    · rename_i hempty
      rw [List.isEmpty_iff] at hempty
      refine ⟨⟨localState, capacity, ids, entries⟩, start, ?_, starts, ?_, ?_⟩
      · exact ⟨readCapacity_bounds hcapacity, by simpa using hbits, hentries, hfits⟩
      · rw [hbytes, readCapacity_eq_ok hcapacity, hbytes₂, hbytes₃, hempty]
        simp only [Snapshot.encode, encodeList, List.length_map, List.flatMap_map,
          List.append_assoc, List.append_nil]
        rfl
      · simp only [Snapshot.restore, hregistered, bind, Except.bind, hloading]
        exact h
    · cases h
  · rintro ⟨snapshot, start, fits, starts, rfl, h⟩
    rw [Peer.load_encode fits (readStart_of_starts starts), h]

end CompactIds
