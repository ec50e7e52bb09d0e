import CompactIds.Proofs.Acceptance
import CompactIds.Proofs.Joining

/-!
# Saving what was loaded

A snapshot is written in the order of the registry, in which the own session
comes first.  So a snapshot that was loaded is written again as it was, but for
the place of the own session in the table.
-/

namespace CompactIds

/-- The table with the own session, if it is in there, before all others. -/
def ownFirst (own : SessionId) (table : List SessionId) : List SessionId :=
  if own ∈ table then own :: table.erase own else table

section OwnFirst

variable {own : SessionId} {table : List SessionId}

theorem ownFirst_perm (own : SessionId) (table : List SessionId) :
    (ownFirst own table).Perm table := by
  unfold ownFirst
  split
  · rename_i hmem
    exact (List.perm_cons_erase hmem).symm
  · exact .refl _

theorem ownFirst_eq_self_iff :
    ownFirst own table = table ↔ own ∉ table ∨ table.head? = some own := by
  unfold ownFirst
  cases table with
  | nil => simp
  | cons id table =>
      by_cases hid : id = own
      · simp [hid]
      · by_cases hmem : own ∈ table <;> simp [hid, hmem, Ne.symm hid]

theorem ownFirst_eq_filter (nodup : table.Nodup) (own : SessionId) :
    ownFirst own table =
      (if own ∈ table then [own] else []) ++ table.filter (· != own) := by
  unfold ownFirst
  split
  · simp [nodup.erase_eq_filter]
  · rename_i hmem
    have hall : table.filter (· != own) = table := by
      rw [List.filter_eq_self]
      rintro id hid
      rw [bne_iff_ne]
      rintro rfl
      exact hmem hid
    rw [hall, List.nil_append]

end OwnFirst

/-! ## The order of the registry -/

namespace Registry

variable {registry : Registry} {id : SessionId}

def names (registry : Registry) : List SessionId :=
  registry.sessions.toList.map Session.id

theorem names_register (indexed : registry.Indexed) (id : SessionId) :
    (registry.register id).1.names =
      if id ∈ registry.names then registry.names else registry.names ++ [id] := by
  cases hfind : registry.find? id with
  | none =>
      have hfresh : id ∉ registry.names := by
        intro hmem
        obtain ⟨place, s, hs, rfl⟩ := mem_ids_iff.1 hmem
        simp [indexed.find?_session hs] at hfind
      rw [if_neg hfresh]
      simp [register_of_find?_none hfind, names, Session.ofId]
  | some place =>
      obtain ⟨s, hs, hid⟩ := indexed.session?_of_find? hfind
      have hmem : id ∈ registry.names := mem_ids_iff.2 ⟨place, s, hs, hid⟩
      rw [register_of_find?_some hfind, if_pos hmem]

@[simp] theorem names_link (registry : Registry) (place cluster : Nat) :
    (registry.link place cluster).names = registry.names := by
  apply List.ext_getElem?
  intro q
  simpa [names, name?, session?] using name?_link registry place cluster q

end Registry

namespace Loading

variable {start : Start} {capacity : Nat} {ids : List SessionId} {shares : List Share}
  {loading next : Loading} {id : SessionId} {entry : ClusterEntry}

def Ordered (start : Start) (ids : List SessionId) (loading : Loading) : Prop :=
  loading.ledger.registry.names = start.session :: ids.filter (· != start.session)

theorem ordered_ofStart (start : Start) (capacity : Nat) :
    (ofStart start capacity).Ordered start [] := by
  simp [Ordered, ofStart, Peer.ofSession, Registry.names, Registry.register, Registry.find?,
    Registry.empty, Session.ofId]

theorem Ordered.acceptSession (ordered : loading.Ordered start ids)
    (holds : loading.Holds start capacity ids shares)
    (h : loading.acceptSession start id.bits = .ok next) : next.Ordered start (ids ++ [id]) := by
  obtain ⟨hid, hstart⟩ := (holds.exists_acceptSession_iff id).1 ⟨next, h⟩
  rw [holds.acceptSession_eq_ok hid hstart, Except.ok.injEq] at h
  subst h
  unfold Ordered at *
  change (loading.ledger.registry.register id).1.names = _
  rw [Registry.names_register holds.sound.ledger.linked.indexed, ordered]
  by_cases hown : id = start.session <;> simp [hown, hid]

theorem Ordered.acceptCluster (ordered : loading.Ordered start ids)
    (h : loading.acceptCluster entry = .ok next) : next.Ordered start ids := by
  obtain ⟨place, s, -, -, -, rfl⟩ := acceptCluster_eq_ok h
  exact (Registry.names_link ..).trans ordered

end Loading

theorem Ledger.Linked.populated_eq_filter {ledger : Ledger} (linked : ledger.Linked) :
    ledger.registry.populated = ledger.registry.names.filter fun id => Owns id ledger.shares := by
  rw [Registry.populated, Registry.names, List.filter_map]
  congr 1
  apply List.filter_congr
  intro s hs
  obtain ⟨place, hs⟩ := Registry.mem_sessions_iff.1 hs
  simp [linked.owns_session hs]

theorem Loading.Ordered.populated_eq {start : Start} {capacity : Nat} {ids : List SessionId}
    {shares : List Share} {loading : Loading} (ordered : loading.Ordered start ids)
    (holds : loading.Holds start capacity ids shares) (nodup : ids.Nodup)
    (howns : ∀ id, Owns id shares ↔ id ∈ ids) :
    loading.ledger.registry.populated = ownFirst start.session ids := by
  calc loading.ledger.registry.populated
      = (start.session :: ids.filter (· != start.session)).filter fun id => id ∈ ids := by
        rw [holds.sound.ledger.linked.populated_eq_filter, ordered, holds.shares]
        simp only [howns]
    _ = (if start.session ∈ ids then [start.session] else []) ++
          ids.filter (· != start.session) := by
        have hrest : (ids.filter (· != start.session)).filter (fun id => id ∈ ids) =
            ids.filter (· != start.session) :=
          List.filter_eq_self.2 fun id hid => by simpa using List.mem_of_mem_filter hid
        by_cases hmem : start.session ∈ ids <;> simp [hmem, hrest]
    _ = ownFirst start.session ids := (ownFirst_eq_filter nodup start.session).symm

/-! ## Snapshots with the same contents -/

namespace Snapshot

variable {given : Option SessionId} {snapshot again : Snapshot} {start : Start} {peer : Peer}
  {own id : SessionId}

theorem restore_ordered (hcapacity : 1 ≤ snapshot.capacity ∧ snapshot.capacity ≤ largestCapacity)
    (h : snapshot.restore start = .ok peer) :
    ∃ loading : Loading,
      loading.Holds start snapshot.capacity snapshot.sessions snapshot.shares ∧
        loading.Ordered start snapshot.sessions ∧ loading.finish start = .ok peer := by
  obtain ⟨registered, hregistered, h⟩ := bind_eq_ok h
  obtain ⟨loading, hloading, h⟩ := bind_eq_ok h
  rw [List.foldlM_map] at hregistered
  -- The order can be followed only together with what the tables hold.
  have keeps := foldlM_keeps (f := id)
    (R := fun loading ids => Loading.Holds start snapshot.capacity ids [] loading ∧
      loading.Ordered start ids)
    (fun known h => ⟨known.1.acceptSession h, known.2.acceptSession known.1 h⟩)
    ⟨Loading.holds_ofStart start hcapacity, Loading.ordered_ofStart start _⟩ hregistered
  simp only [List.map_id, List.nil_append] at keeps
  have keeps' := foldlM_keeps
    (R := fun loading shares => loading.Holds start snapshot.capacity snapshot.sessions shares ∧
      loading.Ordered start snapshot.sessions)
    (fun known h => ⟨known.1.acceptCluster h, known.2.acceptCluster h⟩) keeps hloading
  exact ⟨loading, keeps'.1, keeps'.2, h⟩

theorem mem_of_owns (h : Owns id snapshot.shares) : id ∈ snapshot.sessions := by
  obtain ⟨share, hshare, howner⟩ := h
  obtain ⟨entry, -, rfl⟩ := List.mem_map.1 hshare
  exact List.mem_of_getElem? howner

private theorem entries_eq_of_shares {table : List SessionId} (nodup : table.Nodup)
    {entries entries' : List ClusterEntry}
    (owned : ∀ entry ∈ entries, (table[entry.owner]?).isSome)
    (h : entries.map (fun entry => (⟨table[entry.owner]?, entry.capacity, entry.count⟩ : Share)) =
      entries'.map fun entry => ⟨table[entry.owner]?, entry.capacity, entry.count⟩) :
    entries = entries' := by
  induction entries generalizing entries' with
  | nil => simpa using h.symm
  | cons entry entries ih =>
      cases entries' with
      | nil => simp at h
      | cons entry' entries' =>
          rw [List.forall_mem_cons] at owned
          simp only [List.map_cons, List.cons.injEq, Share.mk.injEq] at h
          obtain ⟨⟨howner, hcapacity, hcount⟩, hrest⟩ := h
          have hlt : entry.owner < table.length := by simpa using owned.1
          have hplace := (List.getElem?_inj hlt nodup).1 howner
          rw [ih owned.2 hrest]
          congr 1
          cases entry
          cases entry'
          simp_all

theorem clusters_eq_of_shares (tenable : Tenable snapshot.shares) (nodup : snapshot.sessions.Nodup)
    (hsessions : again.sessions = snapshot.sessions) (h : again.shares = snapshot.shares) :
    again.clusters = snapshot.clusters := by
  refine (entries_eq_of_shares nodup (fun entry hentry => ?_) ?_).symm
  · exact tenable.owned _ (List.mem_map_of_mem hentry)
  · rw [shares, shares, hsessions] at h
    exact h.symm

theorem length_encode (snapshot : Snapshot) :
    snapshot.encode.length = (encodeLocalState snapshot.localState).length +
      16 * snapshot.sessions.length + 24 * snapshot.clusters.length + 28 := by
  simp only [encode, encodeList, List.length_append, List.length_flatMap, Word.length_encode,
    encodeSession, encodeEntry, List.map_const', List.sum_replicate_nat]
  omega

/-- The same contents, with the own session first in the table. -/
structure Reordered (own : SessionId) (snapshot again : Snapshot) : Prop where
  localState : again.localState = snapshot.localState
  capacity : again.capacity = snapshot.capacity
  sessions : again.sessions = ownFirst own snapshot.sessions
  shares : again.shares = snapshot.shares

namespace Reordered

theorem eq_of_ownFirst (reordered : snapshot.Reordered own again)
    (wellFormed : snapshot.WellFormed given)
    (h : ownFirst own snapshot.sessions = snapshot.sessions) : again = snapshot := by
  have hsessions := reordered.sessions.trans h
  have hclusters :=
    clusters_eq_of_shares wellFormed.tenable wellFormed.nodup hsessions reordered.shares
  obtain ⟨hlocal, hcapacity, -, -⟩ := reordered
  cases again
  cases snapshot
  simp_all

theorem length_encode (reordered : snapshot.Reordered own again) :
    again.encode.length = snapshot.encode.length := by
  have hsessions := (ownFirst_perm own snapshot.sessions).length_eq
  have hclusters := congrArg List.length reordered.shares
  simp only [Snapshot.shares, List.length_map] at hclusters
  simp only [Snapshot.length_encode, reordered.localState, reordered.sessions, hsessions,
    hclusters]

end Reordered

end Snapshot

def readId (ids : List SessionId) (bits : Nat) : Except Fault (List SessionId) :=
  (checkSessionId .sessionId bits).map fun id => ids ++ [id]

def readTable (given : Option SessionId) (bytes : List UInt8) : Except Fault (List SessionId) := do
  let (_, bytes) ← readStart given bytes
  let (_, bytes) ← readCapacity bytes
  let (ids, _) ← readList (readWord 16) readId [] bytes
  .ok ids

private theorem foldlM_readId (ids table : List SessionId) :
    (table.map StableId.bits).foldlM readId ids = .ok (ids ++ table) := by
  induction table generalizing ids with
  | nil => simp [pure, Except.pure]
  | cons id table ih =>
      rw [List.map_cons, List.foldlM_cons]
      simp only [readId, checkSessionId_bits, Except.map, bind, Except.bind] at ih ⊢
      rw [ih]
      simp

theorem readTable_encode {given : Option SessionId} {snapshot : Snapshot} {start : Start}
    (fits : snapshot.Fits) (starts : Starts given snapshot.localState start) :
    readTable given snapshot.encode = .ok snapshot.sessions := by
  have hsessions : ∀ rest,
      readList (readWord 16) readId [] (encodeList encodeSession snapshot.sessions ++ rest) =
        ((snapshot.sessions.map StableId.bits).foldlM readId []).map fun ids => (ids, rest) :=
    readList_suffix (fun id _ rest => readSession_suffix id rest) fits.sessions []
  simp only [readTable, Snapshot.encode, List.append_assoc, readStart_of_starts starts, bind,
    Except.bind, readCapacity_suffix fits.capacity, hsessions, foldlM_readId, Except.map,
    List.nil_append]

namespace Peer

variable {given : Option SessionId} {bytes : List UInt8} {peer : Peer}

/-! ## The peer of a snapshot -/

theorem finish_eq_ok {start : Start} {loading : Loading} (h : loading.finish start = .ok peer) :
    peer.session = start.session ∧ peer.ledger = loading.ledger ∧
      ∀ state, start = .resume state → peer.localState = state := by
  unfold Loading.finish at h
  split at h
  · cases h
  · split at h
    · cases h
      exact ⟨rfl, rfl, by simp⟩
    · split at h
      · cases h
      · cases h
        refine ⟨rfl, rfl, ?_⟩
        rintro state' ⟨⟩
        rfl

/-- A loaded peer writes what it was loaded from, with its own session first. -/
theorem exists_reordered (h : load given bytes = .ok peer) :
    ∃ (snapshot : Snapshot) (start : Start), snapshot.WellFormed given ∧
      Starts given snapshot.localState start ∧ bytes = snapshot.encode ∧
      peer.session = start.session ∧
      snapshot.Reordered peer.session (peer.snapshot given.isNone) := by
  obtain ⟨snapshot, start, fits, starts, hbytes, hrestore⟩ := load_eq_ok_iff.1 h
  have wellFormed : snapshot.WellFormed given :=
    Snapshot.wellFormed_iff.2 ⟨start, fits, starts, peer, hrestore⟩
  obtain ⟨loading, holds, ordered, hfinish⟩ := Snapshot.restore_ordered fits.capacity hrestore
  obtain ⟨hsession, hledger, hstate⟩ := finish_eq_ok hfinish
  have howns : ∀ id, Owns id snapshot.shares ↔ id ∈ snapshot.sessions :=
    fun id => ⟨Snapshot.mem_of_owns, wellFormed.owns id⟩
  have hpopulated := ordered.populated_eq holds wellFormed.nodup howns
  refine ⟨snapshot, start, wellFormed, starts, hbytes, hsession, ?_, ?_, ?_, ?_⟩
  · generalize snapshot.localState = localState at starts
    cases starts with
    | join session => rfl
    | resume sound => exact congrArg some (hstate _ rfl)
  · simp [Peer.snapshot, hledger, holds.capacity]
  · simp [Peer.snapshot, hledger, hsession, hpopulated]
  · rw [(sound_of_load h).shares_snapshot, hledger, holds.shares]

theorem load_save_of_load (h : load none bytes = .ok peer) :
    load none (peer.save true) = .ok peer := by
  have sound := sound_of_load h
  obtain ⟨snapshot, start, fits, starts, -, hrestore⟩ := load_eq_ok_iff.1 h
  obtain ⟨loading, holds, hfinish⟩ := Snapshot.restore_eq_ok fits.capacity hrestore
  obtain ⟨hsession, hledger, hstate⟩ := finish_eq_ok hfinish
  have hend := holds.endOf_finalized
  generalize snapshot.localState = localState at starts
  cases starts with
  | @resume state hsound =>
      have hfinalized := (holds.exists_finish_iff.1 ⟨peer, hfinish⟩).2 state rfl
      have hlocal := hstate state rfl
      have hgenerated : peer.generated = state.generated := congrArg LocalState.generated hlocal
      have htaken : peer.taken = state.taken := congrArg LocalState.taken hlocal
      rw [load_save sound (hgenerated ▸ hsound.generated_lt), if_neg]
      rw [hledger, hsession, hend, htaken]
      simp only [Start.session]
      omega

theorem save_load (bytes : List UInt8) :
    (∀ joiner peer, load (some joiner) bytes = .ok peer → peer.save false = bytes) ∧
    ∀ peer, load none bytes = .ok peer → ∃ table, readTable none bytes = .ok table ∧
      (peer.save true = bytes ↔ peer.session ∉ table ∨ table.head? = some peer.session) ∧
      (peer.save true).length = bytes.length ∧
      ∃ again, load none (peer.save true) = .ok again ∧ again = peer ∧
        again.save true = peer.save true := by
  constructor
  · intro joiner peer h
    obtain ⟨snapshot, start, wellFormed, starts, rfl, hsession, reordered⟩ := exists_reordered h
    have habsent : peer.session ∉ snapshot.sessions := by
      generalize snapshot.localState = localState at starts
      cases starts with
      | join => exact hsession ▸ wellFormed.absent joiner rfl
    have hsame := reordered.eq_of_ownFirst wellFormed (ownFirst_eq_self_iff.2 (.inl habsent))
    exact congrArg Snapshot.encode hsame
  · intro peer h
    obtain ⟨snapshot, start, wellFormed, starts, rfl, -, reordered⟩ := exists_reordered h
    have htable := readTable_encode wellFormed.fits starts
    have htable' : readTable none (peer.save true) =
        .ok (ownFirst peer.session snapshot.sessions) := by
      rw [← reordered.sessions]
      exact readTable_encode ((sound_of_load h).fits_snapshot true)
        (reordered.localState ▸ starts)
    refine ⟨snapshot.sessions, htable, ?_, reordered.length_encode, peer, load_save_of_load h,
      rfl, rfl⟩
    rw [← ownFirst_eq_self_iff]
    constructor
    · intro hsave
      rw [hsave, htable] at htable'
      exact (Except.ok.inj htable').symm
    · intro hfirst
      exact congrArg Snapshot.encode (reordered.eq_of_ownFirst wellFormed hfirst)

theorem save_load_second :
    let own : SessionId := Position.toStableId ⟨5, by decide⟩
    let other : SessionId := Position.toStableId ⟨900, by decide⟩
    let peer := (ofSession own).replay [.generate, .take, .finalize (.ofSpan other 1 2),
      .finalize (.ofSpan own 1 1)]
    let bytes := ({ peer.snapshot true with
      sessions := [other, own], clusters := [⟨0, 514, 2⟩, ⟨1, 513, 1⟩] } : Snapshot).encode
    load none bytes = .ok peer ∧ peer.save true ≠ bytes ∧
      (peer.save true).length = bytes.length ∧ load none (peer.save true) = .ok peer := by
  intro own other peer bytes
  have hload : load none bytes = .ok peer := by decide +kernel
  obtain ⟨table, htable, hsave, hlength, again, hagain, rfl, -⟩ := (save_load bytes).2 peer hload
  have hsecond : readTable none bytes = .ok [other, own] := by decide +kernel
  obtain rfl : [other, own] = table := Except.ok.inj (hsecond.symm.trans htable)
  exact ⟨hload, fun h => absurd (hsave.1 h) (by decide +kernel), hlength, hagain⟩

end Peer

end CompactIds
