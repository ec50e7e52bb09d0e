import CompactIds.Proofs.Tables
import Mathlib.Algebra.Order.Group.Nat
import Mathlib.Data.List.Perm.Subperm

/-!
# The snapshots that load

Bytes load exactly if they encode a well-formed snapshot.  What the loader
checks step by step, while its tables grow, is stated here once for all of a
snapshot.
-/

namespace CompactIds

structure LocalState.WellFormed (state : LocalState) (shares : List Share) : Prop where
  generated : state.generated < 2 ^ 63 - 1
  taken : state.taken ≤ state.generated
  runs : ∀ run ∈ state.locals.runs,
    1 ≤ run.first ∧ 1 ≤ run.count ∧ run.first + run.count ≤ state.generated + 1
  disjoint : state.locals.runs.toList.Pairwise fun a b => a.first + a.count ≤ b.first
  finalized : sumOf Share.count state.session shares ≤ state.taken

/-- A session is given exactly if the snapshot has no local state, and then the
table may not name it.  The table names each session once, and only such as own
clusters. -/
structure Snapshot.WellFormed (given : Option SessionId) (snapshot : Snapshot) : Prop where
  flag : given.isSome ↔ snapshot.localState = none
  localState : ∀ state, snapshot.localState = some state → state.WellFormed snapshot.shares
  capacity : 1 ≤ snapshot.capacity ∧ snapshot.capacity ≤ 2 ^ 20
  nodup : snapshot.sessions.Nodup
  absent : ∀ id, given = some id → id ∉ snapshot.sessions
  owns : ∀ id ∈ snapshot.sessions, Owns id snapshot.shares
  tenable : Tenable snapshot.shares

theorem LocalState.wellFormed_iff {state : LocalState} {shares : List Share} :
    state.WellFormed shares ↔
      state.Sound ∧ sumOf Share.count state.session shares ≤ state.taken := by
  constructor
  · rintro ⟨generated, taken, runs, disjoint, finalized⟩
    refine ⟨⟨generated, taken, ?_, ?_, disjoint, ?_⟩, finalized⟩
    · exact fun run hrun => (runs run hrun).2.1
    · exact fun run hrun => (runs run hrun).1
    · exact fun run hrun => (runs run hrun).2.2
  · rintro ⟨⟨generated, taken, within⟩, finalized⟩
    refine ⟨generated, taken, fun run hrun => ?_, within.disjoint, finalized⟩
    exact ⟨within.positive run hrun, within.nonempty run hrun, within.bounded run hrun⟩

namespace Tenable

variable {shares : List Share}

theorem length_le (tenable : Tenable shares) : shares.length ≤ idLimit := by
  have hlength := List.length_le_sum_of_one_le (shares.map Share.capacity) (by
    intro capacity hcapacity
    obtain ⟨share, hshare, rfl⟩ := List.mem_map.1 hcapacity
    exact Nat.le_trans (tenable.sizes share hshare).1 (tenable.sizes share hshare).2)
  rw [List.length_map] at hlength
  exact Nat.le_trans hlength tenable.finals

theorem capacity_le (tenable : Tenable shares) {share : Share} (h : share ∈ shares) :
    share.capacity ≤ idLimit :=
  Nat.le_trans (List.single_le_sum (fun _ _ => Nat.zero_le _) _ (List.mem_map_of_mem h))
    tenable.finals

end Tenable

theorem length_le_of_owns {ids : List SessionId} {shares : List Share} (nodup : ids.Nodup)
    (owns : ∀ id ∈ ids, Owns id shares) : ids.length ≤ shares.length := by
  have hsubset : ids.map some ⊆ shares.map Share.owner := by
    intro name hname
    obtain ⟨id, hid, rfl⟩ := List.mem_map.1 hname
    obtain ⟨share, hshare, howner⟩ := owns id hid
    exact howner ▸ List.mem_map_of_mem hshare
  have hnodup : (ids.map some).Nodup := nodup.map (Option.some_injective _)
  have hlength := (List.Nodup.subperm hnodup hsubset).length_le
  simpa using hlength

namespace Snapshot

variable {given : Option SessionId} {snapshot : Snapshot}

theorem WellFormed.fits (h : snapshot.WellFormed given) : snapshot.Fits := by
  have hlimit := idLimit_lt
  have hclusters : snapshot.clusters.length ≤ idLimit := by
    simpa [shares] using h.tenable.length_le
  have hsessions : snapshot.sessions.length ≤ snapshot.clusters.length := by
    simpa [shares] using length_le_of_owns h.nodup h.owns
  refine ⟨h.capacity, by omega, by omega, fun entry hentry => ?_⟩
  have hshare : ⟨snapshot.sessions[entry.owner]?, entry.capacity, entry.count⟩ ∈
      snapshot.shares := List.mem_map_of_mem hentry
  have hcount := (h.tenable.sizes _ hshare).2
  have hcapacity := h.tenable.capacity_le hshare
  obtain ⟨id, hid⟩ := Option.isSome_iff_exists.1 (h.tenable.owned _ hshare)
  obtain ⟨howner, -⟩ := List.getElem?_eq_some_iff.1 hid
  constructor <;> simp only at * <;> omega

theorem WellFormed.exists_starts (h : snapshot.WellFormed given) :
    ∃ start, Starts given snapshot.localState start := by
  have hgiven := h.flag
  cases given with
  | some session =>
      rw [hgiven.1 rfl]
      exact ⟨_, .join session⟩
  | none =>
      cases hstate : snapshot.localState with
      | none => simp [hstate] at hgiven
      | some state =>
          exact ⟨_, .resume (LocalState.wellFormed_iff.1 (h.localState state hstate)).1⟩

theorem wellFormed_iff : snapshot.WellFormed given ↔
    ∃ start, snapshot.Fits ∧ Starts given snapshot.localState start ∧
      ∃ peer, snapshot.restore start = .ok peer := by
  constructor
  · intro h
    obtain ⟨start, starts⟩ := h.exists_starts
    refine ⟨start, h.fits, starts, (exists_restore_iff h.capacity).2 ?_⟩
    have hstate := h.localState
    generalize snapshot.localState = localState at starts hstate
    cases starts with
    | join session =>
        refine ⟨⟨h.nodup, fun id hid hjoin => ?_⟩, h.tenable, h.owns, fun state hresume => ?_⟩
        · cases hjoin
          exact h.absent session rfl hid
        · cases hresume
    | @resume state sound =>
        refine ⟨⟨h.nodup, fun id _ hjoin => ?_⟩, h.tenable, h.owns, fun state' hresume => ?_⟩
        · cases hjoin
        · cases hresume
          exact (hstate state rfl).finalized
  · rintro ⟨start, fits, starts, hpeer⟩
    obtain ⟨admits, tenable, owns, finalized⟩ := (exists_restore_iff fits.capacity).1 hpeer
    generalize hlocal : snapshot.localState = localState at starts
    cases starts with
    | join session =>
        refine ⟨by simp [hlocal], by simp [hlocal], fits.capacity, admits.nodup, ?_, owns, tenable⟩
        rintro id ⟨⟩ hid
        exact admits.absent session hid rfl
    | @resume state sound =>
        refine ⟨by simp [hlocal], ?_, fits.capacity, admits.nodup, by simp, owns, tenable⟩
        intro state' hstate'
        rw [hlocal] at hstate'
        cases hstate'
        exact LocalState.wellFormed_iff.2 ⟨sound, finalized state rfl⟩

end Snapshot

/-- The bytes that load are the encodings of well-formed snapshots. -/
theorem Peer.exists_load_iff (given : Option SessionId) (bytes : List UInt8) :
    (∃ peer, Peer.load given bytes = .ok peer) ↔
      ∃ snapshot : Snapshot, bytes = snapshot.encode ∧ snapshot.WellFormed given := by
  simp only [Peer.load_eq_ok_iff, Snapshot.wellFormed_iff]
  constructor
  · rintro ⟨peer, snapshot, start, fits, starts, hbytes, hpeer⟩
    exact ⟨snapshot, hbytes, start, fits, starts, peer, hpeer⟩
  · rintro ⟨snapshot, hbytes, start, fits, starts, peer, hpeer⟩
    exact ⟨peer, snapshot, start, fits, starts, hbytes, hpeer⟩

end CompactIds
