import CompactIds.Proofs.Decode
import CompactIds.Proofs.Shares

/-!
# Which tables are accepted

The loader checks each session and each cluster against what it has built so
far.  By names, that comes to conditions on the whole lists: the sessions are
distinct and the shares are tenable.
-/

namespace CompactIds

section Lists

variable {σ α β : Type} {accept : σ → α → Except Fault σ} {f : α → β}
  {R : σ → List β → Prop} {P : List β → Prop} {state last : σ} {xs : List β}

theorem foldlM_keeps
    (keeps : ∀ {state xs a next}, R state xs → accept state a = .ok next →
      R next (xs ++ [f a]))
    {items : List α} (hstate : R state xs) (h : items.foldlM accept state = .ok last) :
    R last (xs ++ items.map f) := by
  induction items generalizing state xs with
  | nil =>
      cases h
      rwa [List.map_nil, List.append_nil]
  | cons a items ih =>
      rw [List.foldlM_cons] at h
      obtain ⟨next, hnext, hrest⟩ := bind_eq_ok h
      have hlast := ih (keeps hstate hnext) hrest
      rwa [List.append_assoc] at hlast

/-- If an item is accepted exactly when the list stays within `P` with it, then a
list is accepted exactly when it is within `P` as a whole. -/
theorem exists_foldlM_iff
    (keeps : ∀ {state xs a next}, R state xs → accept state a = .ok next →
      R next (xs ++ [f a]))
    (accepts : ∀ {state xs}, R state xs → ∀ a,
      (∃ next, accept state a = .ok next) ↔ P (xs ++ [f a]))
    (front : ∀ {xs ys}, P (xs ++ ys) → P xs) (items : List α) (hstate : R state xs)
    (hxs : P xs) :
    (∃ last, items.foldlM accept state = .ok last) ↔ P (xs ++ items.map f) := by
  induction items generalizing state xs with
  | nil =>
      rw [List.map_nil, List.append_nil]
      exact ⟨fun _ => hxs, fun _ => ⟨state, rfl⟩⟩
  | cons a items ih =>
      have hsplit : xs ++ (a :: items).map f = (xs ++ [f a]) ++ items.map f := by simp
      rw [hsplit, List.foldlM_cons]
      constructor
      · rintro ⟨last, h⟩
        obtain ⟨next, hnext, hrest⟩ := bind_eq_ok h
        exact (ih (keeps hstate hnext) ((accepts hstate a).1 ⟨next, hnext⟩)).1 ⟨last, hrest⟩
      · intro h
        obtain ⟨next, hnext⟩ := (accepts hstate a).2 (front h)
        obtain ⟨last, hlast⟩ := (ih (keeps hstate hnext) (front h)).2 h
        exact ⟨last, by rw [hnext]; exact hlast⟩

end Lists

/-! ## The state of the loader -/

namespace Loading

variable {start : Start} {capacity : Nat} {ids : List SessionId} {shares : List Share}
  {loading next : Loading} {id : SessionId} {place : Nat} {s : Session} {entry : ClusterEntry}

structure Holds (start : Start) (capacity : Nat) (ids : List SessionId) (shares : List Share)
    (loading : Loading) : Prop where
  sound : loading.Sound start
  capacity : loading.ledger.capacity = capacity
  named : loading.table.toList.map loading.ledger.registry.name? = ids.map some
  shares : loading.ledger.shares = shares

theorem holds_ofStart (start : Start) (h : 1 ≤ capacity ∧ capacity ≤ largestCapacity) :
    (ofStart start capacity).Holds start capacity [] [] where
  sound := sound_ofStart start h
  capacity := rfl
  named := rfl
  shares := rfl

namespace Holds

variable (holds : loading.Holds start capacity ids shares)

include holds

theorem getElem?_named (i : Nat) :
    (loading.table[i]?).map loading.ledger.registry.name? = ids[i]?.map some := by
  have hi := congrArg (fun names : List (Option SessionId) => names[i]?) holds.named
  simpa using hi

theorem exists_place {i : Nat} (hid : ids[i]? = some id) :
    ∃ place s, loading.table[i]? = some place ∧
      loading.ledger.registry.session? place = some s ∧ s.id = id := by
  have hnamed := holds.getElem?_named i
  rw [hid] at hnamed
  obtain ⟨place, hplace, hname⟩ := Option.map_eq_some_iff.1 hnamed
  obtain ⟨s, hs, hid⟩ := Registry.name?_eq_some_iff.1 hname
  exact ⟨place, s, hplace, hs, hid⟩

theorem exists_id {i : Nat} (hplace : loading.table[i]? = some place) :
    ∃ s, loading.ledger.registry.session? place = some s ∧ ids[i]? = some s.id := by
  have hnamed := holds.getElem?_named i
  rw [hplace] at hnamed
  obtain ⟨id, hid, hname⟩ := Option.map_eq_some_iff.1 hnamed.symm
  obtain ⟨s, hs, rfl⟩ := Registry.name?_eq_some_iff.1 hname.symm
  exact ⟨s, hs, hid⟩

theorem getElem?_eq {i : Nat} (hplace : loading.table[i]? = some place)
    (hs : loading.ledger.registry.session? place = some s) : ids[i]? = some s.id := by
  obtain ⟨t, ht, hid⟩ := holds.exists_id hplace
  rw [hs, Option.some.injEq] at ht
  rw [hid, ht]

theorem mem_iff (hs : loading.ledger.registry.session? place = some s) :
    s.id ∈ ids ↔ place ∈ loading.table := by
  rw [List.mem_iff_getElem?, Array.mem_iff_getElem?]
  constructor
  · rintro ⟨i, hi⟩
    obtain ⟨q, t, hq, ht, hid⟩ := holds.exists_place hi
    exact ⟨i, by rw [hq, holds.sound.ledger.linked.indexed.place_eq ht hs hid]⟩
  · rintro ⟨i, hi⟩
    exact ⟨i, holds.getElem?_eq hi hs⟩

theorem eq_session_of_not_mem (hs : loading.ledger.registry.session? place = some s)
    (h : s.id ∉ ids) : place = Peer.ownPlace ∧ s.id = start.session := by
  have hplace : place = Peer.ownPlace := by
    by_contra hne
    exact h ((holds.mem_iff hs).2 (holds.sound.listed hs hne))
  obtain ⟨own, hown, hid⟩ := holds.sound.own
  rw [hplace, hown] at hs
  cases hs
  exact ⟨hplace, hid⟩

theorem exists_session (h : id ∈ ids ∨ id = start.session) :
    ∃ place s, loading.ledger.registry.session? place = some s ∧ s.id = id := by
  rcases h with h | rfl
  · obtain ⟨i, hi⟩ := List.mem_iff_getElem?.1 h
    obtain ⟨place, s, -, hs, hid⟩ := holds.exists_place hi
    exact ⟨place, s, hs, hid⟩
  · obtain ⟨own, hown, hid⟩ := holds.sound.own
    exact ⟨Peer.ownPlace, own, hown, hid⟩

theorem acceptSession_eq_ok (hid : id ∉ ids) (hstart : start ≠ .join id) :
    loading.acceptSession start id.bits = .ok ⟨loading.ledger.register id,
      loading.table.push (loading.ledger.registry.register id).2⟩ := by
  cases hfind : loading.ledger.registry.find? id with
  | none =>
      rw [acceptSession_of_fresh hfind, Registry.register_of_find?_none hfind]
  | some place =>
      obtain ⟨s, hs, rfl⟩ := holds.sound.ledger.linked.indexed.session?_of_find? hfind
      obtain ⟨rfl, hsession⟩ := holds.eq_session_of_not_mem hs hid
      have htable : Peer.ownPlace ∉ loading.table := fun hmem => hid ((holds.mem_iff hs).2 hmem)
      cases start with
      | join session => exact absurd (by rw [hsession]; rfl) hstart
      | resume state =>
          simp [acceptSession, bind, Except.bind, hfind, htable, Ledger.register,
            Registry.register_of_find?_some hfind]

theorem acceptSession_conflict {session : SessionId}
    (hjoin : start = .join session) (h : session ∉ ids) :
    loading.acceptSession start session.bits = .error (.sessionIdConflict session) := by
  subst hjoin
  have howned : session ∈ ids ∨ session = (Start.join session).session := .inr rfl
  obtain ⟨place, s, hs, rfl⟩ := holds.exists_session howned
  obtain ⟨rfl, -⟩ := holds.eq_session_of_not_mem hs h
  have hfind := holds.sound.ledger.linked.indexed.find?_session hs
  simp [acceptSession, bind, Except.bind, hfind]

theorem exists_acceptSession_iff (id : SessionId) :
    (∃ next, loading.acceptSession start id.bits = .ok next) ↔
      id ∉ ids ∧ start ≠ .join id := by
  constructor
  · rintro ⟨next, h⟩
    have hid : id ∉ ids := by
      intro hmem
      obtain ⟨place, s, hs, rfl⟩ := holds.exists_session (.inl hmem)
      have hfind := holds.sound.ledger.linked.indexed.find?_session hs
      have htable := (holds.mem_iff hs).1 hmem
      cases start with
      | join session =>
          simp only [Loading.acceptSession, checkSessionId_bits, bind, Except.bind, hfind,
            malformed] at h
          split at h <;> cases h
      | resume state => simp [acceptSession, bind, Except.bind, hfind, htable, malformed] at h
    refine ⟨hid, fun hjoin => ?_⟩
    rw [holds.acceptSession_conflict hjoin hid] at h
    cases h
  · rintro ⟨hid, hstart⟩
    exact ⟨_, holds.acceptSession_eq_ok hid hstart⟩

theorem acceptSession (h : loading.acceptSession start id.bits = .ok next) :
    next.Holds start capacity (ids ++ [id]) shares := by
  obtain ⟨hid, hstart⟩ := (holds.exists_acceptSession_iff id).1 ⟨next, h⟩
  have hsound := holds.sound.acceptSession h
  rw [holds.acceptSession_eq_ok hid hstart] at h
  cases h
  refine ⟨hsound, holds.capacity, ?_, ?_⟩
  · have hold : loading.table.toList.map (loading.ledger.register id).registry.name? =
        ids.map some := by
      rw [← holds.named]
      apply List.map_congr_left
      intro place hplace
      have hmem := List.mem_map_of_mem (f := loading.ledger.registry.name?) hplace
      rw [holds.named] at hmem
      obtain ⟨other, -, hname⟩ := List.mem_map.1 hmem
      rw [← hname]
      exact Registry.name?_register hname.symm id
    obtain ⟨s, hs, hsid⟩ := (holds.sound.ledger.linked.indexed.register id).session?_of_find?
      (holds.sound.ledger.linked.indexed.find?_register id)
    have hnew : (loading.ledger.register id).registry.name?
        (loading.ledger.registry.register id).2 = some id :=
      Registry.name?_eq_some_iff.2 ⟨s, hs, hsid⟩
    simp [hold, hnew]
  · rw [← holds.shares]
    exact Ledger.shares_register holds.sound.ledger.linked id

theorem exists_acceptCluster_iff (entry : ClusterEntry) :
    (∃ next, loading.acceptCluster entry = .ok next) ↔
      Tenable (shares ++ [⟨ids[entry.owner]?, entry.capacity, entry.count⟩]) := by
  have sound := holds.sound.ledger
  constructor
  · rintro ⟨next, h⟩
    obtain ⟨place, s, hplace, hs, hdefect, -⟩ := acceptCluster_eq_ok h
    rw [holds.getElem?_eq hplace hs, ← holds.shares, ← sound.fits_iff_tenable hs]
    exact sound.clusterDefect?_eq_none_iff.1 hdefect
  · intro htenable
    obtain ⟨id, hid⟩ : ∃ id, ids[entry.owner]? = some id := Option.isSome_iff_exists.1
      (htenable.owned _ (List.mem_append_right _ (List.mem_singleton_self _)))
    obtain ⟨place, s, hplace, hs, rfl⟩ := holds.exists_place hid
    rw [hid, ← holds.shares, ← sound.fits_iff_tenable hs] at htenable
    have hdefect := sound.clusterDefect?_eq_none_iff.2 htenable
    simp [Loading.acceptCluster, hplace, hs, hdefect]

theorem acceptCluster (h : loading.acceptCluster entry = .ok next) :
    next.Holds start capacity ids
      (shares ++ [⟨ids[entry.owner]?, entry.capacity, entry.count⟩]) := by
  have hsound := holds.sound.acceptCluster h
  obtain ⟨place, s, hplace, hs, -, rfl⟩ := acceptCluster_eq_ok h
  refine ⟨hsound, holds.capacity, ?_, ?_⟩
  · rw [← holds.named]
    apply List.map_congr_left
    intro q _
    exact Registry.name?_link loading.ledger.registry place loading.ledger.tiling.size q
  · rw [Ledger.shares_append, hs, holds.shares, holds.getElem?_eq hplace hs]
    rfl

theorem isSettled_iff : loading.isSettled = true ↔ ∀ id ∈ ids, Owns id shares := by
  have linked := holds.sound.ledger.linked
  rw [isSettled, Array.all_eq_true']
  constructor
  · intro h id hid
    obtain ⟨place, s, hs, rfl⟩ := holds.exists_session (.inl hid)
    have hpop := h place ((holds.mem_iff hs).1 hid)
    rw [hs] at hpop
    rw [← holds.shares]
    exact (linked.owns_session hs).2 hpop
  · intro h place hplace
    obtain ⟨i, hi⟩ := Array.mem_iff_getElem?.1 hplace
    obtain ⟨s, hs, hid⟩ := holds.exists_id hi
    have howns := h s.id (List.mem_of_getElem? hid)
    rw [← holds.shares] at howns
    rw [hs]
    exact (linked.owns_session hs).1 howns

theorem endOf_finalized :
    loading.ledger.endOf start.session .finalized = 1 + sumOf Share.count start.session shares := by
  have sound := holds.sound.ledger
  obtain ⟨s, hs, hid⟩ := holds.sound.own
  rw [← hid, sound.linked.endOf_session hs, sound.linked.endOf_eq_sumOf_count sound.laid hs,
    holds.shares]

theorem exists_finish_iff : (∃ peer, loading.finish start = .ok peer) ↔
    (∀ id ∈ ids, Owns id shares) ∧
      ∀ state, start = .resume state → sumOf Share.count state.session shares ≤ state.taken := by
  have hend := holds.endOf_finalized
  rw [← holds.isSettled_iff]
  unfold finish
  cases loading.isSettled with
  | false => simp [malformed]
  | true =>
      cases start with
      | join session => simp
      | resume state =>
          simp only [Start.session] at hend
          simp only [hend, Bool.not_true, Bool.false_eq_true, if_false, true_and,
            Start.resume.injEq, forall_eq']
          split
          · simp only [malformed, reduceCtorEq, exists_false, false_iff]
            omega
          · simp only [Except.ok.injEq, exists_eq', true_iff]
            omega

end Holds

end Loading

/-! ## The table of sessions -/

/-- The tables that a peer can start with: they name no session twice, and not
the one that joins. -/
structure Start.Admits (start : Start) (ids : List SessionId) : Prop where
  nodup : ids.Nodup
  absent : ∀ id ∈ ids, start ≠ .join id

namespace Start.Admits

variable {start : Start} {ids others : List SessionId} {id : SessionId}

theorem of_append (h : start.Admits (ids ++ others)) : start.Admits ids where
  nodup := (List.nodup_append.1 h.nodup).1
  absent := fun id hid => h.absent id (List.mem_append_left others hid)

theorem append_singleton_iff (h : start.Admits ids) :
    start.Admits (ids ++ [id]) ↔ id ∉ ids ∧ start ≠ .join id := by
  constructor
  · rintro ⟨nodup, absent⟩
    refine ⟨fun hid => ?_, absent id (by simp)⟩
    exact (List.nodup_append.1 nodup).2.2 id hid id (by simp) rfl
  · rintro ⟨hid, hstart⟩
    constructor
    · rw [List.nodup_append]
      refine ⟨h.nodup, by simp, fun a ha b hb => ?_⟩
      rw [List.mem_singleton.1 hb]
      exact fun hab => hid (hab ▸ ha)
    · intro other hother
      rcases List.mem_append.1 hother with hother | hother
      · exact h.absent other hother
      · rwa [List.mem_singleton.1 hother]

end Start.Admits

namespace Loading

variable {start : Start} {capacity : Nat} {ids : List SessionId} {loading : Loading}

theorem holds_of_sessions (hcapacity : 1 ≤ capacity ∧ capacity ≤ largestCapacity)
    (h : (ids.map StableId.bits).foldlM (acceptSession start) (ofStart start capacity) =
      .ok loading) : loading.Holds start capacity ids [] := by
  rw [List.foldlM_map] at h
  have holds := foldlM_keeps (f := id)
    (R := fun loading ids => loading.Holds start capacity ids [])
    (fun holds h => holds.acceptSession h) (holds_ofStart start hcapacity) h
  rwa [List.map_id, List.nil_append] at holds

theorem exists_sessions_iff (hcapacity : 1 ≤ capacity ∧ capacity ≤ largestCapacity) :
    (∃ loading, (ids.map StableId.bits).foldlM (acceptSession start)
      (ofStart start capacity) = .ok loading) ↔ start.Admits ids := by
  have nil : start.Admits [] := ⟨List.nodup_nil, by simp⟩
  let R (loading : Loading) (ids : List SessionId) : Prop :=
    loading.Holds start capacity ids [] ∧ start.Admits ids
  have accepts : ∀ {loading ids}, R loading ids → ∀ id,
      (∃ next, loading.acceptSession start id.bits = .ok next) ↔ start.Admits (ids ++ [id]) :=
    fun h id => (h.1.exists_acceptSession_iff id).trans h.2.append_singleton_iff.symm
  have keeps : ∀ {loading ids id next}, R loading ids →
      loading.acceptSession start id.bits = .ok next → R next (ids ++ [id]) :=
    fun h hnext => ⟨h.1.acceptSession hnext, (accepts h _).1 ⟨_, hnext⟩⟩
  have hiff := exists_foldlM_iff (f := id) (R := R) keeps accepts Start.Admits.of_append ids
    ⟨holds_ofStart start hcapacity, nil⟩ nil
  rwa [List.map_id, List.nil_append, ← List.foldlM_map] at hiff

theorem sessions_conflict {session : SessionId}
    (hcapacity : 1 ≤ capacity ∧ capacity ≤ largestCapacity) (nodup : ids.Nodup)
    (hmem : session ∈ ids) :
    (ids.map StableId.bits).foldlM (acceptSession (.join session))
      (ofStart (.join session) capacity) = .error (.sessionIdConflict session) := by
  obtain ⟨before, after, rfl⟩ := List.append_of_mem hmem
  have hbefore : session ∉ before := by
    intro h
    exact (List.nodup_append.1 nodup).2.2 session h session List.mem_cons_self rfl
  have admits : (Start.join session).Admits before := by
    refine ⟨(List.nodup_append.1 nodup).1, fun id hid heq => ?_⟩
    rw [Start.join.injEq] at heq
    exact hbefore (heq ▸ hid)
  obtain ⟨loading, hloading⟩ := (exists_sessions_iff hcapacity).2 admits
  have hconflict := (holds_of_sessions hcapacity hloading).acceptSession_conflict rfl hbefore
  rw [List.map_append, List.foldlM_append, hloading]
  change (session.bits :: after.map StableId.bits).foldlM (acceptSession (.join session)) loading =
    .error (.sessionIdConflict session)
  rw [List.foldlM_cons, hconflict]
  rfl

theorem Holds.exists_clusters_iff {entries : List ClusterEntry}
    (holds : loading.Holds start capacity ids []) :
    (∃ last, entries.foldlM Loading.acceptCluster loading = .ok last) ↔
      Tenable (entries.map fun entry => ⟨ids[entry.owner]?, entry.capacity, entry.count⟩) :=
  exists_foldlM_iff (R := fun loading shares => loading.Holds start capacity ids shares)
    (fun holds h => holds.acceptCluster h) (fun holds entry => holds.exists_acceptCluster_iff entry)
    Tenable.of_append entries holds .nil

theorem Holds.of_clusters {entries : List ClusterEntry} {last : Loading}
    (holds : loading.Holds start capacity ids [])
    (h : entries.foldlM Loading.acceptCluster loading = .ok last) :
    last.Holds start capacity ids
      (entries.map fun entry => ⟨ids[entry.owner]?, entry.capacity, entry.count⟩) :=
  foldlM_keeps (R := fun loading shares => loading.Holds start capacity ids shares)
    (fun holds h => holds.acceptCluster h) holds h

end Loading

/-! ## The whole snapshot -/

namespace Snapshot

variable {snapshot : Snapshot} {start : Start} {peer : Peer}

def shares (snapshot : Snapshot) : List Share :=
  snapshot.clusters.map fun entry =>
    ⟨snapshot.sessions[entry.owner]?, entry.capacity, entry.count⟩

theorem restore_eq_ok (hcapacity : 1 ≤ snapshot.capacity ∧ snapshot.capacity ≤ largestCapacity)
    (h : snapshot.restore start = .ok peer) :
    ∃ loading : Loading,
      loading.Holds start snapshot.capacity snapshot.sessions snapshot.shares ∧
        loading.finish start = .ok peer := by
  obtain ⟨registered, hregistered, h⟩ := bind_eq_ok h
  obtain ⟨loading, hloading, h⟩ := bind_eq_ok h
  exact ⟨loading, (Loading.holds_of_sessions hcapacity hregistered).of_clusters hloading, h⟩

/-- The shares of a snapshot leave no session of its table without any, and none of the
own session beyond what it has taken. -/
theorem exists_restore_iff
    (hcapacity : 1 ≤ snapshot.capacity ∧ snapshot.capacity ≤ largestCapacity) :
    (∃ peer, snapshot.restore start = .ok peer) ↔
      start.Admits snapshot.sessions ∧ Tenable snapshot.shares ∧
        (∀ id ∈ snapshot.sessions, Owns id snapshot.shares) ∧
        ∀ state, start = .resume state →
          sumOf Share.count state.session snapshot.shares ≤ state.taken := by
  constructor
  · rintro ⟨peer, h⟩
    obtain ⟨loading, holds, hfinish⟩ := restore_eq_ok hcapacity h
    obtain ⟨registered, hregistered, h⟩ := bind_eq_ok h
    obtain ⟨last, hlast, -⟩ := bind_eq_ok h
    have admits := (Loading.exists_sessions_iff hcapacity).1 ⟨registered, hregistered⟩
    have tenable := (Loading.holds_of_sessions hcapacity hregistered).exists_clusters_iff.1
      ⟨last, hlast⟩
    exact ⟨admits, tenable, holds.exists_finish_iff.1 ⟨peer, hfinish⟩⟩
  · rintro ⟨admits, tenable, hfinish⟩
    obtain ⟨registered, hregistered⟩ := (Loading.exists_sessions_iff hcapacity).2 admits
    have holds := Loading.holds_of_sessions hcapacity hregistered
    obtain ⟨loading, hloading⟩ := holds.exists_clusters_iff.2 tenable
    obtain ⟨peer, hpeer⟩ := (holds.of_clusters hloading).exists_finish_iff.2 hfinish
    exact ⟨peer, by simp only [restore, hregistered, hloading, bind, Except.bind, hpeer]⟩

end Snapshot

end CompactIds
