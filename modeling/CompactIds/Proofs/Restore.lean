import CompactIds.Peer.Action
import CompactIds.Proofs.Resume
import Mathlib.Data.List.Perm.Subperm

/-!
# Loading what was saved

A snapshot of a sound peer fits its words, and its tables are accepted down to
the last cluster.  What remains to be checked are the counters: a peer without
a generation left, or with finalized ids that it never handed out, is refused.
-/

namespace CompactIds

theorem length_le_room {clusters : List Cluster} (h : ∀ c ∈ clusters, 0 < c.capacity) :
    clusters.length ≤ room clusters := by
  induction clusters with
  | nil => simp
  | cons c cs ih =>
      rw [List.forall_mem_cons] at h
      have := ih h.2
      simp only [room, List.length_cons] at *
      omega

theorem Registry.mem_populated_iff {registry : Registry} {id : SessionId} :
    id ∈ registry.populated ↔
      ∃ place s, registry.session? place = some s ∧ s.id = id ∧ s.isPopulated = true := by
  simp only [populated, List.mem_map, List.mem_filter, mem_sessions_iff]
  constructor
  · rintro ⟨s, ⟨⟨place, hs⟩, hpop⟩, hid⟩
    exact ⟨place, s, hs, hid, hpop⟩
  · rintro ⟨place, s, hs, hid, hpop⟩
    exact ⟨s, ⟨⟨place, hs⟩, hpop⟩, hid⟩

namespace Ledger

variable {ledger : Ledger} {place : Nat}

theorem Sound.size_le (sound : ledger.Sound) : ledger.tiling.size ≤ idLimit := by
  apply Nat.le_trans ?_ sound.nextBase_le
  rw [sound.laid.nextBase_eq]
  apply length_le_room
  intro c hc
  obtain ⟨i, hi⟩ := Tiling.mem_clusters_iff.1 hc
  exact sound.laid.capacity_pos hi

theorem Linked.nodup_populated (linked : ledger.Linked) : ledger.registry.populated.Nodup :=
  linked.indexed.nodup_ids.sublist (List.filter_sublist.map _)

theorem Sound.length_populated_le (sound : ledger.Sound) :
    ledger.registry.populated.length ≤ ledger.tiling.size := by
  -- Each of these sessions owns a cluster, and no cluster has two owners.
  have hsubset : ledger.registry.populated ⊆
      ledger.tiling.clusters.toList.filterMap ledger.ownerOf? := by
    intro id hid
    obtain ⟨place, s, hs, rfl, hpop⟩ := Registry.mem_populated_iff.1 hid
    obtain ⟨i, c, -, hc, rfl, -⟩ := sound.linked.exists_tail hs hpop
    rw [List.mem_filterMap]
    exact ⟨c, Tiling.mem_clusters_iff.2 ⟨i, hc⟩, ownerOf?_eq_some_iff.2 ⟨s, hs, rfl⟩⟩
  apply Nat.le_trans (List.Nodup.subperm sound.linked.nodup_populated hsubset).length_le
  exact Nat.le_trans (List.length_filterMap_le ..) (Nat.le_of_eq Array.length_toList)

theorem tablePlace_le (registry : Registry) (place : Nat) :
    registry.tablePlace place ≤ registry.populated.length := by
  rw [Registry.populated, List.length_map, ← List.countP_eq_length_filter]
  exact (List.take_sublist ..).countP_le

theorem Sound.fits_entries (sound : ledger.Sound) : ∀ entry ∈ ledger.entries, entry.Fits := by
  intro entry hentry
  obtain ⟨c, hc, rfl⟩ := List.mem_map.1 hentry
  obtain ⟨i, hi⟩ := Tiling.mem_clusters_iff.1 hc
  have hlimit := idLimit_lt
  have := tablePlace_le ledger.registry c.session
  have := sound.length_populated_le
  have := sound.size_le
  have := sound.laid.count_le hi
  have := sound.laid.baseFinal_add_capacity_le hi
  have := sound.nextBase_le
  constructor <;> simp only <;> omega

end Ledger

theorem Peer.Sound.fits_snapshot {peer : Peer} (sound : peer.Sound) (withLocal : Bool) :
    (peer.snapshot withLocal).Fits := by
  have hlimit := idLimit_lt
  have hsize := sound.ledger.size_le
  refine ⟨sound.ledger.capacity, ?_, ?_, sound.ledger.fits_entries⟩
  · exact Nat.lt_of_le_of_lt (Nat.le_trans sound.ledger.length_populated_le hsize) hlimit
  · change peer.ledger.entries.length < 256 ^ 8
    rw [Ledger.entries, List.length_map, Array.length_toList]
    exact Nat.lt_of_le_of_lt hsize hlimit

namespace Loading

variable {ledger : Ledger} {table : Array Nat} {k : Nat}

theorem acceptSession_own {loading : Loading} {id : SessionId} (state : LocalState)
    (hfind : loading.ledger.registry.find? id = some Peer.ownPlace)
    (htable : loading.table = #[]) :
    loading.acceptSession (.resume state) id.bits =
      .ok { loading with table := #[Peer.ownPlace] } := by
  unfold acceptSession
  simp [checkSessionId_bits, bind, Except.bind, hfind, htable]

theorem acceptCluster_upTo (sound : ledger.Sound) {c : Cluster}
    (hc : ledger.tiling.cluster? k = some c)
    (htable : table[ledger.registry.tablePlace c.session]? = some c.session) :
    acceptCluster ⟨ledger.upTo k, table⟩
        ⟨ledger.registry.tablePlace c.session, c.capacity, c.count⟩ =
      .ok ⟨ledger.upTo (k + 1), table⟩ := by
  have below := sound.upTo (Nat.le_of_lt (Tiling.lt_size hc))
  obtain ⟨s, hs⟩ := Registry.exists_session (sound.linked.owner hc)
  have hs' : (ledger.upTo k).registry.session? c.session = some (s.upTo k) := by
    rw [Ledger.session?_upTo, hs]
    rfl
  have hdefect := below.clusterDefect?_eq_none_iff.2 (sound.fits_upTo below hc hs)
  simp only [acceptCluster, htable, hs', hdefect,
    Ledger.append_upTo sound.linked sound.laid below hc hs]

theorem foldlM_acceptCluster (sound : ledger.Sound)
    (htable : ∀ {place s}, ledger.registry.session? place = some s → s.isPopulated = true →
      table[ledger.registry.tablePlace place]? = some place)
    (hk : k ≤ ledger.tiling.size) :
    (ledger.entries.take k).foldlM acceptCluster ⟨ledger.upTo 0, table⟩ =
      .ok ⟨ledger.upTo k, table⟩ := by
  induction k with
  | zero => rfl
  | succ k ih =>
      obtain ⟨c, hc⟩ := Tiling.exists_cluster hk
      obtain ⟨s, hs⟩ := Registry.exists_session (sound.linked.owner hc)
      have hpop := (sound.linked.isPopulated_iff hs).2 (sound.linked.exists_isTail hc)
      have hentry : ledger.entries[k]? =
          some ⟨ledger.registry.tablePlace c.session, c.capacity, c.count⟩ := by
        rw [Ledger.entries, List.getElem?_map, Array.getElem?_toList]
        change (ledger.tiling.cluster? k).map _ = _
        rw [hc]
        rfl
      rw [List.take_add_one, hentry, List.foldlM_append, ih (Nat.le_of_succ_le hk)]
      change [_].foldlM acceptCluster _ = _
      rw [List.foldlM_cons, acceptCluster_upTo sound hc (htable hs hpop)]
      rfl

end Loading

namespace Peer

variable {peer : Peer} {own : Session} {others : List Session}

private theorem find?_ofSession (session : SessionId) :
    (ofSession session).ledger.registry.find? session = some ownPlace := by
  have hown := registry_ofSession session ownPlace
  rw [if_pos rfl] at hown
  rw [(ledger_sound_ofSession session).linked.indexed.find?_eq_some_iff]
  exact ⟨_, hown, rfl⟩

private theorem foldlM_own (lists : peer.Lists own others) (capacity : Nat) :
    ((if own.isPopulated then [own.id] else []).map StableId.bits).foldlM
        (Loading.acceptSession (.resume peer.localState))
        (.ofStart (.resume peer.localState) capacity) =
      .ok ⟨(Loading.ofStart (.resume peer.localState) capacity).ledger,
        (if own.isPopulated then [0] else []).toArray⟩ := by
  have hregistry : (Loading.ofStart (.resume peer.localState) capacity).ledger.registry =
      (ofSession peer.session).ledger.registry := rfl
  have hfind : (Loading.ofStart (.resume peer.localState) capacity).ledger.registry.find? own.id =
      some ownPlace := by
    rw [lists.own, hregistry, find?_ofSession]
  have haccept := Loading.acceptSession_own peer.localState hfind rfl
  cases own.isPopulated with
  | false => rfl
  | true =>
      simp only [if_true, List.map_cons, List.map_nil, List.foldlM_cons, haccept]
      rfl

theorem foldlM_populated (sound : peer.Sound) (lists : peer.Lists own others) :
    (peer.ledger.registry.populated.map StableId.bits).foldlM
        (Loading.acceptSession (.resume peer.localState))
        (.ofStart (.resume peer.localState) peer.ledger.capacity) =
      .ok ⟨peer.ledger.upTo 0, tableOf own others⟩ := by
  have hstart : (Loading.ofStart (.resume peer.localState)
      peer.ledger.capacity).ledger.registry.sessions.toList = [.ofId peer.session] := by
    simp [Loading.ofStart, Start.session, localState, ofSession, Registry.register,
      Registry.empty, Registry.find?]
  have hnodup := sound.ledger.linked.indexed.nodup_ids
  rw [lists.sessions, List.map_cons, lists.own] at hnodup
  rw [lists.populated_eq, List.map_append, List.foldlM_append, foldlM_own lists]
  obtain ⟨registry, hfold, hindexed, hlist⟩ := @Loading.foldlM_acceptSession
    (.resume peer.localState)
    ⟨(Loading.ofStart (.resume peer.localState) peer.ledger.capacity).ledger,
      (if own.isPopulated then [0] else []).toArray⟩ (others.map Session.id)
    (ledger_sound_ofSession peer.session).linked.indexed (by
      rw [hstart]
      exact hnodup)
  have hregistry : registry = (peer.ledger.upTo 0).registry := by
    apply hindexed.ext (Ledger.indexed_upTo sound.ledger.linked 0)
    apply Array.toList_inj.1
    rw [hlist, hstart, Ledger.upTo, Array.toList_map, lists.sessions]
    simp [lists.own]
  change (List.map StableId.bits (others.map Session.id)).foldlM _ _ = _
  rw [hfold, hregistry, List.length_map]
  simp only [tableOf, List.append_toArray]
  rfl

theorem load_save (sound : peer.Sound) (h : peer.generated < idLimit) :
    load none (peer.save true) =
      if peer.taken + 1 < peer.ledger.endOf peer.session .finalized then malformed .neverTaken
      else .ok peer := by
  obtain ⟨own, others, lists⟩ := sound.exists_lists
  have hstart : ∀ rest, readStart none (Word.encode 4 layoutVersion ++
      (encodeLocalState (peer.snapshot true).localState ++ rest)) =
        .ok (.resume peer.localState, rest) := by
    intro rest
    change readStart none (_ ++ (encodeLocalState (some peer.localState) ++ rest)) = _
    rw [readStart_resume, readLocalState_suffix ⟨h, sound.taken_le, sound.locals⟩]
    rfl
  have hclusters : peer.ledger.entries.foldlM Loading.acceptCluster
      ⟨peer.ledger.upTo 0, tableOf own others⟩ = .ok ⟨peer.ledger, tableOf own others⟩ := by
    have hall := Loading.foldlM_acceptCluster sound.ledger lists.tableOf_tablePlace
      (Nat.le_refl _)
    rwa [Ledger.upTo_size sound.ledger.linked, List.take_of_length_le] at hall
    rw [Ledger.entries, List.length_map, Array.length_toList]
    exact Nat.le_refl _
  have hsettled : Loading.isSettled ⟨peer.ledger, tableOf own others⟩ = true := lists.all_tableOf
  rw [save, load_encode (sound.fits_snapshot true) hstart]
  change (do
    let loading ← (peer.ledger.registry.populated.map StableId.bits).foldlM
      (Loading.acceptSession (.resume peer.localState))
      (.ofStart (.resume peer.localState) peer.ledger.capacity)
    let loading ← peer.ledger.entries.foldlM Loading.acceptCluster loading
    loading.finish (.resume peer.localState)) = _
  rw [foldlM_populated sound lists]
  simp only [bind, Except.bind, hclusters, Loading.finish, hsettled]
  rfl

theorem load_save_exhausted (sound : peer.Sound) (h : peer.generated = idLimit) :
    load none (peer.save true) = malformed .counters := by
  apply load_encode_error
  intro rest
  change readStart none (_ ++ (encodeLocalState (some peer.localState) ++ rest)) = _
  rw [readStart_resume, readLocalState_exhausted h sound.taken_le]
  rfl

theorem Sound.perform_reload (sound : peer.Sound) : peer.perform .reload = peer := by
  simp only [perform]
  rcases Nat.lt_or_eq_of_le sound.generated_le with h | h
  · rw [load_save sound h]
    split <;> rfl
  · rw [load_save_exhausted sound h]
    rfl

end Peer

end CompactIds
