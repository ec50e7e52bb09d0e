import CompactIds.Proofs.Codec
import CompactIds.Proofs.Rebuild

/-!
# Resuming from a snapshot

A snapshot with local state lists the sessions that own clusters and leaves out
the own session if it owns none, so places shift between the registry and the
table.  Loading puts every session and every cluster back where it was.
-/

namespace CompactIds

namespace Registry

variable {registry other : Registry}

theorem Indexed.ext (h : registry.Indexed) (h' : other.Indexed)
    (hsessions : registry.sessions = other.sessions) : registry = other := by
  obtain ⟨sessions, index⟩ := registry
  obtain ⟨sessions', index'⟩ := other
  cases hsessions
  congr 1
  apply PositionIndex.ext_find?
  intro p
  apply Option.ext
  intro place
  exact (h p place).trans (h' p place).symm

theorem Indexed.nodup_ids (indexed : registry.Indexed) :
    (registry.sessions.toList.map Session.id).Nodup := by
  rw [List.Nodup, List.pairwise_map, List.pairwise_iff_getElem]
  intro i j hi hj hij hid
  have hs : registry.session? i = some registry.sessions.toList[i] := by
    rw [session?, ← Array.getElem?_toList, List.getElem?_eq_getElem hi]
  have ht : registry.session? j = some registry.sessions.toList[j] := by
    rw [session?, ← Array.getElem?_toList, List.getElem?_eq_getElem hj]
  have := indexed.place_eq hs ht hid
  omega

theorem find?_eq_none (indexed : registry.Indexed) {id : SessionId}
    (h : id ∉ registry.sessions.toList.map Session.id) : registry.find? id = none := by
  cases hfind : registry.find? id with
  | none => rfl
  | some place =>
      obtain ⟨s, hs, rfl⟩ := indexed.session?_of_find? hfind
      exact absurd (mem_ids_iff.2 ⟨place, s, hs, rfl⟩) h

end Registry

namespace Loading

variable {start : Start} {loading : Loading}

theorem acceptSession_of_fresh {id : SessionId}
    (h : loading.ledger.registry.find? id = none) :
    loading.acceptSession start id.bits =
      .ok ⟨loading.ledger.register id, loading.table.push loading.ledger.registry.size⟩ := by
  unfold acceptSession
  simp only [checkSessionId_bits, bind, Except.bind, h]
  rw [Registry.register_of_find?_none h]
  simp [Ledger.register, Registry.register_of_find?_none h]

theorem foldlM_acceptSession {ids : List SessionId}
    (indexed : loading.ledger.registry.Indexed)
    (nodup : (loading.ledger.registry.sessions.toList.map Session.id ++ ids).Nodup) :
    ∃ registry, (ids.map StableId.bits).foldlM (acceptSession start) loading =
        .ok ⟨{ loading.ledger with registry },
          loading.table ++ (List.range' loading.ledger.registry.size ids.length).toArray⟩ ∧
      registry.Indexed ∧
      registry.sessions.toList =
        loading.ledger.registry.sessions.toList ++ ids.map Session.ofId := by
  induction ids generalizing loading with
  | nil => exact ⟨loading.ledger.registry, by simp [pure, Except.pure], indexed, by simp⟩
  | cons id ids ih =>
      have hfresh : loading.ledger.registry.find? id = none := by
        apply Registry.find?_eq_none indexed
        intro hmem
        exact (List.nodup_append.1 nodup).2.2 id hmem id List.mem_cons_self rfl
      have hsessions : (loading.ledger.register id).registry.sessions.toList =
          loading.ledger.registry.sessions.toList ++ [.ofId id] := by
        simp [Ledger.register, Registry.register_of_find?_none hfresh]
      have hsize : (loading.ledger.register id).registry.size =
          loading.ledger.registry.size + 1 := by
        simp [Ledger.register, Registry.register_of_find?_none hfresh, Registry.size]
      have hnodup : ((loading.ledger.register id).registry.sessions.toList.map Session.id ++
          ids).Nodup := by
        rw [hsessions]
        simpa [Session.ofId] using nodup
      have htable : loading.table.push loading.ledger.registry.size ++
          (List.range' (loading.ledger.registry.size + 1) ids.length).toArray =
            loading.table ++
              (List.range' loading.ledger.registry.size (ids.length + 1)).toArray := by
        apply Array.toList_inj.1
        simp [List.range'_succ]
      obtain ⟨registry, hfold, hindexed, hlist⟩ := @ih ⟨loading.ledger.register id,
        loading.table.push loading.ledger.registry.size⟩ (indexed.register id) hnodup
      refine ⟨registry, ?_, hindexed, ?_⟩
      · rw [List.map_cons, List.foldlM_cons, acceptSession_of_fresh hfresh]
        change (ids.map StableId.bits).foldlM _ _ = _
        rw [hfold, hsize, htable]
        rfl
      · rw [hlist, hsessions]
        simp

end Loading

namespace Peer

variable {peer : Peer} {own : Session} {others : List Session}

/-- The registry of a peer, apart into its own session and the others. -/
structure Lists (peer : Peer) (own : Session) (others : List Session) : Prop where
  sessions : peer.ledger.registry.sessions.toList = own :: others
  own : own.id = peer.session
  others : ∀ t ∈ others, t.isPopulated = true

def tableOf (own : Session) (others : List Session) : Array Nat :=
  ((if own.isPopulated then [0] else []) ++ List.range' 1 others.length).toArray

theorem Sound.exists_lists (sound : peer.Sound) : ∃ own others, peer.Lists own others := by
  obtain ⟨own, hown, hid⟩ := sound.own
  have hhead : peer.ledger.registry.sessions.toList[0]? = some own := by
    rw [Array.getElem?_toList]
    exact hown
  cases hlist : peer.ledger.registry.sessions.toList with
  | nil => simp [hlist] at hhead
  | cons s others =>
      rw [hlist] at hhead
      cases hhead
      refine ⟨own, others, hlist, hid, fun t ht => ?_⟩
      obtain ⟨j, hj⟩ := List.mem_iff_getElem?.1 ht
      have hplace : peer.ledger.registry.session? (j + 1) = some t := by
        rw [Registry.session?, ← Array.getElem?_toList, hlist]
        exact hj
      exact sound.populated hplace (Nat.succ_ne_zero j)

namespace Lists

theorem session?_zero (lists : peer.Lists own others) :
    peer.ledger.registry.session? 0 = some own := by
  rw [Registry.session?, ← Array.getElem?_toList, lists.sessions]
  rfl

theorem session?_succ (lists : peer.Lists own others) (j : Nat) :
    peer.ledger.registry.session? (j + 1) = others[j]? := by
  rw [Registry.session?, ← Array.getElem?_toList, lists.sessions]
  rfl

theorem populated_eq (lists : peer.Lists own others) :
    peer.ledger.registry.populated =
      (if own.isPopulated then [own.id] else []) ++ others.map Session.id := by
  have hothers := List.filter_eq_self.2 lists.others
  rw [Registry.populated, lists.sessions, List.filter_cons, hothers]
  cases own.isPopulated <;> rfl

theorem tablePlace_zero (peer : Peer) : peer.ledger.registry.tablePlace 0 = 0 := by
  simp [Registry.tablePlace]

theorem tablePlace_succ (lists : peer.Lists own others) {j : Nat} (hj : j < others.length) :
    peer.ledger.registry.tablePlace (j + 1) = (if own.isPopulated then 1 else 0) + j := by
  have hothers : (others.take j).countP Session.isPopulated = j := by
    rw [List.countP_eq_length.2 fun t ht => lists.others t (List.mem_of_mem_take ht),
      List.length_take]
    omega
  rw [Registry.tablePlace, lists.sessions, List.take_succ_cons, List.countP_cons, hothers]
  omega

theorem tableOf_tablePlace (lists : peer.Lists own others) {place : Nat} {s : Session}
    (hs : peer.ledger.registry.session? place = some s) (hpop : s.isPopulated = true) :
    (tableOf own others)[peer.ledger.registry.tablePlace place]? = some place := by
  rw [tableOf, List.getElem?_toArray]
  cases place with
  | zero =>
      rw [lists.session?_zero] at hs
      cases hs
      rw [tablePlace_zero, if_pos hpop]
      rfl
  | succ j =>
      rw [lists.session?_succ] at hs
      obtain ⟨hj, -⟩ := List.getElem?_eq_some_iff.1 hs
      rw [lists.tablePlace_succ hj]
      cases own.isPopulated with
      | true => simp [Nat.add_comm 1 j, hj]
      | false => simp [Nat.add_comm 1 j, hj]

theorem all_tableOf (lists : peer.Lists own others) :
    (tableOf own others).all fun place =>
      (peer.ledger.registry.session? place).any Session.isPopulated := by
  rw [Array.all_eq_true']
  intro place hmem
  have hplace : own.isPopulated = true ∧ place = 0 ∨
      ∃ j, j < others.length ∧ place = j + 1 := by
    rw [tableOf, List.mem_toArray, List.mem_append] at hmem
    rcases hmem with hmem | hmem
    · left
      cases hown : own.isPopulated with
      | true => simpa [hown] using hmem
      | false => simp [hown] at hmem
    · right
      have hrange := List.mem_range'_1.1 hmem
      exact ⟨place - 1, by omega, by omega⟩
  rcases hplace with ⟨hown, rfl⟩ | ⟨j, hj, rfl⟩
  · rw [lists.session?_zero]
    exact hown
  · rw [lists.session?_succ, List.getElem?_eq_getElem hj]
    exact lists.others _ (List.getElem_mem hj)

end Lists

end Peer

end CompactIds
