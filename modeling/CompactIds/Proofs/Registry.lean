import CompactIds.Proofs.Index

/-!
# The registry and its index

The index of a registry holds each of its sessions under its own position, and
nothing else.  Registering a session and linking a cluster to one keep it so.
-/

namespace CompactIds.Registry

variable {registry : Registry} {id : SessionId} {place q : Nat} {s t : Session}

def Indexed (registry : Registry) : Prop :=
  ∀ p place, registry.index.find? p = some place ↔
    ∃ s, registry.session? place = some s ∧ s.position = p

theorem lt_size (h : registry.session? place = some s) : place < registry.size :=
  (Array.getElem?_eq_some_iff.1 h).1

theorem exists_session (h : place < registry.size) :
    ∃ s, registry.session? place = some s :=
  ⟨_, Array.getElem?_eq_getElem h⟩

theorem mem_sessions_iff :
    s ∈ registry.sessions.toList ↔ ∃ place, registry.session? place = some s := by
  rw [Array.mem_toList_iff, Array.mem_iff_getElem?]
  rfl

theorem mem_ids_iff : id ∈ registry.sessions.toList.map Session.id ↔
    ∃ place s, registry.session? place = some s ∧ s.id = id := by
  simp only [List.mem_map, mem_sessions_iff]
  constructor
  · rintro ⟨s, ⟨place, hs⟩, hid⟩
    exact ⟨place, s, hs, hid⟩
  · rintro ⟨place, s, hs, hid⟩
    exact ⟨s, ⟨place, hs⟩, hid⟩

namespace Indexed

theorem find?_eq_some_iff (indexed : registry.Indexed) :
    registry.find? id = some place ↔ ∃ s, registry.session? place = some s ∧ s.id = id := by
  unfold find?
  rw [indexed]
  constructor
  · rintro ⟨s, hs, hpos⟩
    exact ⟨s, hs, StableId.position_injective hpos⟩
  · rintro ⟨s, hs, rfl⟩
    exact ⟨s, hs, rfl⟩

theorem find?_session (indexed : registry.Indexed) (hs : registry.session? place = some s) :
    registry.find? s.id = some place :=
  indexed.find?_eq_some_iff.2 ⟨s, hs, rfl⟩

theorem place_eq (indexed : registry.Indexed) (hs : registry.session? place = some s)
    (ht : registry.session? q = some t) (hid : s.id = t.id) : place = q := by
  have h := indexed.find?_session hs
  rw [hid, indexed.find?_session ht] at h
  exact (Option.some.inj h).symm

theorem session?_of_find? (indexed : registry.Indexed) (h : registry.find? id = some place) :
    ∃ s, registry.session? place = some s ∧ s.id = id :=
  indexed.find?_eq_some_iff.1 h

end Indexed

theorem indexed_empty : empty.Indexed := by
  intro p place
  simp [empty, session?]

theorem register_of_find?_some (h : registry.find? id = some place) :
    registry.register id = (registry, place) := by
  simp [register, h]

theorem register_of_find?_none (h : registry.find? id = none) :
    registry.register id =
      (⟨registry.sessions.push (.ofId id),
        registry.index.insert id.position registry.size⟩, registry.size) := by
  simp [register, h]

theorem session?_register_of_none (h : registry.find? id = none) (q : Nat) :
    (registry.register id).1.session? q =
      if q = registry.size then some (.ofId id) else registry.session? q := by
  rw [register_of_find?_none h]
  exact Array.getElem?_push

theorem session?_register (h : registry.session? q = some s) :
    (registry.register id).1.session? q = some s := by
  cases hfind : registry.find? id with
  | some place => rw [register_of_find?_some hfind, h]
  | none =>
      have hq : q ≠ registry.size := Nat.ne_of_lt (lt_size h)
      rw [session?_register_of_none hfind, if_neg hq, h]

theorem session?_of_register (h : (registry.register id).1.session? q = some s) :
    registry.session? q = some s ∨
      registry.find? id = none ∧ q = registry.size ∧ s = .ofId id := by
  cases hfind : registry.find? id with
  | some place => exact .inl (by rwa [register_of_find?_some hfind] at h)
  | none =>
      rw [session?_register_of_none hfind] at h
      split at h
      · rename_i hq
        exact .inr ⟨rfl, hq, (Option.some.inj h).symm⟩
      · exact .inl h

theorem Indexed.register (indexed : registry.Indexed) (id : SessionId) :
    (registry.register id).1.Indexed := by
  cases hfind : registry.find? id with
  | some place => rwa [register_of_find?_some hfind]
  | none =>
      intro p place
      have hnew : ¬ ∃ s, registry.session? registry.size = some s := by
        rintro ⟨s, hs⟩
        exact Nat.lt_irrefl _ (lt_size hs)
      have hfresh : ∀ place s, registry.session? place = some s → s.position ≠ id.position := by
        intro place s hs hpos
        have := indexed.find?_session hs
        rw [StableId.position_injective hpos, hfind] at this
        cases this
      simp only [session?_register_of_none hfind]
      rw [register_of_find?_none hfind, PositionIndex.find?_insert]
      by_cases hp : id.position = p
      · rw [if_pos hp]
        constructor
        · rintro ⟨⟩
          exact ⟨.ofId id, by simp, hp⟩
        · rintro ⟨s, hs, hpos⟩
          split at hs
          · rename_i hplace
            rw [hplace]
          · exact absurd (hpos.trans hp.symm) (hfresh place s hs)
      · rw [if_neg hp, indexed]
        constructor
        · rintro ⟨s, hs, hpos⟩
          have hplace : place ≠ registry.size := Nat.ne_of_lt (lt_size hs)
          exact ⟨s, by rw [if_neg hplace, hs], hpos⟩
        · rintro ⟨s, hs, hpos⟩
          split at hs
          · cases hs
            exact absurd hpos hp
          · exact ⟨s, hs, hpos⟩

theorem Indexed.find?_register (indexed : registry.Indexed) (id : SessionId) :
    (registry.register id).1.find? id = some (registry.register id).2 := by
  cases hfind : registry.find? id with
  | some place => rw [register_of_find?_some hfind, hfind]
  | none =>
      rw [(indexed.register id).find?_eq_some_iff]
      refine ⟨.ofId id, ?_, rfl⟩
      rw [session?_register_of_none hfind, register_of_find?_none hfind, if_pos rfl]

theorem session?_link (registry : Registry) (place cluster q : Nat) :
    (registry.link place cluster).session? q =
      if place = q then (registry.session? q).map fun s => { s with chain := s.chain.push cluster }
      else registry.session? q :=
  Array.getElem?_modify

@[simp] theorem size_link (registry : Registry) (place cluster : Nat) :
    (registry.link place cluster).size = registry.size :=
  Array.size_modify

theorem Indexed.link (indexed : registry.Indexed) (place cluster : Nat) :
    (registry.link place cluster).Indexed := by
  intro p q
  rw [session?_link]
  change registry.index.find? p = some q ↔ _
  rw [indexed]
  split
  · constructor
    · rintro ⟨s, hs, hpos⟩
      exact ⟨{ s with chain := s.chain.push cluster }, by rw [hs]; rfl, hpos⟩
    · rintro ⟨s, hs, hpos⟩
      obtain ⟨s', hs', rfl⟩ := Option.map_eq_some_iff.1 hs
      exact ⟨s', hs', hpos⟩
  · exact Iff.rfl

/-- Sessions keep their places and their clusters, and new ones own clusters. -/
structure Grows (registry registry' : Registry) : Prop where
  keeps : ∀ {place s}, registry.session? place = some s →
    ∃ s', registry'.session? place = some s' ∧ s'.id = s.id ∧
      (s.isPopulated = true → s'.isPopulated = true)
  adds : ∀ {place s'}, registry'.session? place = some s' →
    (∃ s, registry.session? place = some s) ∨ s'.isPopulated = true

theorem Grows.refl (registry : Registry) : registry.Grows registry where
  keeps := fun hs => ⟨_, hs, rfl, id⟩
  adds := fun hs => .inl ⟨_, hs⟩

theorem isPopulated_push (s : Session) (cluster : Nat) :
    ({ s with chain := s.chain.push cluster } : Session).isPopulated = true := by
  simp [Session.isPopulated]

theorem grows_link (registry : Registry) (place cluster : Nat) :
    registry.Grows (registry.link place cluster) where
  keeps := by
    intro q s hs
    rw [session?_link, hs]
    split
    · exact ⟨_, rfl, rfl, fun _ => isPopulated_push s cluster⟩
    · exact ⟨s, rfl, rfl, id⟩
  adds := by
    intro q s' hs'
    rw [session?_link] at hs'
    split at hs'
    · obtain ⟨s, hs, -⟩ := Option.map_eq_some_iff.1 hs'
      exact .inl ⟨s, hs⟩
    · exact .inl ⟨s', hs'⟩

theorem grows_register_link (registry : Registry) (id : SessionId) (cluster : Nat) :
    registry.Grows ((registry.register id).1.link (registry.register id).2 cluster) where
  keeps := by
    intro q s hs
    exact (grows_link _ _ cluster).keeps (session?_register hs)
  adds := by
    intro q s' hs'
    by_cases hq : (registry.register id).2 = q
    · rw [session?_link, if_pos hq] at hs'
      obtain ⟨s, -, rfl⟩ := Option.map_eq_some_iff.1 hs'
      exact .inr (isPopulated_push s cluster)
    · rw [session?_link, if_neg hq] at hs'
      rcases session?_of_register hs' with hs | ⟨hfind, rfl, -⟩
      · exact .inl ⟨s', hs⟩
      · exact absurd (by rw [register_of_find?_none hfind]) hq

def name? (registry : Registry) (place : Nat) : Option SessionId :=
  (registry.session? place).map Session.id

theorem name?_eq_some_iff :
    registry.name? place = some id ↔ ∃ s, registry.session? place = some s ∧ s.id = id :=
  Option.map_eq_some_iff

theorem name?_register (h : registry.name? place = some id) (other : SessionId) :
    (registry.register other).1.name? place = some id := by
  obtain ⟨s, hs, hid⟩ := name?_eq_some_iff.1 h
  exact name?_eq_some_iff.2 ⟨s, session?_register hs, hid⟩

theorem name?_link (registry : Registry) (place cluster q : Nat) :
    (registry.link place cluster).name? q = registry.name? q := by
  rw [name?, session?_link]
  split
  · simp [name?, Option.map_map, Function.comp_def]
  · rfl

@[simp] theorem copy_eq (registry : Registry) : registry.copy = registry := by
  cases registry
  simp [copy]

end CompactIds.Registry
