import CompactIds.Proofs.Finalize

/-!
# How far sessions are finalized

An accepted range moves the end of its own session by its count and leaves the
ends of all other sessions where they are.
-/

namespace CompactIds

def CreationRange.count (range : CreationRange) : Nat :=
  match range.ids with
  | some ids => ids.count
  | none => 0

namespace Ledger

variable {ledger ledger' : Ledger} {id other : SessionId} {place i j base capacity count : Nat}
  {s : Session} {c d : Cluster} {f : Cluster → Cluster}

theorem ownerOf?_register (linked : ledger.Linked) (hc : ledger.tiling.cluster? i = some c)
    (id : SessionId) : (ledger.register id).ownerOf? c = ledger.ownerOf? c := by
  obtain ⟨owner, howner⟩ := linked.exists_owner hc
  rw [howner]
  exact Registry.name?_register howner id

theorem ownerOf?_append (ledger : Ledger) (place base capacity count : Nat) (c : Cluster) :
    (ledger.append place base capacity count).ownerOf? c = ledger.ownerOf? c :=
  Registry.name?_link ledger.registry place ledger.tiling.size c.session

theorem ownerOf?_congr (h : c.session = d.session) : ledger.ownerOf? c = ledger.ownerOf? d := by
  simp [ownerOf?, h]

theorem Linked.session_eq_of_owner (linked : ledger.Linked) (hc : ledger.ownerOf? c = some id)
    (hd : ledger.ownerOf? d = some id) : c.session = d.session := by
  obtain ⟨s, hs, rfl⟩ := ownerOf?_eq_some_iff.1 hc
  exact ((linked.ownerOf?_session hs).1 hd).symm

theorem tailOf_register (linked : ledger.Linked) :
    (ledger.register other).TailOf id j d ↔ ledger.TailOf id j d := by
  constructor
  · rintro ⟨howner, hd, htail⟩
    rw [ownerOf?_register linked hd] at howner
    exact ⟨howner, hd, htail⟩
  · rintro ⟨howner, hd, htail⟩
    rw [← ownerOf?_register linked hd other] at howner
    exact ⟨howner, hd, htail⟩

theorem tailOf_modifyCluster (hc : ledger.tiling.cluster? i = some c)
    (hf : (f c).session = c.session) (hother : ledger.ownerOf? c ≠ some id) :
    (ledger.modifyCluster i f).TailOf id j d ↔ ledger.TailOf id j d := by
  constructor
  · rintro ⟨howner, hd, ⟨-, hafter⟩⟩
    change ledger.ownerOf? d = some id at howner
    rcases Tiling.cluster?_of_modify hc hd with ⟨-, rfl⟩ | ⟨-, hd'⟩
    · rw [ownerOf?_congr hf] at howner
      exact absurd howner hother
    · refine ⟨howner, hd', ⟨d, hd', rfl⟩, fun k e hjk he hes => ?_⟩
      obtain ⟨e', he', hes'⟩ := Tiling.exists_cluster_modify hc hf he
      exact hafter k e' hjk he' (hes'.trans hes)
  · rintro ⟨howner, hd, htail⟩
    have hij : i ≠ j := by
      rintro rfl
      rw [hc] at hd
      cases hd
      exact hother howner
    exact ⟨howner, (Tiling.cluster?_modify_of_ne hij).trans hd, isTail_modify hc hf htail⟩

theorem tailOf_append (hs : ledger.registry.session? place = some s) (hother : s.id ≠ id) :
    (ledger.append place base capacity count).TailOf id j d ↔ ledger.TailOf id j d := by
  have hplace : ∀ {e}, ledger.ownerOf? e = some id → place ≠ e.session := by
    rintro e he rfl
    obtain ⟨t, ht, hid⟩ := ownerOf?_eq_some_iff.1 he
    rw [hs] at ht
    cases ht
    exact hother hid
  constructor
  · rintro ⟨howner, hd, ⟨-, hafter⟩⟩
    rw [ownerOf?_append] at howner
    rcases Tiling.cluster?_of_push hd with hd' | ⟨-, rfl⟩
    · refine ⟨howner, hd', ⟨d, hd', rfl⟩, fun k e hjk he => ?_⟩
      exact hafter k e hjk (Tiling.cluster?_push_of_some he _)
    · exact absurd rfl (hplace howner)
  · rintro ⟨howner, hd, htail⟩
    have hd' := Tiling.cluster?_push_of_some hd
      ⟨place, ledger.tiling.nextBase, base, capacity, count⟩
    refine ⟨by rw [ownerOf?_append, howner], hd', ⟨d, hd', rfl⟩, fun k e hjk he => ?_⟩
    rcases Tiling.cluster?_of_push he with he | ⟨-, rfl⟩
    · exact htail.2 k e hjk he
    · exact hplace howner

theorem Allocates.tailOf_iff (sound : ledger.Sound) (h : ledger.Allocates id count ledger')
    (hother : id ≠ other) : ledger'.TailOf other j d ↔ ledger.TailOf other j d := by
  have hne : ∀ {i c}, ledger.TailOf id i c → ledger.ownerOf? c ≠ some other := by
    intro i c tail howner
    rw [tail.owner] at howner
    exact hother (Option.some.inj howner)
  cases h with
  | extend tail fits => exact tailOf_modifyCluster tail.cluster rfl (hne tail)
  | grow tail exceeds last admits => exact tailOf_modifyCluster tail.cluster rfl (hne tail)
  | @overflow i c tail exceeds inner admits =>
      obtain ⟨s, hs, hid⟩ := ownerOf?_eq_some_iff.1 tail.owner
      have hs' : (ledger.modifyCluster i .fillUp).registry.session? c.session = some s := hs
      rw [tailOf_append hs' (hid ▸ hother)]
      exact tailOf_modifyCluster tail.cluster rfl (hne tail)
  | first fresh admits =>
      obtain ⟨s, hs, hid⟩ := (sound.linked.register id).indexed.session?_of_find?
        (sound.linked.indexed.find?_register id)
      rw [tailOf_append hs (hid ▸ hother)]
      exact tailOf_register sound.linked

theorem tailOf_modifyCluster_self (tail : ledger.TailOf id i c) (hf : (f c).session = c.session) :
    (ledger.modifyCluster i f).TailOf id i (f c) where
  owner := (ownerOf?_congr hf).trans tail.owner
  cluster := Tiling.cluster?_modify_self tail.cluster
  isTail := by
    rw [hf]
    exact isTail_modify tail.cluster hf tail.isTail

theorem tailOf_append_self (hs : ledger.registry.session? place = some s) :
    (ledger.append place base capacity count).TailOf s.id ledger.tiling.size
      ⟨place, ledger.tiling.nextBase, base, capacity, count⟩ := by
  have hnew : (ledger.append place base capacity count).tiling.cluster? ledger.tiling.size =
      some ⟨place, ledger.tiling.nextBase, base, capacity, count⟩ := by
    change (ledger.tiling.push _).cluster? _ = _
    rw [Tiling.cluster?_push, if_pos rfl]
  refine ⟨?_, hnew, ⟨_, hnew, rfl⟩, fun k e hk he => ?_⟩
  · rw [ownerOf?_append]
    exact ownerOf?_eq_some_iff.2 ⟨s, hs, rfl⟩
  · have hlt := Tiling.lt_size he
    change k < (ledger.tiling.push _).size at hlt
    rw [Tiling.size_push] at hlt
    omega

theorem Linked.tail?_eq_some_iff (linked : ledger.Linked) :
    ledger.tail? id = some c ↔ ∃ i, ledger.TailOf id i c := by
  constructor
  · intro h
    obtain ⟨i, hi, hc⟩ := Option.bind_eq_some_iff.1 h
    obtain ⟨d, tail⟩ := linked.tailPlace?_eq_some_iff.1 hi
    have hd : d = c := by simpa [hc] using tail.cluster.symm
    exact ⟨i, hd ▸ tail⟩
  · rintro ⟨i, tail⟩
    exact linked.tail?_of_tailOf tail

theorem tail?_congr (linked : ledger.Linked) (linked' : ledger'.Linked)
    (h : ∀ i c, ledger'.TailOf id i c ↔ ledger.TailOf id i c) :
    ledger'.tail? id = ledger.tail? id := by
  ext c
  simp [linked.tail?_eq_some_iff, linked'.tail?_eq_some_iff, h]

theorem Allocates.tail?_other (sound : ledger.Sound) (hcount : 0 < count)
    (h : ledger.Allocates id count ledger') (hother : id ≠ other) :
    ledger'.tail? other = ledger.tail? other :=
  tail?_congr sound.linked (h.sound sound hcount).linked fun _ _ => h.tailOf_iff sound hother

theorem Allocates.endOf_other (sound : ledger.Sound) (hcount : 0 < count)
    (h : ledger.Allocates id count ledger') (hother : id ≠ other) (extent : Extent) :
    ledger'.endOf other extent = ledger.endOf other extent := by
  simp only [endOf, h.tail?_other sound hcount hother]

theorem Allocates.endOf_finalized (sound : ledger.Sound) (hcount : 0 < count)
    (h : ledger.Allocates id count ledger') :
    ledger'.endOf id .finalized = ledger.endOf id .finalized + count := by
  have linked := (h.sound sound hcount).linked
  cases h with
  | extend tail fits =>
      have tail' := tailOf_modifyCluster_self (f := fun d => d.fill count) tail rfl
      rw [linked.endOf_of_tailOf tail', sound.linked.endOf_of_tailOf tail]
      simp only [Cluster.endOf, Cluster.fill, Nat.add_assoc]
  | @grow i c tail exceeds last admits =>
      have tail' := tailOf_modifyCluster_self
        (f := fun d => d.grow (ledger.capacity + (count - c.remaining)) count) tail rfl
      rw [linked.endOf_of_tailOf tail', sound.linked.endOf_of_tailOf tail]
      simp only [Cluster.endOf, Cluster.grow, Nat.add_assoc]
  | @overflow i c tail exceeds inner admits =>
      obtain ⟨s, hs, rfl⟩ := ownerOf?_eq_some_iff.1 tail.owner
      have tail' := @tailOf_append_self (ledger.modifyCluster i .fillUp) c.session
        (c.endOf .reserved) (ledger.capacity + (count - c.remaining)) (count - c.remaining) s hs
      have := sound.laid.count_le tail.cluster
      rw [linked.endOf_of_tailOf tail', sound.linked.endOf_of_tailOf tail]
      simp only [Cluster.endOf, Cluster.remaining] at *
      omega
  | first fresh admits =>
      obtain ⟨s, hs, hid⟩ := (sound.linked.register id).indexed.session?_of_find?
        (sound.linked.indexed.find?_register id)
      have tail' := @tailOf_append_self (ledger.register id) (ledger.registry.register id).2 1
        (ledger.capacity + count) count s hs
      rw [hid] at tail'
      rw [linked.endOf_of_tailOf tail', endOf_of_tailPlace?_none fresh, Cluster.endOf]

theorem Sound.endOf_finalize (sound : ledger.Sound) {range : CreationRange}
    (accepted : ledger.finalize range = .ok ledger') (id : SessionId) :
    ledger'.endOf id .finalized =
      ledger.endOf id .finalized + if range.session = id then range.count else 0 := by
  rcases sound.finalize_cases accepted with ⟨hids, rfl⟩ | ⟨ids, hids, hcount, -, -, hallocates⟩
  · simp [CreationRange.count, hids]
  · by_cases hid : range.session = id
    · subst hid
      simpa [CreationRange.count, hids] using hallocates.endOf_finalized sound hcount
    · simpa [hid] using hallocates.endOf_other sound hcount hid .finalized

theorem Sound.tail?_finalize (sound : ledger.Sound) {range : CreationRange}
    (accepted : ledger.finalize range = .ok ledger') (hother : range.session ≠ other) :
    ledger'.tail? other = ledger.tail? other := by
  rcases sound.finalize_cases accepted with ⟨-, rfl⟩ | ⟨ids, -, hcount, -, -, hallocates⟩
  · rfl
  · exact hallocates.tail?_other sound hcount hother

end Ledger

end CompactIds
