import CompactIds.Proofs.Primitives

/-!
# What finalizing does

An accepted range counts down the reserve of its session, makes the last
cluster grow, spills over into a new cluster, or gives the session its first
one.  These four cases are all that later proofs need to know.
-/

namespace CompactIds.Ledger

variable {ledger ledger' : Ledger} {id : SessionId} {place i room count : Nat} {c : Cluster}
  {s : Session} {f : Cluster → Cluster} {range : CreationRange}

/-- Another `room` generations can be reserved for a session. -/
structure Admits (ledger : Ledger) (id : SessionId) (room : Nat) : Prop where
  generations : ledger.endOf id .reserved + room ≤ idLimit
  finals : ledger.tiling.nextBase + room ≤ idLimit
  clear : ledger.Clear id id.position (ledger.endOf id .reserved - 1 + room)

theorem Sound.roomRefusal?_eq_none_iff (sound : ledger.Sound) (hroom : 0 < room) :
    ledger.roomRefusal? id room = none ↔ ledger.Admits id room := by
  unfold roomRefusal?
  have hlength : 0 < ledger.endOf id .reserved - 1 + room := by omega
  split
  · rename_i hlarge
    simp only [reduceCtorEq, false_iff]
    intro admits
    have := admits.generations
    have := admits.finals
    omega
  · rename_i hsmall
    rw [Option.map_eq_none_iff, sound.collision?_eq_none_iff hlength]
    constructor
    · intro clear
      exact ⟨by omega, by omega, clear⟩
    · intro admits
      exact admits.clear

inductive Allocates (ledger : Ledger) (id : SessionId) (count : Nat) : Ledger → Prop
  | extend {i : Nat} {c : Cluster} (tail : ledger.TailOf id i c)
      (fits : count ≤ c.remaining) :
      Allocates ledger id count (ledger.modifyCluster i (·.fill count))
  | grow {i : Nat} {c : Cluster} (tail : ledger.TailOf id i c)
      (exceeds : c.remaining < count) (last : i + 1 = ledger.tiling.size)
      (admits : ledger.Admits id (ledger.capacity + (count - c.remaining))) :
      Allocates ledger id count
        (ledger.modifyCluster i (·.grow (ledger.capacity + (count - c.remaining)) count))
  | overflow {i : Nat} {c : Cluster} (tail : ledger.TailOf id i c)
      (exceeds : c.remaining < count) (inner : i + 1 ≠ ledger.tiling.size)
      (admits : ledger.Admits id (ledger.capacity + (count - c.remaining))) :
      Allocates ledger id count
        ((ledger.modifyCluster i .fillUp).append c.session (c.endOf .reserved)
          (ledger.capacity + (count - c.remaining)) (count - c.remaining))
  | first (fresh : ledger.tailPlace? id = none)
      (admits : ledger.Admits id (ledger.capacity + count)) :
      Allocates ledger id count
        ((ledger.register id).append (ledger.registry.register id).2 1
          (ledger.capacity + count) count)

theorem appendSurplus_of_tailOf (linked : ledger.Linked) (tail : ledger.TailOf id i c) :
    ledger.appendSurplus id count =
      (ledger.modifyCluster i .fillUp).append c.session (c.endOf .reserved)
        (ledger.capacity + (count - c.remaining)) (count - c.remaining) := by
  obtain ⟨s, hs, rfl⟩ := ownerOf?_eq_some_iff.1 tail.owner
  have hplace : ledger.tailPlace? s.id = some i := linked.tailPlace?_eq_some_iff.2 ⟨c, tail⟩
  have hregister : (ledger.modifyCluster i .fillUp).registry.register s.id =
      (ledger.registry, c.session) :=
    Registry.register_of_find?_some (linked.indexed.find?_session hs)
  simp only [appendSurplus, hplace, hregister, roomFor, linked.endOf_of_tailOf tail,
    linked.reserve_of_tailOf tail]
  rfl

theorem appendSurplus_of_fresh (fresh : ledger.tailPlace? id = none) :
    ledger.appendSurplus id count =
      (ledger.register id).append (ledger.registry.register id).2 1
        (ledger.capacity + count) count := by
  simp only [appendSurplus, fresh, roomFor, endOf_of_tailPlace?_none fresh,
    reserve_of_tailPlace?_none fresh, Nat.sub_zero]
  rfl

theorem Sound.allocates_apply (sound : ledger.Sound) (hcount : 0 < count)
    (h : ledger.reserve id < count → ledger.Admits id (ledger.roomFor id count)) :
    ledger.Allocates id count (ledger.apply id count) := by
  unfold apply
  cases hplace : ledger.tailPlace? id with
  | none =>
      rw [reserve_of_tailPlace?_none hplace] at h
      simp only [appendSurplus_of_fresh hplace]
      refine .first hplace ?_
      simpa [roomFor, reserve_of_tailPlace?_none hplace] using h hcount
  | some i =>
      obtain ⟨c, tail⟩ := sound.linked.tailPlace?_eq_some_iff.1 hplace
      simp only [roomFor, sound.linked.reserve_of_tailOf tail] at h ⊢
      by_cases hfits : count ≤ c.remaining
      · rw [if_pos hfits]
        exact .extend tail hfits
      · have hexceeds := Nat.lt_of_not_le hfits
        rw [if_neg hfits]
        by_cases hlast : i + 1 = ledger.tiling.size
        · rw [if_pos (by simp [Tiling.canGrow, hlast])]
          exact .grow tail hexceeds hlast (h hexceeds)
        · rw [if_neg (by simp [Tiling.canGrow, hlast]),
            appendSurplus_of_tailOf sound.linked tail]
          exact .overflow tail hexceeds hlast (h hexceeds)

/-- All that an accepted range tells, and all that it does. -/
theorem Sound.finalize_cases (sound : ledger.Sound)
    (h : ledger.finalize range = .ok ledger') :
    range.ids = none ∧ ledger' = ledger ∨
      ∃ ids, range.ids = some ids ∧ 0 < ids.count ∧ ids.first + ids.count ≤ idLimit ∧
        ids.first = ledger.endOf range.session .finalized ∧
        ledger.Allocates range.session ids.count ledger' := by
  unfold finalize at h
  cases hids : range.ids with
  | none =>
      rw [hids] at h
      cases h
      exact .inl ⟨rfl, rfl⟩
  | some ids =>
      simp only [hids] at h
      cases hrefusal : ledger.refusal? range.session ids with
      | some fault =>
          simp only [hrefusal] at h
          cases h
      | none =>
          simp only [hrefusal, Except.ok.injEq] at h
          subst h
          unfold refusal? at hrefusal
          split_ifs at hrefusal with hzero hfirst hlarge horder hfits
          · refine .inr ⟨ids, rfl, Nat.pos_of_ne_zero hzero, Nat.le_of_not_lt hlarge,
              by simpa using horder, ?_⟩
            exact sound.allocates_apply (Nat.pos_of_ne_zero hzero) fun hlt =>
              absurd hlt (Nat.not_lt.2 hfits)
          · refine .inr ⟨ids, rfl, Nat.pos_of_ne_zero hzero, Nat.le_of_not_lt hlarge,
              by simpa using horder, ?_⟩
            refine sound.allocates_apply (Nat.pos_of_ne_zero hzero) fun _ => ?_
            have hroom : 0 < ledger.roomFor range.session ids.count := by
              have := sound.capacity.1
              unfold roomFor
              omega
            exact (sound.roomRefusal?_eq_none_iff hroom).1 hrefusal

namespace Sound

theorem clear_of_tailOf (sound : ledger.Sound) (tail : ledger.TailOf id i c) :
    ledger.Clear id id.position (c.endOf .reserved - 1) := by
  obtain ⟨s, hs, rfl⟩ := ownerOf?_eq_some_iff.1 tail.owner
  have hpop := (sound.linked.isPopulated_iff hs).2 ⟨i, tail.isTail⟩
  have hend := sound.linked.endOf_of_isTail hs tail.isTail tail.cluster .reserved
  rw [← hend]
  constructor
  · exact sound.apart.inside hs hpop
  · intro q t ht htpop hne
    have hplace : c.session ≠ q := by
      rintro rfl
      rw [hs] at ht
      cases ht
      exact hne rfl
    exact sound.apart.disjoint hs ht hplace hpop htpop

theorem modifyCluster_of_capacity (sound : ledger.Sound) (tail : ledger.TailOf id i c)
    (resized : c.Resized (f c)) (hcap : (f c).capacity = c.capacity) :
    (ledger.modifyCluster i f).Sound := by
  have hend : (f c).endOf .reserved = c.endOf .reserved := by
    simp only [Cluster.endOf, resized.baseGeneration, hcap]
  apply sound.modifyCluster tail resized (.inl hcap)
  · rw [hend]
    exact sound.endOf_le tail.cluster
  · rw [resized.baseFinal, hcap]
    exact Nat.le_trans (sound.laid.baseFinal_add_capacity_le tail.cluster) sound.nextBase_le
  · rw [hend]
    exact sound.clear_of_tailOf tail

theorem endOf_modifyCluster (sound : ledger.Sound) (hc : ledger.tiling.cluster? i = some c)
    (sound' : (ledger.modifyCluster i f).Sound) (hsession : (f c).session = c.session)
    (hcap : (f c).capacity = c.capacity) (hs : ledger.registry.session? place = some s) :
    s.endOf .reserved (ledger.modifyCluster i f).tiling = s.endOf .reserved ledger.tiling := by
  rw [sound'.linked.endOf_reserved sound'.laid hs, sound.linked.endOf_reserved sound.laid hs]
  congr 1
  change CompactIds.room ((ledger.tiling.clusters.modify i f).toList.filter _) = _
  rw [Array.toList_modify]
  apply room_filter_modify
  intro d hd
  rw [Array.getElem?_toList] at hd
  change ledger.tiling.cluster? i = some d at hd
  rw [hc] at hd
  cases hd
  exact ⟨by rw [hsession], fun _ => hcap⟩

theorem nextBase_modifyCluster (sound : ledger.Sound) (sound' : (ledger.modifyCluster i f).Sound)
    (hc : ledger.tiling.cluster? i = some c) (hcap : (f c).capacity = c.capacity) :
    (ledger.modifyCluster i f).tiling.nextBase = ledger.tiling.nextBase := by
  rw [sound'.laid.nextBase_eq, sound.laid.nextBase_eq]
  have hroom := room_filter_modify (fun _ => true) f i ledger.tiling.clusters.toList
  simp only [List.filter_true] at hroom
  change CompactIds.room (ledger.tiling.clusters.modify i f).toList = _
  rw [Array.toList_modify]
  apply hroom
  intro d hd
  rw [Array.getElem?_toList] at hd
  change ledger.tiling.cluster? i = some d at hd
  rw [hc] at hd
  cases hd
  exact ⟨trivial, fun _ => hcap⟩

theorem clear_modifyCluster (sound : ledger.Sound) (sound' : (ledger.modifyCluster i f).Sound)
    (hc : ledger.tiling.cluster? i = some c) (hsession : (f c).session = c.session)
    (hcap : (f c).capacity = c.capacity) {owner : SessionId} {base : Position} {length : Nat}
    (clear : ledger.Clear owner base length) :
    (ledger.modifyCluster i f).Clear owner base length where
  inside := clear.inside
  apart := by
    intro q t ht hpop hne
    have hreach : t.reach (ledger.modifyCluster i f).tiling = t.reach ledger.tiling := by
      unfold Session.reach
      rw [sound.endOf_modifyCluster hc sound' hsession hcap ht]
    rw [hreach]
    exact clear.apart ht hpop hne

theorem fillUp (sound : ledger.Sound) (tail : ledger.TailOf id i c) :
    (ledger.modifyCluster i .fillUp).Sound :=
  sound.modifyCluster_of_capacity tail
    ⟨rfl, rfl, rfl, sound.laid.capacity_pos tail.cluster, Nat.le_refl _⟩ rfl

theorem overflow (sound : ledger.Sound) (tail : ledger.TailOf id i c)
    (exceeds : c.remaining < count)
    (admits : ledger.Admits id (ledger.capacity + (count - c.remaining))) :
    ((ledger.modifyCluster i .fillUp).append c.session (c.endOf .reserved)
      (ledger.capacity + (count - c.remaining)) (count - c.remaining)).Sound := by
  have hc := tail.cluster
  have filled := sound.fillUp tail
  obtain ⟨s, hs, rfl⟩ := ownerOf?_eq_some_iff.1 tail.owner
  have hend := sound.linked.endOf_of_isTail hs tail.isTail hc .reserved
  have hend' := sound.endOf_modifyCluster hc filled rfl rfl hs
  have hname := sound.linked.endOf_of_tailOf tail .reserved
  have hgenerations := admits.generations
  have hclear := sound.clear_modifyCluster filled hc rfl rfl admits.clear
  rw [hname, ← hend, ← hend'] at hgenerations hclear
  rw [← hend, ← hend']
  apply filled.append hs (by omega) (by omega) ?_ hgenerations ?_ hclear
  · intro j d hj hd
    have hij := (isTail_modify (f := .fillUp) hc rfl tail.isTail).eq hj
    subst hij
    change (ledger.tiling.modify i .fillUp).cluster? i = some d at hd
    rw [Tiling.cluster?_modify_self hc] at hd
    cases hd
    rfl
  · rw [sound.nextBase_modifyCluster filled hc rfl]
    exact admits.finals

theorem not_isPopulated_register (sound : ledger.Sound) (fresh : ledger.tailPlace? id = none)
    (hs : (ledger.register id).registry.session? (ledger.registry.register id).2 = some s)
    (hid : s.id = id) : s.isPopulated = false := by
  rcases Registry.session?_of_register hs with hs | ⟨-, -, rfl⟩
  · cases hpop : s.isPopulated with
    | false => rfl
    | true =>
        obtain ⟨i, c, htail, hc, hplace, -⟩ := sound.linked.exists_tail hs hpop
        rw [← hplace] at hs htail
        have tail : ledger.TailOf id i c := ⟨ownerOf?_eq_some_iff.2 ⟨s, hs, hid⟩, hc, htail⟩
        have hsome := sound.linked.tailPlace?_eq_some_iff.2 ⟨c, tail⟩
        rw [fresh] at hsome
        cases hsome
  · rfl

theorem first (sound : ledger.Sound) (hcount : 0 < count)
    (fresh : ledger.tailPlace? id = none)
    (admits : ledger.Admits id (ledger.capacity + count)) :
    ((ledger.register id).append (ledger.registry.register id).2 1
      (ledger.capacity + count) count).Sound := by
  have registered := sound.register id
  obtain ⟨s, hs, hid⟩ := registered.linked.indexed.session?_of_find?
    (sound.linked.indexed.find?_register id)
  change (ledger.register id).registry.session? _ = some s at hs
  have hpop := sound.not_isPopulated_register fresh hs hid
  have hone : s.endOf .reserved (ledger.register id).tiling = 1 := Session.endOf_eq_one hpop _
  have hgenerations := admits.generations
  have hclear := admits.clear.register id
  rw [endOf_of_tailPlace?_none fresh] at hgenerations hclear
  have appended := registered.append hs hcount (Nat.le_add_left count ledger.capacity)
  rw [hone, hid, Session.position_eq hid] at appended
  apply appended _ hgenerations admits.finals hclear
  intro i c htail
  have hpop' := (registered.linked.isPopulated_iff hs).2 ⟨i, htail⟩
  rw [hpop] at hpop'
  cases hpop'

end Sound

theorem Allocates.sound (sound : ledger.Sound) (hcount : 0 < count)
    (h : ledger.Allocates id count ledger') : ledger'.Sound := by
  cases h with
  | @extend i c tail fits =>
      refine sound.modifyCluster_of_capacity tail ⟨rfl, rfl, rfl, ?_, ?_⟩ rfl
      · exact Nat.lt_of_lt_of_le hcount (Nat.le_add_left _ _)
      · have := sound.laid.count_le tail.cluster
        simp only [Cluster.fill, Cluster.remaining] at *
        omega
  | @grow i c tail exceeds last admits =>
      have hc := tail.cluster
      have hle := sound.laid.count_le hc
      have hgenerations := admits.generations
      have hfinals := admits.finals
      have hclear := admits.clear
      rw [sound.linked.endOf_of_tailOf tail] at hgenerations hclear
      rw [Tiling.nextBase_of_tail hc last] at hfinals
      have hbase := sound.laid.baseGeneration hc
      refine sound.modifyCluster tail ⟨rfl, rfl, rfl, ?_, ?_⟩ (.inr last) ?_ ?_ ?_
      · exact Nat.lt_of_lt_of_le hcount (Nat.le_add_left _ _)
      · simp only [Cluster.grow, Cluster.remaining] at *
        omega
      · simp only [Cluster.grow, Cluster.endOf] at *
        omega
      · simp only [Cluster.grow] at *
        omega
      · convert hclear using 1
        simp only [Cluster.grow, Cluster.endOf]
        omega
  | overflow tail exceeds inner admits => exact sound.overflow tail exceeds admits
  | first fresh admits => exact sound.first hcount fresh admits

theorem Sound.finalize (sound : ledger.Sound) (h : ledger.finalize range = .ok ledger') :
    ledger'.Sound := by
  rcases sound.finalize_cases h with ⟨-, rfl⟩ | ⟨ids, -, hcount, -, -, hallocates⟩
  · exact sound
  · exact hallocates.sound sound hcount

theorem Allocates.grows (h : ledger.Allocates id count ledger') :
    ledger.registry.Grows ledger'.registry := by
  cases h with
  | extend tail fits => exact .refl _
  | grow tail exceeds last admits => exact .refl _
  | overflow tail exceeds inner admits => exact Registry.grows_link ..
  | first fresh admits => exact Registry.grows_register_link ..

end CompactIds.Ledger
