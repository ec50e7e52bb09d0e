import CompactIds.Proofs.Layout

/-!
# Chains of clusters

Every cluster is in the chain of the session that it names and in no other,
and a chain ascends.  So the last entry of a chain is the last cluster that
names its session, and where that cluster ends the session ends.
-/

namespace CompactIds

namespace Tiling

variable {tiling : Tiling} {place i j : Nat}

/-- The `i`-th cluster is the last one of the session at a place. -/
def IsTail (tiling : Tiling) (place i : Nat) : Prop :=
  (∃ c, tiling.cluster? i = some c ∧ c.session = place) ∧
    ∀ j d, i < j → tiling.cluster? j = some d → d.session ≠ place

theorem IsTail.eq (hi : tiling.IsTail place i) (hj : tiling.IsTail place j) : i = j := by
  obtain ⟨⟨c, hc, hcs⟩, hafter⟩ := hi
  obtain ⟨⟨d, hd, hds⟩, hafter'⟩ := hj
  rcases Nat.lt_trichotomy i j with hij | hij | hij
  · exact absurd hds (hafter j d hij hd)
  · exact hij
  · exact absurd hcs (hafter' i c hij hc)

theorem IsTail.ownedBy_eq {c : Cluster} (h : tiling.IsTail place i)
    (hc : tiling.cluster? i = some c) :
    ownedBy place tiling.clusters.toList = ownedBy place (tiling.before i) ++ [c] := by
  obtain ⟨⟨d, hd, hplace⟩, hafter⟩ := h
  rw [hc] at hd
  cases hd
  have hrest : ownedBy place (tiling.before tiling.size) =
      ownedBy place (tiling.before (i + 1)) :=
    ownedBy_before_eq (lt_size hc) fun k d hik _ hd => hafter k d hik hd
  rw [← before_size, hrest, before_succ hc, ownedBy_append, ownedBy_singleton, if_pos hplace]

end Tiling

namespace Session

variable {s : Session} {tiling : Tiling}

theorem tail?_eq_none (h : s.isPopulated = false) (tiling : Tiling) :
    s.tail? tiling = none := by
  have hempty : s.chain = #[] := by simpa [isPopulated] using h
  simp [tail?, hempty]

theorem endOf_eq_one (h : s.isPopulated = false) (extent : Extent) :
    s.endOf extent tiling = 1 := by
  simp [endOf, tail?_eq_none h]

end Session

namespace Ledger

variable {ledger : Ledger} {place i g : Nat} {s t : Session} {c : Cluster} {id : SessionId}
  {extent : Extent}

structure Linked (ledger : Ledger) : Prop where
  indexed : ledger.registry.Indexed
  owner : ∀ {i c}, ledger.tiling.cluster? i = some c → c.session < ledger.registry.size
  mem_chain : ∀ {place s}, ledger.registry.session? place = some s → ∀ i,
    i ∈ s.chain ↔ ∃ c, ledger.tiling.cluster? i = some c ∧ c.session = place
  ascending : ∀ {place s}, ledger.registry.session? place = some s →
    s.chain.toList.Pairwise (· < ·)

def ownerOf? (ledger : Ledger) (c : Cluster) : Option SessionId :=
  (ledger.registry.session? c.session).map Session.id

theorem lt_of_ascending {chain : Array Nat} (ascending : chain.toList.Pairwise (· < ·))
    {a b i j : Nat} (ha : chain[a]? = some i) (hb : chain[b]? = some j) (hab : a < b) :
    i < j := by
  obtain ⟨ha', rfl⟩ := Array.getElem?_eq_some_iff.1 ha
  obtain ⟨hb', rfl⟩ := Array.getElem?_eq_some_iff.1 hb
  exact List.pairwise_iff_getElem.1 ascending a b ha' hb' hab

private theorem le_back {chain : List Nat} (ascending : chain.Pairwise (· < ·)) {i : Nat}
    (h : chain.getLast? = some i) : ∀ j ∈ chain, j ≤ i := by
  obtain ⟨init, rfl⟩ := List.getLast?_eq_some_iff.1 h
  intro j hj
  rcases List.mem_append.1 hj with hj | hj
  · exact Nat.le_of_lt ((List.pairwise_append.1 ascending).2.2 j hj i (by simp))
  · simp_all

namespace Linked

theorem session_of_chain (linked : ledger.Linked)
    (hs : ledger.registry.session? place = some s) {k : Nat} (hi : s.chain[k]? = some i)
    (hc : ledger.tiling.cluster? i = some c) : c.session = place := by
  obtain ⟨d, hd, hplace⟩ := (linked.mem_chain hs i).1 (Array.mem_of_getElem? hi)
  rw [hc] at hd
  cases hd
  exact hplace

/-! ## Tails -/

theorem isTail_of_back? (linked : ledger.Linked) (hs : ledger.registry.session? place = some s)
    (h : s.chain.back? = some i) : ledger.tiling.IsTail place i := by
  rw [← Array.getLast?_toList] at h
  refine ⟨(linked.mem_chain hs i).1 (Array.mem_toList_iff.1 (List.mem_of_getLast? h)), ?_⟩
  intro j d hij hd hds
  have hmem : j ∈ s.chain := (linked.mem_chain hs j).2 ⟨d, hd, hds⟩
  have := le_back (linked.ascending hs) h j (Array.mem_toList_iff.2 hmem)
  omega

theorem back?_eq_some_iff (linked : ledger.Linked)
    (hs : ledger.registry.session? place = some s) :
    s.chain.back? = some i ↔ ledger.tiling.IsTail place i := by
  constructor
  · exact linked.isTail_of_back? hs
  · intro htail
    have hmem : i ∈ s.chain := (linked.mem_chain hs i).2 htail.1
    cases hback : s.chain.back? with
    | none =>
        rw [Array.back?_eq_none_iff] at hback
        simp [hback] at hmem
    | some j => rw [(linked.isTail_of_back? hs hback).eq htail]

theorem isPopulated_iff (linked : ledger.Linked)
    (hs : ledger.registry.session? place = some s) :
    s.isPopulated = true ↔ ∃ i, ledger.tiling.IsTail place i := by
  unfold Session.isPopulated
  constructor
  · intro h
    cases hback : s.chain.back? with
    | none =>
        rw [Array.back?_eq_none_iff] at hback
        simp [hback] at h
    | some i => exact ⟨i, linked.isTail_of_back? hs hback⟩
  · rintro ⟨i, htail⟩
    have hback := (linked.back?_eq_some_iff hs).2 htail
    cases hempty : s.chain.isEmpty with
    | false => rfl
    | true =>
        rw [Array.isEmpty_iff] at hempty
        simp [hempty] at hback

theorem exists_isTail (linked : ledger.Linked) (hc : ledger.tiling.cluster? i = some c) :
    ∃ j, ledger.tiling.IsTail c.session j := by
  obtain ⟨s, hs⟩ := Registry.exists_session (linked.owner hc)
  have hmem : i ∈ s.chain := (linked.mem_chain hs i).2 ⟨c, hc, rfl⟩
  cases hback : s.chain.back? with
  | none =>
      rw [Array.back?_eq_none_iff] at hback
      simp [hback] at hmem
  | some j => exact ⟨j, linked.isTail_of_back? hs hback⟩

theorem tail?_of_isTail (linked : ledger.Linked)
    (hs : ledger.registry.session? place = some s) (htail : ledger.tiling.IsTail place i) :
    s.tail? ledger.tiling = ledger.tiling.cluster? i := by
  simp [Session.tail?, (linked.back?_eq_some_iff hs).2 htail]

theorem exists_tail (linked : ledger.Linked) (hs : ledger.registry.session? place = some s)
    (h : s.isPopulated = true) :
    ∃ i c, ledger.tiling.IsTail place i ∧ ledger.tiling.cluster? i = some c ∧
      c.session = place ∧ s.tail? ledger.tiling = some c := by
  obtain ⟨i, htail⟩ := (linked.isPopulated_iff hs).1 h
  obtain ⟨⟨c, hc, hplace⟩, -⟩ := id htail
  exact ⟨i, c, htail, hc, hplace, by rw [linked.tail?_of_isTail hs htail, hc]⟩

theorem endOf_of_isTail (linked : ledger.Linked)
    (hs : ledger.registry.session? place = some s) (htail : ledger.tiling.IsTail place i)
    (hc : ledger.tiling.cluster? i = some c) (extent : Extent) :
    s.endOf extent ledger.tiling = c.endOf extent := by
  simp [Session.endOf, linked.tail?_of_isTail hs htail, hc]

theorem ownedBy_eq_nil (linked : ledger.Linked)
    (hs : ledger.registry.session? place = some s) (h : s.isPopulated = false) :
    ownedBy place ledger.tiling.clusters.toList = [] := by
  have hnone : ∀ k d, 0 ≤ k → k < ledger.tiling.size →
      ledger.tiling.cluster? k = some d → d.session ≠ place := by
    rintro k d - - hd rfl
    have hpop := (linked.isPopulated_iff hs).2 (linked.exists_isTail hd)
    rw [h] at hpop
    cases hpop
  rw [← Tiling.before_size, Tiling.ownedBy_before_eq (Nat.zero_le _) hnone]
  rfl

theorem endOf_reserved (linked : ledger.Linked) (laid : ledger.tiling.Laid)
    (hs : ledger.registry.session? place = some s) :
    s.endOf .reserved ledger.tiling =
      1 + room (ownedBy place ledger.tiling.clusters.toList) := by
  cases hpop : s.isPopulated with
  | true =>
      obtain ⟨i, c, htail, hc, hplace, -⟩ := linked.exists_tail hs hpop
      rw [linked.endOf_of_isTail hs htail hc, htail.ownedBy_eq hc, room_append, room_singleton,
        Cluster.endOf, laid.baseGeneration hc, hplace, Nat.add_assoc]
  | false =>
      rw [Session.endOf_eq_one hpop, linked.ownedBy_eq_nil hs hpop]
      rfl

theorem one_le_endOf (linked : ledger.Linked) (laid : ledger.tiling.Laid)
    (hs : ledger.registry.session? place = some s) :
    1 ≤ s.endOf .reserved ledger.tiling := by
  rw [linked.endOf_reserved laid hs]
  exact Nat.le_add_right _ _

theorem one_lt_endOf (linked : ledger.Linked) (laid : ledger.tiling.Laid)
    (hs : ledger.registry.session? place = some s) (h : s.isPopulated = true) :
    1 < s.endOf .reserved ledger.tiling := by
  obtain ⟨i, c, htail, hc, -, -⟩ := linked.exists_tail hs h
  have := laid.capacity_pos hc
  rw [linked.endOf_of_isTail hs htail hc, Cluster.endOf, laid.baseGeneration hc]
  omega

/-! ## Coverage -/

theorem lt_endOf_of_covers (linked : ledger.Linked) (laid : ledger.tiling.Laid)
    (hs : ledger.registry.session? place = some s)
    (hc : ledger.tiling.cluster? i = some c) (hplace : c.session = place)
    (hg : c.covers extent g = true) : g < s.endOf extent ledger.tiling := by
  subst hplace
  obtain ⟨j, htail⟩ := linked.exists_isTail hc
  obtain ⟨⟨d, hd, hds⟩, hafter⟩ := id htail
  rw [linked.endOf_of_isTail hs htail hd]
  obtain ⟨-, hlt⟩ := Cluster.covers_iff.1 hg
  rcases Nat.lt_trichotomy i j with hij | rfl | hij
  · have := laid.generation_lt hc hd hij hds.symm
    have := laid.endOf_le hc extent
    cases extent <;> simp only [Cluster.endOf] at * <;> omega
  · rw [hc] at hd
    cases hd
    exact hlt
  · exact absurd rfl (hafter i c hij hc)

theorem exists_covers (linked : ledger.Linked) (laid : ledger.tiling.Laid)
    (hs : ledger.registry.session? place = some s) (hpos : 1 ≤ g)
    (hg : g < s.endOf extent ledger.tiling) :
    ∃ i c, ledger.tiling.cluster? i = some c ∧ c.session = place ∧
      c.covers extent g = true := by
  cases hpop : s.isPopulated with
  | false =>
      rw [Session.endOf_eq_one hpop] at hg
      omega
  | true =>
      obtain ⟨j, d, htail, hd, hds, -⟩ := linked.exists_tail hs hpop
      rw [linked.endOf_of_isTail hs htail hd] at hg
      have hreserved : g < 1 + room (ownedBy place ledger.tiling.clusters.toList) := by
        rw [← linked.endOf_reserved laid hs, linked.endOf_of_isTail hs htail hd]
        exact Nat.lt_of_lt_of_le hg (laid.endOf_le hd extent)
      rw [← Tiling.before_size] at hreserved
      obtain ⟨i, c, -, hc, hcs, hcov⟩ := laid.exists_covers hpos hreserved
      refine ⟨i, c, hc, hcs, ?_⟩
      obtain ⟨hbase, hlt⟩ := Cluster.covers_iff.1 hcov
      rw [Cluster.covers_iff]
      refine ⟨hbase, ?_⟩
      -- Only the last cluster of the session can have a reserve.
      rcases Nat.lt_trichotomy i j with hij | rfl | hij
      · have := laid.full hc hd hij (hcs.trans hds.symm)
        cases extent <;> simp only [Cluster.endOf] at * <;> omega
      · rw [hc] at hd
        cases hd
        exact hg
      · exact absurd hcs (htail.2 i c hij hc)

end Linked

theorem ownerOf?_eq_some_iff :
    ledger.ownerOf? c = some id ↔
      ∃ s, ledger.registry.session? c.session = some s ∧ s.id = id :=
  Option.map_eq_some_iff

theorem Linked.exists_owner (linked : ledger.Linked) (hc : ledger.tiling.cluster? i = some c) :
    ∃ id, ledger.ownerOf? c = some id := by
  obtain ⟨s, hs⟩ := Registry.exists_session (linked.owner hc)
  exact ⟨s.id, ownerOf?_eq_some_iff.2 ⟨s, hs, rfl⟩⟩

theorem Linked.ownerOf?_session (linked : ledger.Linked)
    (hs : ledger.registry.session? place = some s) :
    ledger.ownerOf? c = some s.id ↔ c.session = place := by
  rw [ownerOf?_eq_some_iff]
  constructor
  · rintro ⟨t, ht, hid⟩
    exact linked.indexed.place_eq ht hs hid
  · rintro rfl
    exact ⟨s, hs, rfl⟩

/-- The `i`-th cluster `c` is the last one of the session called `id`. -/
structure TailOf (ledger : Ledger) (id : SessionId) (i : Nat) (c : Cluster) : Prop where
  owner : ledger.ownerOf? c = some id
  cluster : ledger.tiling.cluster? i = some c
  isTail : ledger.tiling.IsTail c.session i

theorem Linked.tailPlace?_eq_some_iff (linked : ledger.Linked) :
    ledger.tailPlace? id = some i ↔ ∃ c, ledger.TailOf id i c := by
  simp only [tailPlace?, Option.bind_eq_bind, Option.bind_eq_some_iff]
  constructor
  · rintro ⟨place, hfind, s, hs, hback⟩
    obtain ⟨t, ht, hid⟩ := linked.indexed.session?_of_find? hfind
    rw [hs] at ht
    cases ht
    have htail := (linked.back?_eq_some_iff hs).1 hback
    obtain ⟨⟨c, hc, rfl⟩, hafter⟩ := htail
    exact ⟨c, ownerOf?_eq_some_iff.2 ⟨s, hs, hid⟩, hc, ⟨c, hc, rfl⟩, hafter⟩
  · rintro ⟨c, howner, -, htail⟩
    obtain ⟨s, hs, rfl⟩ := ownerOf?_eq_some_iff.1 howner
    exact ⟨c.session, linked.indexed.find?_session hs, s, hs,
      (linked.back?_eq_some_iff hs).2 htail⟩

theorem Linked.tail?_of_tailOf (linked : ledger.Linked) (h : ledger.TailOf id i c) :
    ledger.tail? id = some c := by
  simp [tail?, linked.tailPlace?_eq_some_iff.2 ⟨c, h⟩, h.cluster]

theorem Linked.endOf_of_tailOf (linked : ledger.Linked) (h : ledger.TailOf id i c)
    (extent : Extent) : ledger.endOf id extent = c.endOf extent := by
  simp [endOf, linked.tail?_of_tailOf h]

theorem Linked.reserve_of_tailOf (linked : ledger.Linked) (h : ledger.TailOf id i c) :
    ledger.reserve id = c.remaining := by
  simp [reserve, linked.tail?_of_tailOf h]

theorem endOf_of_tailPlace?_none (h : ledger.tailPlace? id = none) (extent : Extent) :
    ledger.endOf id extent = 1 := by
  simp [endOf, tail?, h]

theorem reserve_of_tailPlace?_none (h : ledger.tailPlace? id = none) :
    ledger.reserve id = 0 := by
  simp [reserve, tail?, h]

theorem Linked.endOf_pos (linked : ledger.Linked) (laid : ledger.tiling.Laid) (id : SessionId)
    (extent : Extent) : 0 < ledger.endOf id extent := by
  cases hplace : ledger.tailPlace? id with
  | none => simp [endOf_of_tailPlace?_none hplace]
  | some i =>
      obtain ⟨c, tail⟩ := linked.tailPlace?_eq_some_iff.1 hplace
      have hbase := laid.baseGeneration tail.cluster
      rw [linked.endOf_of_tailOf tail]
      cases extent <;> simp only [Cluster.endOf] <;> omega

theorem Linked.tail?_session (linked : ledger.Linked)
    (hs : ledger.registry.session? place = some s) :
    ledger.tail? s.id = s.tail? ledger.tiling := by
  simp [tail?, tailPlace?, Session.tail?, linked.indexed.find?_session hs, hs]

theorem Linked.endOf_session (linked : ledger.Linked)
    (hs : ledger.registry.session? place = some s) (extent : Extent) :
    ledger.endOf s.id extent = s.endOf extent ledger.tiling := by
  have htail := linked.tail?_session hs
  cases hc : s.tail? ledger.tiling with
  | none => simp [endOf, Session.endOf, htail, hc]
  | some c => simp [endOf, Session.endOf, htail, hc]

end Ledger

end CompactIds
