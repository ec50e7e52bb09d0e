import CompactIds.Proofs.Tails

/-!
# Ledgers without places

Peers give sessions different places, so their clusters are compared by the
names of the owners.  All that decides about a range can be read off this form.
-/

namespace CompactIds

/-- A cluster with its owner in place of the owner's place. -/
structure Block where
  owner : Option SessionId
  baseFinal : Nat
  baseGeneration : Nat
  capacity : Nat
  count : Nat
  deriving DecidableEq, Repr

namespace Ledger

variable {ledger other : Ledger} {id : SessionId} {place i base capacity count : Nat}
  {c d : Cluster} {f : Cluster → Cluster} {g : Block → Block} {p : Position}

def block (ledger : Ledger) (c : Cluster) : Block :=
  ⟨ledger.ownerOf? c, c.baseFinal, c.baseGeneration, c.capacity, c.count⟩

def blocks (ledger : Ledger) : List Block :=
  ledger.tiling.clusters.toList.map ledger.block

/-- The same clusters, and the same reserve for new ones. -/
structure Agree (ledger other : Ledger) : Prop where
  capacity : ledger.capacity = other.capacity
  blocks : ledger.blocks = other.blocks

theorem Agree.refl (ledger : Ledger) : ledger.Agree ledger :=
  ⟨rfl, rfl⟩

theorem Agree.symm (agree : ledger.Agree other) : other.Agree ledger :=
  ⟨agree.capacity.symm, agree.blocks.symm⟩

theorem Agree.trans {third : Ledger} (agree : ledger.Agree other) (agree' : other.Agree third) :
    ledger.Agree third :=
  ⟨agree.capacity.trans agree'.capacity, agree.blocks.trans agree'.blocks⟩

theorem getElem?_blocks (ledger : Ledger) (i : Nat) :
    ledger.blocks[i]? = (ledger.tiling.cluster? i).map ledger.block := by
  rw [blocks, List.getElem?_map, Array.getElem?_toList]
  rfl

theorem blocks_modifyCluster (h : ∀ c, ledger.block (f c) = g (ledger.block c)) (i : Nat) :
    (ledger.modifyCluster i f).blocks = ledger.blocks.modify i g := by
  apply List.ext_getElem?
  intro j
  rw [getElem?_blocks, List.getElem?_modify, getElem?_blocks]
  change ((ledger.tiling.modify i f).cluster? j).map ledger.block = _
  rw [Tiling.cluster?_modify]
  by_cases hij : i = j
  · simp [hij, Option.map_map, Function.comp_def, h]
  · simp [hij]

theorem blocks_append (ledger : Ledger) (place base capacity count : Nat) :
    (ledger.append place base capacity count).blocks =
      ledger.blocks ++ [⟨(ledger.registry.session? place).map Session.id,
        ledger.tiling.nextBase, base, capacity, count⟩] := by
  have hblock : (ledger.append place base capacity count).block = ledger.block := by
    funext c
    simp [block, ownerOf?_append]
  rw [blocks, hblock]
  change ((ledger.tiling.clusters.push _).toList).map ledger.block = _
  rw [Array.toList_push, List.map_append]
  rfl

theorem blocks_register (linked : ledger.Linked) (id : SessionId) :
    (ledger.register id).blocks = ledger.blocks := by
  apply List.ext_getElem?
  intro j
  rw [getElem?_blocks, getElem?_blocks]
  change (ledger.tiling.cluster? j).map (ledger.register id).block = _
  cases hc : ledger.tiling.cluster? j with
  | none => rfl
  | some c => simp [block, ownerOf?_register linked hc]

private theorem getLast?_blocks (ledger : Ledger) :
    ledger.blocks.getLast? = ledger.tiling.tail?.map ledger.block := by
  rw [blocks, List.getLast?_map, Array.getLast?_toList]
  rfl

theorem Agree.nextBase_eq (agree : ledger.Agree other) :
    ledger.tiling.nextBase = other.tiling.nextBase := by
  have hlast := congrArg List.getLast? agree.blocks
  rw [getLast?_blocks, getLast?_blocks] at hlast
  unfold Tiling.nextBase
  cases hc : ledger.tiling.tail? <;> cases hd : other.tiling.tail? <;>
    simp_all [block]

theorem Agree.limit_eq (agree : ledger.Agree other) :
    ledger.tiling.limit = other.tiling.limit := by
  have hlast := congrArg List.getLast? agree.blocks
  rw [getLast?_blocks, getLast?_blocks] at hlast
  unfold Tiling.limit
  cases hc : ledger.tiling.tail? <;> cases hd : other.tiling.tail? <;>
    simp_all [block]

theorem Agree.size_eq (agree : ledger.Agree other) : ledger.tiling.size = other.tiling.size := by
  have hlength := congrArg List.length agree.blocks
  simpa [Ledger.blocks, Tiling.size] using hlength

theorem Agree.canGrow_eq (agree : ledger.Agree other) (i : Nat) :
    ledger.tiling.canGrow i = other.tiling.canGrow i := by
  rw [Tiling.canGrow, Tiling.canGrow, agree.size_eq]

theorem Agree.exists_cluster (agree : ledger.Agree other)
    (hc : ledger.tiling.cluster? i = some c) :
    ∃ d, other.tiling.cluster? i = some d ∧ other.block d = ledger.block c := by
  have hi := congrArg (fun bs : List Block => bs[i]?) agree.blocks
  simp only [getElem?_blocks, hc, Option.map_some] at hi
  exact Option.map_eq_some_iff.1 hi.symm

theorem Agree.exists_tailOf (agree : ledger.Agree other) (linked : ledger.Linked)
    (tail : ledger.TailOf id i c) :
    ∃ d, other.TailOf id i d ∧ other.block d = ledger.block c := by
  obtain ⟨d, hd, hblock⟩ := agree.exists_cluster tail.cluster
  have howner : other.ownerOf? d = some id :=
    (congrArg Block.owner hblock).trans tail.owner
  refine ⟨d, ⟨howner, hd, ⟨d, hd, rfl⟩, fun j e hij he hes => ?_⟩, hblock⟩
  -- A later cluster of the same place would be one of the same owner on the other side.
  obtain ⟨e', he', hblock'⟩ := agree.symm.exists_cluster he
  have howner' : ledger.ownerOf? e' = some id :=
    (congrArg Block.owner hblock').trans ((ownerOf?_congr hes).trans howner)
  exact tail.isTail.2 j e' hij he' (linked.session_eq_of_owner howner' tail.owner)

theorem Agree.tailPlace?_eq (agree : ledger.Agree other) (linked : ledger.Linked)
    (linked' : other.Linked) (id : SessionId) : ledger.tailPlace? id = other.tailPlace? id := by
  apply Option.ext
  intro i
  rw [linked.tailPlace?_eq_some_iff, linked'.tailPlace?_eq_some_iff]
  constructor
  · rintro ⟨c, tail⟩
    obtain ⟨d, tail', -⟩ := agree.exists_tailOf linked tail
    exact ⟨d, tail'⟩
  · rintro ⟨d, tail⟩
    obtain ⟨c, tail', -⟩ := agree.symm.exists_tailOf linked' tail
    exact ⟨c, tail'⟩

theorem Agree.tail?_eq (agree : ledger.Agree other) (linked : ledger.Linked)
    (linked' : other.Linked) (id : SessionId) :
    (ledger.tail? id).map ledger.block = (other.tail? id).map other.block := by
  cases hplace : ledger.tailPlace? id with
  | none =>
      have hplace' := agree.tailPlace?_eq linked linked' id
      rw [hplace] at hplace'
      simp [tail?, hplace, ← hplace']
  | some i =>
      obtain ⟨c, tail⟩ := linked.tailPlace?_eq_some_iff.1 hplace
      obtain ⟨d, tail', hblock⟩ := agree.exists_tailOf linked tail
      rw [linked.tail?_of_tailOf tail, linked'.tail?_of_tailOf tail', Option.map_some,
        Option.map_some, hblock]

theorem Agree.endOf_eq (agree : ledger.Agree other) (linked : ledger.Linked)
    (linked' : other.Linked) (id : SessionId) (extent : Extent) :
    ledger.endOf id extent = other.endOf id extent := by
  have htail := agree.tail?_eq linked linked' id
  unfold endOf
  cases hc : ledger.tail? id <;> cases hd : other.tail? id <;>
    simp_all [block]
  cases extent <;> simp_all [Cluster.endOf]

theorem Agree.reserve_eq (agree : ledger.Agree other) (linked : ledger.Linked)
    (linked' : other.Linked) (id : SessionId) : ledger.reserve id = other.reserve id := by
  have htail := agree.tail?_eq linked linked' id
  unfold reserve
  cases hc : ledger.tail? id <;> cases hd : other.tail? id <;>
    simp_all [block, Cluster.remaining]

def lastReserved? (ledger : Ledger) (id : SessionId) : Option Position :=
  (ledger.tail? id).map fun c => id.position.offset ((c.endOf .reserved - 1 : Nat) - 1)

theorem Linked.lastReserved?_session (linked : ledger.Linked) {s : Session}
    (hs : ledger.registry.session? place = some s) :
    ledger.lastReserved? s.id = s.lastReserved? ledger.tiling := by
  rw [lastReserved?, linked.tail?_session hs, Session.lastReserved?]
  cases s.tail? ledger.tiling <;> rfl

theorem Linked.exists_session_of_lastReserved? (linked : ledger.Linked)
    (h : ledger.lastReserved? id = some p) :
    ∃ place s, ledger.registry.session? place = some s ∧ s.id = id ∧
      s.lastReserved? ledger.tiling = some p := by
  have hsome := h
  rw [lastReserved?, Option.map_eq_some_iff] at h
  obtain ⟨c, hc, -⟩ := h
  obtain ⟨i, hi, -⟩ := Option.bind_eq_some_iff.1 hc
  obtain ⟨d, tail⟩ := linked.tailPlace?_eq_some_iff.1 hi
  obtain ⟨s, hs, rfl⟩ := ownerOf?_eq_some_iff.1 tail.owner
  exact ⟨_, s, hs, rfl, by rw [← linked.lastReserved?_session hs, hsome]⟩

theorem Agree.lastReserved?_eq (agree : ledger.Agree other) (linked : ledger.Linked)
    (linked' : other.Linked) (id : SessionId) :
    ledger.lastReserved? id = other.lastReserved? id := by
  have htail := agree.tail?_eq linked linked' id
  unfold lastReserved?
  cases hc : ledger.tail? id <;> cases hd : other.tail? id <;>
    simp_all [block, Cluster.endOf]

theorem Sound.nearestOther?_iff_names (sound : ledger.Sound) {owner neighbour : SessionId}
    {last : Position} :
    ledger.registry.nearestOther? owner p ledger.tiling = some (neighbour, last) ↔
      neighbour.position ≤ p ∧ neighbour ≠ owner ∧
        ledger.lastReserved? neighbour = some last ∧
        ∀ id, (ledger.lastReserved? id).isSome → id.position ≤ p → id ≠ owner →
          id.position ≤ neighbour.position := by
  have linked := sound.linked
  rw [sound.nearestOther?_eq_some_iff]
  constructor
  · rintro ⟨place, s, hs, hle, hne, hlast, rfl, hmax⟩
    refine ⟨hle, hne, by rw [linked.lastReserved?_session hs, hlast], fun id hid hidle hidne => ?_⟩
    obtain ⟨r, hr⟩ := Option.isSome_iff_exists.1 hid
    obtain ⟨q, t, ht, rfl, htlast⟩ := linked.exists_session_of_lastReserved? hr
    exact hmax q t ht hidle hidne (Sound.isPopulated_of_lastReserved? htlast)
  · rintro ⟨hle, hne, hlast, hmax⟩
    obtain ⟨place, s, hs, rfl, hslast⟩ := linked.exists_session_of_lastReserved? hlast
    refine ⟨place, s, hs, hle, hne, hslast, rfl, fun q t ht htle htne htpop => ?_⟩
    obtain ⟨r, hr, -⟩ := sound.lastReserved?_populated ht htpop
    rw [← linked.lastReserved?_session ht] at hr
    exact hmax t.id (by rw [hr]; rfl) htle htne

theorem Agree.nearestOther?_eq (agree : ledger.Agree other) (sound : ledger.Sound)
    (sound' : other.Sound) (owner : SessionId) (p : Position) :
    ledger.registry.nearestOther? owner p ledger.tiling =
      other.registry.nearestOther? owner p other.tiling := by
  apply Option.ext
  rintro ⟨neighbour, last⟩
  simp only [sound.nearestOther?_iff_names, sound'.nearestOther?_iff_names,
    agree.lastReserved?_eq sound.linked sound'.linked]

theorem Agree.collision?_eq (agree : ledger.Agree other) (sound : ledger.Sound)
    (sound' : other.Sound) (owner : SessionId) (base : Position) (length : Nat) :
    ledger.registry.collision? owner base length ledger.tiling =
      other.registry.collision? owner base length other.tiling := by
  unfold Registry.collision?
  cases base.lastOf? length with
  | none => rfl
  | some top => simp only [agree.nearestOther?_eq sound sound' owner top]

end Ledger

end CompactIds
