import CompactIds.Proofs.Convergence
import CompactIds.Proofs.Loading

/-!
# Shares

Who owns the clusters and how large they are says it all: where they lie
follows from that, and so does whether another one may be appended.
-/

namespace CompactIds

/-- A cluster without its place. -/
structure Share where
  owner : Option SessionId
  capacity : Nat
  count : Nat
  deriving DecidableEq, Repr

def sumOf (size : Share → Nat) (id : SessionId) (shares : List Share) : Nat :=
  ((shares.filter fun share => share.owner = some id).map size).sum

def Owns (id : SessionId) (shares : List Share) : Prop :=
  ∃ share ∈ shares, share.owner = some id

instance (id : SessionId) (shares : List Share) : Decidable (Owns id shares) :=
  inferInstanceAs (Decidable (∃ share ∈ shares, share.owner = some id))

section Lists

variable {size : Share → Nat} {id : SessionId} {share : Share} {shares : List Share}

@[simp] theorem sumOf_nil : sumOf size id [] = 0 := rfl

@[simp] theorem sumOf_append (xs ys : List Share) :
    sumOf size id (xs ++ ys) = sumOf size id xs + sumOf size id ys := by
  simp [sumOf]

@[simp] theorem sumOf_singleton :
    sumOf size id [share] = if share.owner = some id then size share else 0 := by
  by_cases h : share.owner = some id <;> simp [sumOf, h]

@[simp] theorem owns_append (xs ys : List Share) :
    Owns id (xs ++ ys) ↔ Owns id xs ∨ Owns id ys := by
  simp [Owns, or_and_right, exists_or]

@[simp] theorem owns_singleton : Owns id [share] ↔ share.owner = some id := by
  simp [Owns]

theorem sumOf_eq_zero (h : ¬ Owns id shares) : sumOf size id shares = 0 := by
  have hnone : shares.filter (fun share => share.owner = some id) = [] := by
    simpa [Owns] using h
  rw [sumOf, hnone]
  rfl

end Lists

/-- Shares that a ledger can hold.  No session gets more generations than can be
counted, the final ids do not run out, and the positions of the sessions lie
apart. -/
structure Tenable (shares : List Share) : Prop where
  owned : ∀ share ∈ shares, share.owner.isSome
  sizes : ∀ share ∈ shares, 1 ≤ share.count ∧ share.count ≤ share.capacity
  /-- Only the last share of a session has a reserve. -/
  full : shares.Pairwise fun a b => a.owner = b.owner → a.count = a.capacity
  generations : ∀ id, sumOf Share.capacity id shares ≤ 2 ^ 63 - 2
  finals : (shares.map Share.capacity).sum ≤ 2 ^ 63 - 1
  inside : ∀ id, Owns id shares → id.position.val + sumOf Share.capacity id shares ≤ 2 ^ 122
  disjoint : ∀ id other, id ≠ other → Owns id shares → Owns other shares →
    id.position.val + sumOf Share.capacity id shares ≤ other.position.val ∨
      other.position.val + sumOf Share.capacity other shares ≤ id.position.val

theorem Tenable.nil : Tenable [] := by
  constructor <;> simp [Owns]

theorem Tenable.of_append {xs ys : List Share} (h : Tenable (xs ++ ys)) : Tenable xs where
  owned := fun share hshare => h.owned share (List.mem_append_left ys hshare)
  sizes := fun share hshare => h.sizes share (List.mem_append_left ys hshare)
  full := (List.pairwise_append.1 h.full).1
  generations := by
    intro id
    have := h.generations id
    rw [sumOf_append] at this
    omega
  finals := by
    have := h.finals
    rw [List.map_append, List.sum_append] at this
    omega
  inside := by
    intro id howns
    have := h.inside id ((owns_append xs ys).2 (.inl howns))
    rw [sumOf_append] at this
    omega
  disjoint := by
    intro id other hne howns howns'
    have := h.disjoint id other hne ((owns_append xs ys).2 (.inl howns))
      ((owns_append xs ys).2 (.inl howns'))
    rw [sumOf_append, sumOf_append] at this
    omega

namespace Ledger

variable {ledger other : Ledger} {id : SessionId} {place i base capacity count : Nat}
  {s : Session} {c : Cluster}

def share (ledger : Ledger) (c : Cluster) : Share :=
  ⟨ledger.ownerOf? c, c.capacity, c.count⟩

def shares (ledger : Ledger) : List Share :=
  ledger.tiling.clusters.toList.map ledger.share

theorem shares_eq_map_blocks (ledger : Ledger) :
    ledger.shares = ledger.blocks.map fun b => ⟨b.owner, b.capacity, b.count⟩ := by
  rw [blocks, List.map_map]
  rfl

theorem shares_append (ledger : Ledger) (place base capacity count : Nat) :
    (ledger.append place base capacity count).shares =
      ledger.shares ++ [⟨(ledger.registry.session? place).map Session.id, capacity, count⟩] := by
  simp [shares_eq_map_blocks, blocks_append]

theorem shares_register (linked : ledger.Linked) (id : SessionId) :
    (ledger.register id).shares = ledger.shares := by
  rw [shares_eq_map_blocks, blocks_register linked, ← shares_eq_map_blocks]

theorem Agree.shares_eq (agree : ledger.Agree other) : ledger.shares = other.shares := by
  rw [shares_eq_map_blocks, shares_eq_map_blocks, agree.blocks]

theorem getElem?_shares (ledger : Ledger) (i : Nat) :
    ledger.shares[i]? = (ledger.tiling.cluster? i).map ledger.share := by
  rw [shares, List.getElem?_map, Array.getElem?_toList]
  rfl

theorem mem_shares {share : Share} : share ∈ ledger.shares ↔
    ∃ i c, ledger.tiling.cluster? i = some c ∧ ledger.share c = share := by
  simp only [shares, List.mem_map, Tiling.mem_clusters_iff]
  constructor
  · rintro ⟨c, ⟨i, hc⟩, hshare⟩
    exact ⟨i, c, hc, hshare⟩
  · rintro ⟨i, c, hc, hshare⟩
    exact ⟨c, ⟨i, hc⟩, hshare⟩

namespace Linked

theorem owns_session (linked : ledger.Linked) (hs : ledger.registry.session? place = some s) :
    Owns s.id ledger.shares ↔ s.isPopulated = true := by
  rw [linked.isPopulated_iff hs]
  constructor
  · rintro ⟨share, hshare, howner⟩
    obtain ⟨i, c, hc, rfl⟩ := mem_shares.1 hshare
    rw [← (linked.ownerOf?_session hs).1 howner]
    exact linked.exists_isTail hc
  · rintro ⟨i, ⟨c, hc, hplace⟩, -⟩
    exact ⟨ledger.share c, mem_shares.2 ⟨i, c, hc, rfl⟩, (linked.ownerOf?_session hs).2 hplace⟩

theorem exists_session_of_owns (linked : ledger.Linked) (h : Owns id ledger.shares) :
    ∃ place s, ledger.registry.session? place = some s ∧ s.id = id ∧ s.isPopulated = true := by
  have howns := h
  obtain ⟨share, hshare, howner⟩ := h
  obtain ⟨i, c, hc, rfl⟩ := mem_shares.1 hshare
  obtain ⟨s, hs, rfl⟩ := ownerOf?_eq_some_iff.1 howner
  exact ⟨c.session, s, hs, rfl, (linked.owns_session hs).1 howns⟩

theorem sumOf_share (linked : ledger.Linked) (hs : ledger.registry.session? place = some s)
    (size : Share → Nat) (cs : List Cluster) :
    sumOf size s.id (cs.map ledger.share) =
      ((ownedBy place cs).map fun c => size (ledger.share c)).sum := by
  have hfilter : (cs.map ledger.share).filter (fun share => share.owner = some s.id) =
      (ownedBy place cs).map ledger.share := by
    rw [List.filter_map, ownedBy]
    congr 1
    apply List.filter_congr
    intro c _
    simp [share, linked.ownerOf?_session hs]
  rw [sumOf, hfilter, List.map_map]
  rfl

theorem sumOf_capacity (linked : ledger.Linked) (hs : ledger.registry.session? place = some s)
    (cs : List Cluster) :
    sumOf Share.capacity s.id (cs.map ledger.share) = room (ownedBy place cs) := by
  rw [linked.sumOf_share hs, room_eq_sum]
  rfl

theorem endOf_eq_sumOf_capacity (linked : ledger.Linked) (laid : ledger.tiling.Laid)
    (hs : ledger.registry.session? place = some s) :
    s.endOf .reserved ledger.tiling = 1 + sumOf Share.capacity s.id ledger.shares := by
  rw [linked.endOf_reserved laid hs, shares, linked.sumOf_capacity hs]

theorem reach_eq (linked : ledger.Linked) (laid : ledger.tiling.Laid)
    (hs : ledger.registry.session? place = some s) :
    s.reach ledger.tiling = s.id.position.val + sumOf Share.capacity s.id ledger.shares := by
  rw [Session.reach, linked.endOf_eq_sumOf_capacity laid hs, Nat.add_sub_cancel_left]
  rfl

theorem endOf_eq_sumOf_count (linked : ledger.Linked) (laid : ledger.tiling.Laid)
    (hs : ledger.registry.session? place = some s) :
    s.endOf .finalized ledger.tiling = 1 + sumOf Share.count s.id ledger.shares := by
  rw [shares, linked.sumOf_share hs]
  cases hpop : s.isPopulated with
  | false =>
      rw [Session.endOf_eq_one hpop, linked.ownedBy_eq_nil hs hpop]
      rfl
  | true =>
      obtain ⟨i, c, htail, hc, hplace, -⟩ := linked.exists_tail hs hpop
      have hfull : ((ownedBy place (ledger.tiling.before i)).map fun c => c.count) =
          (ownedBy place (ledger.tiling.before i)).map Cluster.capacity := by
        apply List.map_congr_left
        intro d hd
        obtain ⟨hd, hds⟩ := List.mem_filter.1 hd
        obtain ⟨j, hji, hj⟩ := Tiling.exists_of_mem_before hd
        exact laid.full hj hc hji ((of_decide_eq_true hds).trans hplace.symm)
      rw [linked.endOf_of_isTail hs htail hc, htail.ownedBy_eq hc, List.map_append,
        List.sum_append, Cluster.endOf, laid.baseGeneration hc, hplace, room_eq_sum, ← hfull]
      simp [share, Nat.add_assoc]

end Linked

theorem Sound.block_eq (sound : ledger.Sound) (hc : ledger.tiling.cluster? i = some c)
    (howner : ledger.ownerOf? c = some id) :
    ledger.block c = ⟨some id, ((ledger.shares.take i).map Share.capacity).sum,
      1 + sumOf Share.capacity id (ledger.shares.take i), c.capacity, c.count⟩ := by
  obtain ⟨s, hs, rfl⟩ := ownerOf?_eq_some_iff.1 howner
  have hbefore : ledger.shares.take i = (ledger.tiling.before i).map ledger.share := by
    rw [shares, ← List.map_take]
    rfl
  rw [hbefore, sound.linked.sumOf_capacity hs, List.map_map, block, howner,
    sound.laid.baseFinal hc, sound.laid.baseGeneration hc, room_eq_sum]
  rfl

/-- Where the clusters lie follows from the shares. -/
theorem Sound.blocks_eq_of_shares (sound : ledger.Sound) (sound' : other.Sound)
    (h : ledger.shares = other.shares) : ledger.blocks = other.blocks := by
  apply List.ext_getElem?
  intro i
  have hi := congrArg (fun shares : List Share => shares[i]?) h
  simp only [getElem?_shares] at hi
  rw [getElem?_blocks, getElem?_blocks]
  cases hc : ledger.tiling.cluster? i with
  | none =>
      rw [hc] at hi
      rw [Option.map_eq_none_iff.1 hi.symm]
      rfl
  | some c =>
      rw [hc] at hi
      obtain ⟨d, hd, hshare⟩ := Option.map_eq_some_iff.1 hi.symm
      obtain ⟨id, howner⟩ := sound.linked.exists_owner hc
      have howner' : other.ownerOf? d = some id := (congrArg Share.owner hshare).trans howner
      have hcapacity : d.capacity = c.capacity := congrArg Share.capacity hshare
      have hcount : d.count = c.count := congrArg Share.count hshare
      rw [hd, Option.map_some, Option.map_some, sound.block_eq hc howner,
        sound'.block_eq hd howner', h, hcapacity, hcount]

/-! ## Tenable shares -/

theorem Sound.nextBase_eq_sum (sound : ledger.Sound) :
    ledger.tiling.nextBase = (ledger.shares.map Share.capacity).sum := by
  rw [sound.laid.nextBase_eq, room_eq_sum, shares, List.map_map]
  rfl

theorem Sound.full_shares (sound : ledger.Sound) :
    ledger.shares.Pairwise fun a b => a.owner = b.owner → a.count = a.capacity := by
  rw [List.pairwise_iff_getElem]
  intro i j hi hj hij howner
  obtain ⟨c, hc, hshare⟩ := Option.map_eq_some_iff.1
    ((getElem?_shares ledger i).symm.trans (List.getElem?_eq_getElem hi))
  obtain ⟨d, hd, hshare'⟩ := Option.map_eq_some_iff.1
    ((getElem?_shares ledger j).symm.trans (List.getElem?_eq_getElem hj))
  rw [← hshare, ← hshare'] at howner
  obtain ⟨id, hid⟩ := sound.linked.exists_owner hc
  have hid' : ledger.ownerOf? d = some id := howner.symm.trans hid
  rw [← hshare]
  exact sound.laid.full hc hd hij (sound.linked.session_eq_of_owner hid hid')

theorem Sound.sumOf_capacity_le (sound : ledger.Sound) (id : SessionId) :
    sumOf Share.capacity id ledger.shares ≤ 2 ^ 63 - 2 := by
  by_cases howns : Owns id ledger.shares
  · obtain ⟨place, s, hs, rfl, hpop⟩ := sound.linked.exists_session_of_owns howns
    obtain ⟨i, c, htail, hc, -, -⟩ := sound.linked.exists_tail hs hpop
    have hend : 1 + sumOf Share.capacity s.id ledger.shares ≤ 2 ^ 63 - 1 := by
      rw [← sound.linked.endOf_eq_sumOf_capacity sound.laid hs,
        sound.linked.endOf_of_isTail hs htail hc]
      exact sound.endOf_le hc
    omega
  · rw [sumOf_eq_zero howns]
    exact Nat.zero_le _

theorem Sound.tenable (sound : ledger.Sound) : Tenable ledger.shares where
  owned := by
    intro share hshare
    obtain ⟨i, c, hc, rfl⟩ := mem_shares.1 hshare
    obtain ⟨id, howner⟩ := sound.linked.exists_owner hc
    exact Option.isSome_iff_exists.2 ⟨id, howner⟩
  sizes := by
    intro share hshare
    obtain ⟨i, c, hc, rfl⟩ := mem_shares.1 hshare
    exact ⟨sound.laid.count_pos hc, sound.laid.count_le hc⟩
  full := sound.full_shares
  generations := sound.sumOf_capacity_le
  finals := by
    rw [← sound.nextBase_eq_sum]
    exact sound.nextBase_le
  inside := by
    intro id howns
    obtain ⟨place, s, hs, rfl, hpop⟩ := sound.linked.exists_session_of_owns howns
    rw [← sound.linked.reach_eq sound.laid hs]
    exact sound.apart.inside hs hpop
  disjoint := by
    intro id other hne howns howns'
    obtain ⟨p, s, hs, rfl, hspop⟩ := sound.linked.exists_session_of_owns howns
    obtain ⟨q, t, ht, rfl, htpop⟩ := sound.linked.exists_session_of_owns howns'
    have hplace : p ≠ q := by
      rintro rfl
      rw [hs] at ht
      cases ht
      exact hne rfl
    rw [← sound.linked.reach_eq sound.laid hs, ← sound.linked.reach_eq sound.laid ht]
    exact sound.apart.disjoint hs ht hplace hspop htpop

private theorem Sound.fits_of_tenable (sound : ledger.Sound)
    (hs : ledger.registry.session? place = some s)
    (htenable : Tenable (ledger.shares ++ [⟨some s.id, capacity, count⟩])) :
    ledger.Fits s capacity count := by
  have hend := sound.linked.endOf_eq_sumOf_capacity sound.laid hs
  have hsum : sumOf Share.capacity s.id (ledger.shares ++ [⟨some s.id, capacity, count⟩]) =
      sumOf Share.capacity s.id ledger.shares + capacity := by
    simp
  have howns : Owns s.id (ledger.shares ++ [⟨some s.id, capacity, count⟩]) := by simp
  obtain ⟨hpos, hle⟩ := htenable.sizes ⟨some s.id, capacity, count⟩ (by simp)
  refine ⟨hpos, hle, ?full, ?generations, ?finals, ?inside, ?disjoint⟩
  case full =>
    intro c hc
    obtain ⟨i, hback, hi⟩ := Option.bind_eq_some_iff.1 hc
    obtain ⟨k, hk⟩ := Array.mem_iff_getElem?.1 (Array.mem_of_back? hback)
    have howner := (sound.linked.ownerOf?_session hs).2 (sound.linked.session_of_chain hs hk hi)
    exact (List.pairwise_append.1 htenable.full).2.2 (ledger.share c)
      (mem_shares.2 ⟨i, c, hi, rfl⟩) _ (List.mem_singleton_self _) howner
  case generations =>
    have hgenerations := htenable.generations s.id
    have hlimit : idLimit = 2 ^ 63 - 1 := rfl
    omega
  case finals =>
    have hfinals := htenable.finals
    rw [List.map_append, List.sum_append, ← sound.nextBase_eq_sum] at hfinals
    exact hfinals
  case inside =>
    have hinside := htenable.inside s.id howns
    rw [hsum] at hinside
    rw [hend, Nat.add_sub_cancel_left]
    exact hinside
  case disjoint =>
    intro q t ht htpop hne
    have hother : Owns t.id ledger.shares := (sound.linked.owns_session ht).2 htpop
    have hsum' : sumOf Share.capacity t.id (ledger.shares ++ [⟨some s.id, capacity, count⟩]) =
        sumOf Share.capacity t.id ledger.shares := by
      simp [Ne.symm hne]
    have hapart := htenable.disjoint s.id t.id (Ne.symm hne) howns
      ((owns_append _ _).2 (.inl hother))
    rw [hsum, hsum'] at hapart
    rw [sound.linked.reach_eq sound.laid ht, hend, Nat.add_sub_cancel_left]
    exact hapart

theorem Sound.fits_iff_tenable (sound : ledger.Sound)
    (hs : ledger.registry.session? place = some s) :
    ledger.Fits s capacity count ↔ Tenable (ledger.shares ++ [⟨some s.id, capacity, count⟩]) := by
  refine ⟨fun fits => ?_, sound.fits_of_tenable hs⟩
  have htenable := (sound.append_of_fits hs fits).tenable
  rwa [shares_append, hs] at htenable

end Ledger

end CompactIds
