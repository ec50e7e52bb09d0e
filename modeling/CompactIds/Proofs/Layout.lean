import CompactIds.Ledger.Basic
import CompactIds.Proofs.Registry
import Mathlib.Algebra.GroupWithZero.Nat
import Mathlib.Algebra.Order.BigOperators.Group.List

/-!
# How clusters lie

The clusters of a ledger take up the final ids from 0 on without a gap, and
the clusters of each session take up its generations from 1 on.  Both follow
from the capacities in front of a cluster.
-/

namespace CompactIds

def room : List Cluster → Nat
  | [] => 0
  | c :: cs => c.capacity + room cs

def ownedBy (place : Nat) (clusters : List Cluster) : List Cluster :=
  clusters.filter fun c => c.session = place

@[simp] theorem room_nil : room [] = 0 := rfl

@[simp] theorem room_append (cs ds : List Cluster) : room (cs ++ ds) = room cs + room ds := by
  induction cs with
  | nil => simp [room]
  | cons c cs ih => simp [room, ih, Nat.add_assoc]

@[simp] theorem room_singleton (c : Cluster) : room [c] = c.capacity := rfl

theorem room_eq_sum (clusters : List Cluster) :
    room clusters = (clusters.map Cluster.capacity).sum := by
  induction clusters with
  | nil => rfl
  | cons c cs ih => rw [room, ih, List.map_cons, List.sum_cons]

theorem room_mono {cs ds : List Cluster} (h : cs <+: ds) : room cs ≤ room ds := by
  obtain ⟨es, rfl⟩ := h
  rw [room_append]
  exact Nat.le_add_right _ _

@[simp] theorem ownedBy_append (place : Nat) (cs ds : List Cluster) :
    ownedBy place (cs ++ ds) = ownedBy place cs ++ ownedBy place ds :=
  List.filter_append ..

theorem ownedBy_singleton (place : Nat) (c : Cluster) :
    ownedBy place [c] = if c.session = place then [c] else [] := by
  by_cases h : c.session = place <;> simp [ownedBy, h]

theorem ownedBy_mono {cs ds : List Cluster} (place : Nat) (h : cs <+: ds) :
    ownedBy place cs <+: ownedBy place ds :=
  h.filter _

namespace Tiling

variable {tiling : Tiling} {i j k f g place : Nat} {c d : Cluster}

def before (tiling : Tiling) (i : Nat) : List Cluster :=
  tiling.clusters.toList.take i

theorem lt_size (h : tiling.cluster? i = some c) : i < tiling.size :=
  (Array.getElem?_eq_some_iff.1 h).1

theorem exists_cluster (h : i < tiling.size) : ∃ c, tiling.cluster? i = some c :=
  ⟨_, Array.getElem?_eq_getElem h⟩

theorem exists_last (h : 0 < tiling.size) :
    ∃ n c, n + 1 = tiling.size ∧ tiling.cluster? n = some c := by
  obtain ⟨n, hlast⟩ := Nat.exists_eq_add_one_of_ne_zero (Nat.ne_of_gt h)
  obtain ⟨c, hc⟩ := exists_cluster (show n < tiling.size by omega)
  exact ⟨n, c, hlast.symm, hc⟩

@[simp] theorem before_zero : tiling.before 0 = [] := rfl

@[simp] theorem before_size : tiling.before tiling.size = tiling.clusters.toList :=
  List.take_of_length_le (Nat.le_of_eq Array.length_toList)

theorem before_succ (h : tiling.cluster? i = some c) :
    tiling.before (i + 1) = tiling.before i ++ [c] := by
  unfold before
  rw [List.take_add_one, Array.getElem?_toList]
  change tiling.clusters[i]? = some c at h
  rw [h]
  rfl

theorem before_succ_of_none (h : tiling.cluster? i = none) :
    tiling.before (i + 1) = tiling.before i := by
  unfold before
  rw [List.take_add_one, Array.getElem?_toList]
  change tiling.clusters[i]? = none at h
  rw [h]
  exact List.append_nil _

theorem before_mono (tiling : Tiling) (h : i ≤ j) : tiling.before i <+: tiling.before j :=
  List.take_prefix_take_left h

theorem before_isPrefix : tiling.before i <+: tiling.clusters.toList :=
  List.take_prefix ..

theorem room_before_le (h : tiling.cluster? i = some c) (hij : i < j) :
    room (tiling.before i) + c.capacity ≤ room (tiling.before j) := by
  have := room_mono (before_mono tiling (Nat.succ_le_of_lt hij))
  rwa [before_succ h, room_append, room_singleton] at this

theorem room_ownedBy_before_le (h : tiling.cluster? i = some c) (hij : i < j) :
    room (ownedBy c.session (tiling.before i)) + c.capacity ≤
      room (ownedBy c.session (tiling.before j)) := by
  have := room_mono
    (ownedBy_mono c.session (before_mono tiling (Nat.succ_le_of_lt hij)))
  rwa [before_succ h, ownedBy_append, ownedBy_singleton, if_pos rfl, room_append,
    room_singleton] at this

theorem mem_clusters_iff :
    c ∈ tiling.clusters.toList ↔ ∃ i, tiling.cluster? i = some c := by
  rw [Array.mem_toList_iff, Array.mem_iff_getElem?]
  rfl

theorem exists_of_mem_before (h : c ∈ tiling.before i) :
    ∃ j, j < i ∧ tiling.cluster? j = some c := by
  obtain ⟨j, hj⟩ := List.mem_iff_getElem?.1 h
  rw [before, List.getElem?_take] at hj
  split at hj
  · rename_i hji
    exact ⟨j, hji, by rwa [Array.getElem?_toList] at hj⟩
  · cases hj

theorem ownedBy_before_eq (hij : i ≤ j)
    (h : ∀ k d, i ≤ k → k < j → tiling.cluster? k = some d → d.session ≠ place) :
    ownedBy place (tiling.before j) = ownedBy place (tiling.before i) := by
  induction j, hij using Nat.le_induction with
  | base => rfl
  | succ j hij ih =>
      have hprev := ih fun k d hik hkj => h k d hik (Nat.lt_succ_of_lt hkj)
      cases hd : tiling.cluster? j with
      | none => rw [before_succ_of_none hd, hprev]
      | some d =>
          have hne := h j d hij (Nat.lt_succ_self j) hd
          rw [before_succ hd, ownedBy_append, ownedBy_singleton, if_neg hne, List.append_nil,
            hprev]

structure Laid (tiling : Tiling) : Prop where
  baseFinal : ∀ {i c}, tiling.cluster? i = some c → c.baseFinal = room (tiling.before i)
  baseGeneration : ∀ {i c}, tiling.cluster? i = some c →
    c.baseGeneration = 1 + room (ownedBy c.session (tiling.before i))
  count_pos : ∀ {i c}, tiling.cluster? i = some c → 0 < c.count
  count_le : ∀ {i c}, tiling.cluster? i = some c → c.count ≤ c.capacity
  /-- Only the last cluster of a session has a reserve. -/
  full : ∀ {i j c d}, tiling.cluster? i = some c → tiling.cluster? j = some d → i < j →
    c.session = d.session → c.count = c.capacity

theorem laid_empty : empty.Laid := by
  constructor <;> simp [empty, cluster?]

theorem tail?_eq (h : tiling.cluster? i = some c) (hlast : i + 1 = tiling.size) :
    tiling.tail? = some c := by
  unfold tail?
  rw [Array.back?_eq_getElem?]
  change tiling.clusters[tiling.size - 1]? = some c
  rw [← hlast]
  exact h

theorem nextBase_of_tail (h : tiling.cluster? i = some c) (hlast : i + 1 = tiling.size) :
    tiling.nextBase = c.baseFinal + c.capacity := by
  simp [nextBase, tail?_eq h hlast]

theorem limit_of_tail (h : tiling.cluster? i = some c) (hlast : i + 1 = tiling.size) :
    tiling.limit = c.baseFinal + c.count := by
  simp [limit, tail?_eq h hlast]

namespace Laid

theorem nextBase_eq (laid : tiling.Laid) : tiling.nextBase = room tiling.clusters.toList := by
  rcases Nat.eq_zero_or_pos tiling.size with hzero | hpos
  · have hnil : tiling.clusters = #[] := Array.size_eq_zero_iff.1 hzero
    simp [nextBase, tail?, hnil]
  · obtain ⟨n, c, hlast, hc⟩ := exists_last hpos
    rw [nextBase_of_tail hc hlast, laid.baseFinal hc, ← before_size, ← hlast, before_succ hc,
      room_append, room_singleton]

theorem capacity_pos (laid : tiling.Laid) (h : tiling.cluster? i = some c) : 0 < c.capacity :=
  Nat.lt_of_lt_of_le (laid.count_pos h) (laid.count_le h)

theorem final_lt (laid : tiling.Laid) (hc : tiling.cluster? i = some c)
    (hd : tiling.cluster? j = some d) (hij : i < j) :
    c.baseFinal + c.capacity ≤ d.baseFinal := by
  rw [laid.baseFinal hc, laid.baseFinal hd]
  exact room_before_le hc hij

theorem generation_lt (laid : tiling.Laid) (hc : tiling.cluster? i = some c)
    (hd : tiling.cluster? j = some d) (hij : i < j) (hs : c.session = d.session) :
    c.endOf .reserved ≤ d.baseGeneration := by
  have := room_ownedBy_before_le hc hij
  rw [laid.baseGeneration hd, ← hs, Cluster.endOf, laid.baseGeneration hc]
  omega

theorem endOf_le (laid : tiling.Laid) (hc : tiling.cluster? i = some c) (extent : Extent) :
    c.endOf extent ≤ c.endOf .reserved := by
  have := laid.count_le hc
  cases extent <;> simp only [Cluster.endOf] <;> omega

theorem containsFinal_of_covers (laid : tiling.Laid) (hc : tiling.cluster? i = some c)
    {extent : Extent} (h : c.covers extent g = true) :
    c.containsFinal (c.baseFinal + (g - c.baseGeneration)) = true := by
  obtain ⟨hbase, hend⟩ := Cluster.covers_iff.1 h
  have hreserved := Nat.lt_of_lt_of_le hend (laid.endOf_le hc extent)
  simp only [Cluster.containsFinal_iff, Cluster.endOf] at *
  omega

theorem eq_of_containsFinal (laid : tiling.Laid) (hc : tiling.cluster? i = some c)
    (hd : tiling.cluster? j = some d) (hcf : c.containsFinal f) (hdf : d.containsFinal f) :
    i = j := by
  rw [Cluster.containsFinal_iff] at hcf hdf
  rcases Nat.lt_trichotomy i j with hij | hij | hij
  · have := laid.final_lt hc hd hij
    omega
  · exact hij
  · have := laid.final_lt hd hc hij
    omega

theorem baseFinal_add_capacity_le (laid : tiling.Laid) (hc : tiling.cluster? i = some c) :
    c.baseFinal + c.capacity ≤ tiling.nextBase := by
  rw [laid.nextBase_eq, laid.baseFinal hc, ← before_size]
  exact room_before_le hc (lt_size hc)

theorem lt_limit (laid : tiling.Laid) (hc : tiling.cluster? i = some c)
    (hf : f < c.baseFinal + c.count) : f < tiling.limit := by
  have hi := lt_size hc
  obtain ⟨n, d, hlast, hd⟩ := exists_last (Nat.zero_lt_of_lt hi)
  rw [limit_of_tail hd hlast]
  rcases Nat.lt_or_eq_of_le (show i ≤ n by omega) with hlt | rfl
  · have := laid.final_lt hc hd hlt
    have := laid.count_le hc
    omega
  · rw [hc] at hd
    cases hd
    exact hf

theorem exists_covers (laid : tiling.Laid) (hpos : 1 ≤ g)
    (hg : g < 1 + room (ownedBy place (tiling.before k))) :
    ∃ i c, i < k ∧ tiling.cluster? i = some c ∧ c.session = place ∧ c.covers .reserved g := by
  induction k with
  | zero =>
      simp only [before_zero, ownedBy, List.filter_nil, room_nil] at hg
      omega
  | succ k ih =>
      by_cases hprev : g < 1 + room (ownedBy place (tiling.before k))
      · obtain ⟨i, c, hik, h⟩ := ih hprev
        exact ⟨i, c, Nat.lt_succ_of_lt hik, h⟩
      · cases hc : tiling.cluster? k with
        | none =>
            rw [before_succ_of_none hc] at hg
            exact absurd hg hprev
        | some c =>
            rw [before_succ hc, ownedBy_append, ownedBy_singleton] at hg
            by_cases hs : c.session = place
            · rw [if_pos hs, room_append, room_singleton] at hg
              have hbase := laid.baseGeneration hc
              rw [hs] at hbase
              refine ⟨k, c, Nat.lt_succ_self k, hc, hs, ?_⟩
              rw [Cluster.covers_iff, Cluster.endOf]
              omega
            · rw [if_neg hs, List.append_nil] at hg
              exact absurd hg hprev

end Laid

end Tiling

end CompactIds
