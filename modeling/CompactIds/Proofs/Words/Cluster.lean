import CompactIds.Proofs.Restore
import CompactIds.Proofs.Words.Checked

/-!
# Clusters in words

A cluster ends at an id, so the sums and differences of its fields are words.
The clusters of a chain are found in the tiling.
-/

namespace CompactIds

open Checked

namespace Cluster

variable {c : Cluster} {generation final : Nat}

structure Bounded (c : Cluster) : Prop where
  baseGeneration_pos : 0 < c.baseGeneration
  capacity_pos : 0 < c.capacity
  count_le : c.count ≤ c.capacity
  generation_le : c.baseGeneration + c.capacity ≤ idLimit
  final_le : c.baseFinal + c.capacity ≤ idLimit

def checkedEndOf (c : Cluster) : Extent → Checked Nat
  | .finalized => addWord c.baseGeneration c.count
  | .reserved => addWord c.baseGeneration c.capacity

def checkedLastGeneration? (c : Cluster) (extent : Extent) : Checked (Option Nat) := do
  let last ← c.checkedEndOf extent
  if c.baseGeneration < last then some <$> localId (← subWord last 1) else pure none

def checkedRemaining (c : Cluster) : Checked Nat :=
  subWord c.capacity c.count

def checkedLastFinal (c : Cluster) : Checked Nat := do
  offsetFinal c.baseFinal (← subWord c.capacity 1)

def checkedCovers (c : Cluster) (extent : Extent) (generation : Nat) : Checked Bool := do
  let last ← c.checkedEndOf extent
  pure (c.baseGeneration ≤ generation && generation < last)

def checkedContainsFinal (c : Cluster) (final : Nat) : Checked Bool := do
  if c.baseFinal ≤ final then
    let last ← c.checkedLastFinal
    pure (final ≤ last)
  else pure false

def checkedFinalOf? (c : Cluster) (generation : Nat) : Checked (Option Nat) := do
  if ← c.checkedCovers .reserved generation then
    some <$> offsetFinal c.baseFinal (← subWord generation c.baseGeneration)
  else pure none

def checkedGenerationOf? (c : Cluster) (final : Nat) : Checked (Option Nat) := do
  if ← c.checkedContainsFinal final then
    let delta ← subWord final c.baseFinal
    some <$> localId (← addWord c.baseGeneration delta)
  else pure none

namespace Bounded

theorem endOf_le (bounded : c.Bounded) (extent : Extent) : c.endOf extent ≤ idLimit := by
  have := bounded.count_le
  have := bounded.generation_le
  cases extent <;> simp only [endOf] <;> omega

@[simp] theorem checkedEndOf_eq (bounded : c.Bounded) (extent : Extent) :
    c.checkedEndOf extent = .ok (c.endOf extent) := by
  cases extent with
  | finalized => exact addWord_of_le (bounded.endOf_le .finalized)
  | reserved => exact addWord_of_le bounded.generation_le

/-- A cluster without bounds traps where its end is not a word. -/
example : (⟨0, 0, idLimit, wordLimit, 1⟩ : Cluster).checkedEndOf .reserved = .error .overflow :=
  rfl

theorem checkedLastGeneration?_eq (bounded : c.Bounded) (extent : Extent) :
    c.checkedLastGeneration? extent = .ok (c.lastGeneration? extent) := by
  have hend := bounded.endOf_le extent
  have hpos := bounded.baseGeneration_pos
  by_cases h : c.baseGeneration < c.endOf extent
  · rw [checkedLastGeneration?, bounded.checkedEndOf_eq, ok_bind, if_pos h,
      subWord_eq (by omega), ok_bind, localId_eq (by omega) (by omega)]
    simp [lastGeneration?, h]
  · simp [checkedLastGeneration?, lastGeneration?, bounded, h]

theorem checkedRemaining_eq (bounded : c.Bounded) : c.checkedRemaining = .ok c.remaining :=
  subWord_eq bounded.count_le

theorem checkedLastFinal_eq (bounded : c.Bounded) : c.checkedLastFinal = .ok c.lastFinal := by
  have hpos := bounded.capacity_pos
  have hle := bounded.final_le
  rw [checkedLastFinal, subWord_eq hpos, ok_bind, offsetFinal_eq (by omega), lastFinal,
    Nat.add_sub_assoc hpos]

theorem checkedCovers_eq (bounded : c.Bounded) (extent : Extent) (generation : Nat) :
    c.checkedCovers extent generation = .ok (c.covers extent generation) := by
  simp [checkedCovers, covers, bounded]

theorem checkedContainsFinal_eq (bounded : c.Bounded) (final : Nat) :
    c.checkedContainsFinal final = .ok (c.containsFinal final) := by
  have hpos := bounded.capacity_pos
  have hlast : final ≤ c.lastFinal ↔ final < c.baseFinal + c.capacity := by
    unfold lastFinal
    omega
  by_cases h : c.baseFinal ≤ final <;>
    simp [checkedContainsFinal, containsFinal, bounded.checkedLastFinal_eq, h, hlast]

theorem checkedFinalOf?_eq (bounded : c.Bounded) (generation : Nat) :
    c.checkedFinalOf? generation = .ok (c.finalOf? generation) := by
  have hle := bounded.final_le
  cases h : c.covers .reserved generation with
  | false => simp [checkedFinalOf?, finalOf?, bounded.checkedCovers_eq, h]
  | true =>
      obtain ⟨hbase, hend⟩ := covers_iff.1 h
      have hfinal : c.baseFinal + (generation - c.baseGeneration) ≤ idLimit := by
        simp only [endOf] at hend
        omega
      simp [checkedFinalOf?, finalOf?, bounded.checkedCovers_eq, h, subWord_eq hbase,
        offsetFinal_eq hfinal]

theorem checkedGenerationOf?_eq (bounded : c.Bounded) (final : Nat) :
    c.checkedGenerationOf? final = .ok (c.generationOf? final) := by
  have hle := bounded.generation_le
  have hpos := bounded.baseGeneration_pos
  cases h : c.containsFinal final with
  | false => simp [checkedGenerationOf?, generationOf?, bounded.checkedContainsFinal_eq, h]
  | true =>
      obtain ⟨hbase, hend⟩ := containsFinal_iff.1 h
      have hgeneration : c.baseGeneration + (final - c.baseFinal) ≤ idLimit := by omega
      simp [checkedGenerationOf?, generationOf?, bounded.checkedContainsFinal_eq, h,
        subWord_eq hbase, addWord_of_le hgeneration, localId_eq (Nat.add_pos_left hpos _)
          hgeneration]

theorem generation_bounds (bounded : c.Bounded) (h : c.generationOf? final = some generation) :
    1 ≤ generation ∧ generation ≤ idLimit := by
  rw [generationOf?_eq_some_iff] at h
  obtain ⟨hcovers, -⟩ := Option.ite_none_right_eq_some.1 h
  obtain ⟨hbase, hend⟩ := covers_iff.1 hcovers
  exact ⟨Nat.le_trans bounded.baseGeneration_pos hbase,
    Nat.le_trans (Nat.le_of_lt hend) (bounded.endOf_le .reserved)⟩

end Bounded

end Cluster

/-! ## The tiling -/

namespace Tiling

variable {tiling : Tiling} {i : Nat} {c : Cluster}

structure Bounded (tiling : Tiling) : Prop where
  cluster : ∀ {i c}, tiling.cluster? i = some c → c.Bounded
  size_le : tiling.size ≤ idLimit

def checkedCluster (tiling : Tiling) (i : Nat) : Checked Cluster :=
  element tiling.clusters i

theorem checkedCluster_eq (h : tiling.cluster? i = some c) : tiling.checkedCluster i = .ok c :=
  element_eq h

def checkedCanGrow (tiling : Tiling) (i : Nat) : Checked Bool := do
  let next ← addWord i 1
  pure (next = tiling.size)

def checkedNextBase (tiling : Tiling) : Checked Nat :=
  match tiling.tail? with
  | some c => offsetFinal c.baseFinal c.capacity
  | none => finalId 0

def checkedLimit (tiling : Tiling) : Checked Nat :=
  match tiling.tail? with
  | some c => offsetFinal c.baseFinal c.count
  | none => finalId 0

def checkedPush (tiling : Tiling) (c : Cluster) : Checked (Tiling × Nat) := do
  let _ ← tiling.checkedNextBase
  let place ← subWord (tiling.push c).size 1
  pure (tiling.push c, place)

def checkedClusterOfFinal? (tiling : Tiling) (final : Nat) : Checked (Option Nat) := do
  match ← lastIndex? (fun c => pure (decide (c.baseFinal ≤ final))) tiling.clusters with
  | none => pure none
  | some i => do
      let c ← tiling.checkedCluster i
      let contained ← c.checkedContainsFinal final
      pure (if contained then some i else none)

theorem exists_of_clusterOfFinal? {final : Nat} (h : tiling.clusterOfFinal? final = some i) :
    ∃ c, tiling.cluster? i = some c := by
  simp only [clusterOfFinal?, Option.bind_eq_bind, Option.bind_eq_some_iff,
    Option.ite_none_right_eq_some, Option.some.injEq] at h
  obtain ⟨i, -, c, hc, -, rfl⟩ := h
  exact ⟨c, hc⟩

namespace Bounded

theorem checkedCanGrow_eq (bounded : tiling.Bounded) (hc : tiling.cluster? i = some c) :
    tiling.checkedCanGrow i = .ok (tiling.canGrow i) := by
  have hi : i + 1 ≤ idLimit := Nat.le_trans (lt_size hc) bounded.size_le
  simp [checkedCanGrow, canGrow, addWord_of_le hi]

theorem tail (bounded : tiling.Bounded) (h : tiling.tail? = some c) : c.Bounded := by
  rw [tail?, Array.back?_eq_getElem?] at h
  exact bounded.cluster h

theorem checkedNextBase_eq (bounded : tiling.Bounded) :
    tiling.checkedNextBase = .ok tiling.nextBase := by
  unfold checkedNextBase nextBase
  cases htail : tiling.tail? with
  | none => rfl
  | some c => exact offsetFinal_eq (bounded.tail htail).final_le

theorem checkedLimit_eq (bounded : tiling.Bounded) : tiling.checkedLimit = .ok tiling.limit := by
  unfold checkedLimit limit
  cases htail : tiling.tail? with
  | none => rfl
  | some c =>
      have hcount := (bounded.tail htail).count_le
      have hfinal := (bounded.tail htail).final_le
      exact offsetFinal_eq (by omega)

theorem checkedPush_eq (bounded : tiling.Bounded) (c : Cluster) :
    tiling.checkedPush c = .ok (tiling.push c, tiling.size) := by
  rw [checkedPush, bounded.checkedNextBase_eq, size_push, subWord_eq (Nat.le_add_left ..)]
  rfl

theorem checkedClusterOfFinal?_eq (bounded : tiling.Bounded) (final : Nat) :
    tiling.checkedClusterOfFinal? final = .ok (tiling.clusterOfFinal? final) := by
  rw [checkedClusterOfFinal?, lastIndex?_pure]
  unfold clusterOfFinal?
  cases hi : Search.lastIndex? (fun c : Cluster => decide (c.baseFinal ≤ final))
    tiling.clusters with
  | none => rfl
  | some i =>
      obtain ⟨c, hc⟩ := exists_cluster (lt_size_of_lastIndex? hi)
      simp [checkedCluster_eq hc, (bounded.cluster hc).checkedContainsFinal_eq, hc]

end Bounded

end Tiling

/-! ## Chains -/

namespace Session

variable {s : Session} {tiling : Tiling} {generation final : Nat}

def Within (s : Session) (tiling : Tiling) : Prop :=
  ∀ i ∈ s.chain, ∃ c, tiling.cluster? i = some c

def checkedTail? (s : Session) (tiling : Tiling) : Checked (Option Cluster) :=
  match s.chain.back? with
  | some i => some <$> tiling.checkedCluster i
  | none => pure none

def checkedEndOf (s : Session) (extent : Extent) (tiling : Tiling) : Checked Nat := do
  match ← s.checkedTail? tiling with
  | some c => c.checkedEndOf extent
  | none => pure 1

/-- A step past the end of the range of positions is meant to go around it. -/
def checkedPositionOf (s : Session) (generation : Nat) : Checked Position := do
  let delta ← subSigned (signed generation) 1
  pure (s.position.offset delta)

def checkedStableIdOf (s : Session) (generation : Nat) : Checked StableId :=
  Position.toStableId <$> s.checkedPositionOf generation

def checkedLastReserved? (s : Session) (tiling : Tiling) : Checked (Option Position) := do
  match ← s.checkedTail? tiling with
  | some c => some <$> s.checkedPositionOf (← subWord (← c.checkedEndOf .reserved) 1)
  | none => pure none

def checkedLookup? (s : Session) (tiling : Tiling) (starts : Cluster → Bool)
    (reaches : Cluster → Checked Bool) : Checked (Option Nat) := do
  match ← lastIndex? (fun i => starts <$> tiling.checkedCluster i) s.chain with
  | none => pure none
  | some k => do
      let i ← element s.chain k
      let reached ← reaches (← tiling.checkedCluster i)
      pure (if reached then some i else none)

def checkedClusterOfGeneration? (s : Session) (extent : Extent) (generation : Nat)
    (tiling : Tiling) : Checked (Option Nat) :=
  s.checkedLookup? tiling (fun c => c.baseGeneration ≤ generation)
    (·.checkedCovers extent generation)

def checkedClusterOfFinal? (s : Session) (final : Nat) (tiling : Tiling) :
    Checked (Option Nat) :=
  s.checkedLookup? tiling (fun c => c.baseFinal ≤ final) (·.checkedContainsFinal final)

def checkedFinalOf? (s : Session) (extent : Extent) (generation : Nat) (tiling : Tiling) :
    Checked (Option Nat) := do
  match ← s.checkedClusterOfGeneration? extent generation tiling with
  | some i => (← tiling.checkedCluster i).checkedFinalOf? generation
  | none => pure none

def checkedGenerationOf? (s : Session) (final : Nat) (tiling : Tiling) :
    Checked (Option Nat) := do
  match ← s.checkedClusterOfFinal? final tiling with
  | some i => (← tiling.checkedCluster i).checkedGenerationOf? final
  | none => pure none

theorem checkedPositionOf_eq (s : Session) (hpos : 1 ≤ generation) (h : generation ≤ idLimit) :
    s.checkedPositionOf generation = .ok (s.positionOf generation) := by
  simp [checkedPositionOf, positionOf, subSigned_signed hpos h]

theorem checkedStableIdOf_eq (s : Session) (hpos : 1 ≤ generation) (h : generation ≤ idLimit) :
    s.checkedStableIdOf generation = .ok (s.stableIdOf generation) := by
  simp [checkedStableIdOf, stableIdOf, checkedPositionOf_eq s hpos h]

theorem exists_of_lookup {found : Option Nat} {reached : Cluster → Bool} {i : Nat}
    (h : (do
      let k ← found
      let i ← s.chain[k]?
      let c ← tiling.cluster? i
      if reached c then some i else none) = some i) : ∃ c, tiling.cluster? i = some c := by
  simp only [Option.bind_eq_bind, Option.bind_eq_some_iff, Option.ite_none_right_eq_some,
    Option.some.injEq] at h
  obtain ⟨k, -, i, -, c, hc, -, rfl⟩ := h
  exact ⟨c, hc⟩

theorem exists_of_clusterOfGeneration? {extent : Extent} {i : Nat}
    (h : s.clusterOfGeneration? extent generation tiling = some i) :
    ∃ c, tiling.cluster? i = some c :=
  exists_of_lookup h

theorem exists_of_clusterOfFinal? {i : Nat} (h : s.clusterOfFinal? final tiling = some i) :
    ∃ c, tiling.cluster? i = some c :=
  exists_of_lookup h

namespace Within

theorem checkedTail?_eq (within : s.Within tiling) :
    s.checkedTail? tiling = .ok (s.tail? tiling) := by
  unfold checkedTail? tail?
  cases hback : s.chain.back? with
  | none => rfl
  | some i =>
      obtain ⟨c, hc⟩ := within i (Array.mem_of_back? hback)
      simp [Tiling.checkedCluster_eq hc, hc]

theorem tail_bounded {c : Cluster} (bounded : tiling.Bounded) (h : s.tail? tiling = some c) :
    c.Bounded := by
  obtain ⟨i, -, hc⟩ := Option.bind_eq_some_iff.1 h
  exact bounded.cluster hc

theorem checkedEndOf_eq (within : s.Within tiling) (bounded : tiling.Bounded)
    (extent : Extent) : s.checkedEndOf extent tiling = .ok (s.endOf extent tiling) := by
  rw [checkedEndOf, within.checkedTail?_eq]
  unfold endOf
  cases htail : s.tail? tiling with
  | none => rfl
  | some c => exact (tail_bounded bounded htail).checkedEndOf_eq extent

theorem checkedLastReserved?_eq (within : s.Within tiling) (bounded : tiling.Bounded) :
    s.checkedLastReserved? tiling = .ok (s.lastReserved? tiling) := by
  rw [checkedLastReserved?, within.checkedTail?_eq]
  unfold lastReserved?
  cases htail : s.tail? tiling with
  | none => rfl
  | some c =>
      have hc := tail_bounded bounded htail
      have hend := hc.endOf_le .reserved
      have hfirst : 2 ≤ c.endOf .reserved :=
        Nat.add_le_add hc.baseGeneration_pos hc.capacity_pos
      simp [hc, subWord_eq (Nat.le_of_succ_le hfirst),
        checkedPositionOf_eq s (show 1 ≤ c.endOf .reserved - 1 by omega) (by omega)]

theorem checkedLookup?_eq (within : s.Within tiling) (bounded : tiling.Bounded)
    {starts reached : Cluster → Bool} {reaches : Cluster → Checked Bool}
    (h : ∀ c : Cluster, c.Bounded → reaches c = .ok (reached c)) :
    s.checkedLookup? tiling starts reaches = .ok (do
      let k ← Search.lastIndex? (fun i => (tiling.cluster? i).any starts) s.chain
      let i ← s.chain[k]?
      let c ← tiling.cluster? i
      if reached c then some i else none) := by
  have hstarts : ∀ i ∈ s.chain,
      (starts <$> tiling.checkedCluster i) = .ok ((tiling.cluster? i).any starts) := by
    intro i hi
    obtain ⟨c, hc⟩ := within i hi
    simp [Tiling.checkedCluster_eq hc, hc]
  rw [checkedLookup?, lastIndex?_eq hstarts]
  cases hk : Search.lastIndex? (fun i => (tiling.cluster? i).any starts) s.chain with
  | none => rfl
  | some k =>
      have hi := Array.getElem?_eq_getElem (lt_size_of_lastIndex? hk)
      obtain ⟨c, hc⟩ := within _ (Array.mem_of_getElem? hi)
      simp [element_eq hi, hi, Tiling.checkedCluster_eq hc, hc, h c (bounded.cluster hc)]

theorem checkedClusterOfGeneration?_eq (within : s.Within tiling) (bounded : tiling.Bounded)
    (extent : Extent) (generation : Nat) :
    s.checkedClusterOfGeneration? extent generation tiling =
      .ok (s.clusterOfGeneration? extent generation tiling) :=
  within.checkedLookup?_eq bounded fun _ hc => hc.checkedCovers_eq extent generation

theorem checkedClusterOfFinal?_eq (within : s.Within tiling) (bounded : tiling.Bounded)
    (final : Nat) :
    s.checkedClusterOfFinal? final tiling = .ok (s.clusterOfFinal? final tiling) :=
  within.checkedLookup?_eq bounded fun _ hc => hc.checkedContainsFinal_eq final

theorem checkedFinalOf?_eq (within : s.Within tiling) (bounded : tiling.Bounded)
    (extent : Extent) (generation : Nat) :
    s.checkedFinalOf? extent generation tiling = .ok (s.finalOf? extent generation tiling) := by
  rw [checkedFinalOf?, within.checkedClusterOfGeneration?_eq bounded]
  unfold finalOf?
  cases hi : s.clusterOfGeneration? extent generation tiling with
  | none => rfl
  | some i =>
      obtain ⟨c, hc⟩ := exists_of_clusterOfGeneration? hi
      simp [Tiling.checkedCluster_eq hc, (bounded.cluster hc).checkedFinalOf?_eq, hc]

theorem checkedGenerationOf?_eq (within : s.Within tiling) (bounded : tiling.Bounded)
    (final : Nat) :
    s.checkedGenerationOf? final tiling = .ok (s.generationOf? final tiling) := by
  rw [checkedGenerationOf?, within.checkedClusterOfFinal?_eq bounded]
  unfold generationOf?
  cases hi : s.clusterOfFinal? final tiling with
  | none => rfl
  | some i =>
      obtain ⟨c, hc⟩ := exists_of_clusterOfFinal? hi
      simp [Tiling.checkedCluster_eq hc, (bounded.cluster hc).checkedGenerationOf?_eq, hc]

end Within

end Session

end CompactIds
