import CompactIds.Proofs.Words.Cluster

/-!
# The registry in words

What the index holds are places of sessions.  Positions have 122 bits, so a span
of them that starts at a position ends within 128 bits, and their differences
stay within 128 bits with a sign.
-/

namespace CompactIds

open Checked

namespace Position

def checkedAbove? (p base : Position) : Checked (Option Nat) := do
  let distance ← subWideSigned p.val base.val
  pure (if 0 ≤ distance ∧ distance < idLimit then some distance.toNat else none)

theorem checkedAbove?_eq (p base : Position) : p.checkedAbove? base = .ok (p.above? base) := by
  have hp := p.isLt
  have hbase := base.isLt
  have hsub : subWideSigned p.val base.val = .ok ((p.val : Int) - base.val) :=
    if_pos (by simp only [Nat.reduceShiftLeft] at *; omega)
  by_cases h : base.val ≤ p.val ∧ p.val - base.val < idLimit
  · have hdistance : 0 ≤ (p.val : Int) - base.val ∧ (p.val : Int) - base.val < idLimit := by
      omega
    have hnat : ((p.val : Int) - base.val).toNat = p.val - base.val := by omega
    rw [checkedAbove?, hsub, ok_bind, if_pos hdistance, above?, if_pos h, hnat, pure_eq]
  · have hdistance : ¬ (0 ≤ (p.val : Int) - base.val ∧ (p.val : Int) - base.val < idLimit) := by
      omega
    rw [checkedAbove?, hsub, ok_bind, if_neg hdistance, above?, if_neg h, pure_eq]

theorem above?_lt {p base : Position} {distance : Nat} (h : p.above? base = some distance) :
    distance < idLimit := by
  obtain ⟨hlt, hdistance⟩ := Option.ite_none_right_eq_some.1 h
  cases hdistance
  exact hlt.2

theorem ofNat_val (p : Position) : ofNat p.val = p :=
  Position.ext (Nat.mod_eq_of_lt p.isLt)

end Position

theorem PositionIndex.exists_of_mem_upTo {index : PositionIndex} {p : Position} {place : Nat}
    (h : place ∈ index.upTo p) : ∃ q, index.find? q = some place := by
  obtain ⟨⟨q, place⟩, hentry, rfl⟩ := List.mem_map.1 h
  exact ⟨q, find?_eq_some_iff.2 ((List.dropWhile_sublist _).subset hentry)⟩

namespace Registry

variable {registry : Registry} {tiling : Tiling} {place : Nat} {s : Session} {p : Position}

structure Bounded (registry : Registry) (tiling : Tiling) : Prop where
  clusters : tiling.Bounded
  indexed : registry.Indexed
  within : ∀ {place s}, registry.session? place = some s → s.Within tiling

def checkedSession (registry : Registry) (place : Nat) : Checked Session :=
  element registry.sessions place

theorem checkedSession_eq (h : registry.session? place = some s) :
    registry.checkedSession place = .ok s :=
  element_eq h

def checkedOwnerBelow? (registry : Registry) (p : Position) : Checked (Option Nat) :=
  Checked.find? (fun place => Session.isPopulated <$> registry.checkedSession place)
    (registry.index.upTo p)

def checkedClusterAt? (registry : Registry) (p : Position) (tiling : Tiling) :
    Checked (Option (Nat × Nat)) := do
  match ← registry.checkedOwnerBelow? p with
  | none => pure none
  | some place => do
      let s ← registry.checkedSession place
      match ← p.checkedAbove? s.position with
      | none => pure none
      | some distance => do
          let next ← addWord distance 1
          if next < (← s.checkedEndOf .reserved tiling) then
            let generation ← localId (← addWord distance 1)
            let i ← s.checkedClusterOfGeneration? .reserved generation tiling
            pure (i.map fun i => (i, generation))
          else pure none

def checkedReservedBy? (registry : Registry) (owner : SessionId) (tiling : Tiling)
    (place : Nat) : Checked (Option (SessionId × Position)) := do
  let s ← registry.checkedSession place
  if s.id = owner then pure none
  else
    let last ← s.checkedLastReserved? tiling
    pure (last.map fun last => (s.id, last))

def checkedCollision? (registry : Registry) (owner : SessionId) (base : Position)
    (length : Nat) (tiling : Tiling) : Checked (Option SessionId) := do
  let top ← subWord (← addWide base.val length) 1
  if Position.last.val < top then pure (some owner)
  else
    match ← findSome? (registry.checkedReservedBy? owner tiling)
        (registry.index.upTo (.ofNat top)) with
    | some (other, last) => pure (if base ≤ last then some other else none)
    | none => pure none

namespace Bounded

theorem exists_session (bounded : registry.Bounded tiling)
    (h : place ∈ registry.index.upTo p) : ∃ s, registry.session? place = some s := by
  obtain ⟨q, hfind⟩ := PositionIndex.exists_of_mem_upTo h
  obtain ⟨s, hs, -⟩ := (bounded.indexed q place).1 hfind
  exact ⟨s, hs⟩

theorem checkedOwnerBelow?_eq (bounded : registry.Bounded tiling) (p : Position) :
    registry.checkedOwnerBelow? p = .ok (registry.ownerBelow? p) := by
  apply find?_eq
  intro place hplace
  obtain ⟨s, hs⟩ := bounded.exists_session hplace
  simp [checkedSession_eq hs, hs]

theorem checkedClusterAt?_eq (bounded : registry.Bounded tiling) (p : Position) :
    registry.checkedClusterAt? p tiling = .ok (registry.clusterAt? p tiling) := by
  rw [checkedClusterAt?, bounded.checkedOwnerBelow?_eq]
  unfold clusterAt?
  cases howner : registry.ownerBelow? p with
  | none => rfl
  | some place =>
      obtain ⟨s, hs⟩ := bounded.exists_session (List.mem_of_find?_eq_some howner)
      have within := bounded.within hs
      cases hdistance : p.above? s.position with
      | none => simp [checkedSession_eq hs, hs, Position.checkedAbove?_eq, hdistance]
      | some distance =>
          have hlt : distance + 1 ≤ idLimit := Position.above?_lt hdistance
          simp only [checkedSession_eq hs, hs, Position.checkedAbove?_eq, hdistance, ok_bind,
            addWord_of_le hlt, localId_eq (Nat.succ_pos distance) hlt,
            within.checkedEndOf_eq bounded.clusters,
            within.checkedClusterOfGeneration?_eq bounded.clusters, Option.bind_eq_bind,
            Option.bind_some]
          split
          · cases s.clusterOfGeneration? .reserved (distance + 1) tiling <;> rfl
          · rfl

theorem checkedReservedBy?_eq (bounded : registry.Bounded tiling)
    (hs : registry.session? place = some s) (owner : SessionId) :
    registry.checkedReservedBy? owner tiling place =
      .ok (registry.reservedBy? owner tiling place) := by
  by_cases hid : s.id = owner
  · simp [checkedReservedBy?, reservedBy?, checkedSession_eq hs, hs, hid]
  · cases hlast : s.lastReserved? tiling <;>
      simp [checkedReservedBy?, reservedBy?, checkedSession_eq hs, hs, hid, hlast,
        (bounded.within hs).checkedLastReserved?_eq bounded.clusters]

theorem checkedCollision?_eq (bounded : registry.Bounded tiling) (owner : SessionId)
    (base : Position) {length : Nat} (hpos : 0 < length) (hlength : length < wordLimit) :
    registry.checkedCollision? owner base length tiling =
      .ok (registry.collision? owner base length tiling) := by
  have hbase := base.isLt
  have hwide : base.val + length < wideLimit := by
    simp only [wideLimit, wordLimit, Nat.reduceShiftLeft] at *
    omega
  rw [checkedCollision?, addWide_eq hwide, ok_bind, subWord_eq (by omega), ok_bind]
  unfold collision?
  cases htop : base.lastOf? length with
  | none =>
      have hlarge : Position.last.val < base.val + length - 1 := by
        unfold Position.lastOf? at htop
        split at htop
        · cases htop
        · simp only [Position.last] at *
          omega
      rw [if_pos hlarge, pure_eq]
  | some top =>
      -- The last position is inside the range, so nothing of it is masked.
      have hval : base.val + length - 1 = top.val := by
        unfold Position.lastOf? at htop
        split at htop
        · cases htop
          rfl
        · cases htop
      have hsmall : ¬ Position.last.val < top.val :=
        Nat.not_lt.2 (Nat.le_sub_one_of_lt top.isLt)
      have hscan : findSome? (registry.checkedReservedBy? owner tiling)
          (registry.index.upTo top) = .ok (registry.nearestOther? owner top tiling) := by
        apply findSome?_eq
        intro place hplace
        obtain ⟨s, hs⟩ := bounded.exists_session hplace
        exact bounded.checkedReservedBy?_eq hs owner
      rw [hval, if_neg hsmall, Position.ofNat_val, hscan]
      cases hother : registry.nearestOther? owner top tiling <;> simp [hother]

end Bounded

end Registry

namespace Ledger

variable {ledger : Ledger}

theorem Sound.bounded (sound : ledger.Sound) : ledger.registry.Bounded ledger.tiling where
  clusters := by
    refine ⟨fun {i c} hc => ?_, sound.size_le⟩
    have hbase := sound.laid.baseGeneration hc
    exact ⟨by omega, sound.laid.capacity_pos hc, sound.laid.count_le hc, sound.endOf_le hc,
      Nat.le_trans (sound.laid.baseFinal_add_capacity_le hc) sound.nextBase_le⟩
  indexed := sound.linked.indexed
  within := by
    intro place s hs i hi
    obtain ⟨c, hc, -⟩ := (sound.linked.mem_chain hs i).1 hi
    exact ⟨c, hc⟩

def checkedFinalOf? (ledger : Ledger) (session : SessionId) (extent : Extent)
    (generation : Nat) : Checked (Option Nat) := do
  match ledger.registry.find? session with
  | none => pure none
  | some place => do
      let s ← ledger.registry.checkedSession place
      s.checkedFinalOf? extent generation ledger.tiling

theorem Sound.checkedFinalOf?_eq (sound : ledger.Sound) (session : SessionId) (extent : Extent)
    (generation : Nat) :
    ledger.checkedFinalOf? session extent generation =
      .ok (ledger.finalOf? session extent generation) := by
  unfold checkedFinalOf? finalOf?
  cases hfind : ledger.registry.find? session with
  | none => rfl
  | some place =>
      obtain ⟨s, hs, -⟩ := sound.linked.indexed.session?_of_find? hfind
      simp [Registry.checkedSession_eq hs, hs,
        (sound.bounded.within hs).checkedFinalOf?_eq sound.bounded.clusters]

end Ledger

end CompactIds
