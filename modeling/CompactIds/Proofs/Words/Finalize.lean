import CompactIds.Proofs.Finalize
import CompactIds.Proofs.Words.Registry

/-!
# Finalizing in words

Some sums are formed before the test that bounds them.  They stay words because
of what was judged already: a range continues the finalized part of its session
and ends at an id, so what exceeds the reserve ends at an id as well.
-/

namespace CompactIds

open Checked

/-- How a range is applied to the chain of its session. -/
inductive Allocation where
  | extend (tail : Nat)
  | grow (tail additional : Nat)
  | overflow (tail base capacity count : Nat)
  | first (capacity : Nat)
  deriving DecidableEq, Repr

theorem Tiling.modify_push (tiling : Tiling) (c : Cluster) (f : Cluster → Cluster) :
    (tiling.push c).modify tiling.size f = tiling.push (f c) := by
  simp only [Tiling.modify, Tiling.push, Tiling.mk.injEq]
  apply Array.ext_getElem?
  intro i
  simp only [Array.getElem?_modify, Array.getElem?_push]
  by_cases h : tiling.clusters.size = i
  · simp [Tiling.size, h]
  · simp [Tiling.size, h, Ne.symm h]

theorem Tiling.modify_congr {tiling : Tiling} {i : Nat} {c : Cluster} {f g : Cluster → Cluster}
    (hc : tiling.cluster? i = some c) (h : f c = g c) : tiling.modify i f = tiling.modify i g := by
  simp only [Tiling.modify, Tiling.mk.injEq]
  apply Array.ext_getElem?
  intro j
  rw [Array.getElem?_modify, Array.getElem?_modify]
  split
  · rename_i hij
    subst hij
    change tiling.clusters[i]? = some c at hc
    simp [hc, h]
  · rfl

namespace Ledger

variable {ledger : Ledger} {id : SessionId} {place i first room count base capacity : Nat}
  {c : Cluster} {s : Session}

def checkedTailPlace? (ledger : Ledger) (session : SessionId) : Checked (Option Nat) :=
  match ledger.registry.find? session with
  | none => pure none
  | some place => (·.chain.back?) <$> ledger.registry.checkedSession place

def checkedExpected (ledger : Ledger) : Option Nat → Checked Nat
  | none => pure 1
  | some i => do (← ledger.tiling.checkedCluster i).checkedEndOf .finalized

def checkedPlan (ledger : Ledger) (tail : Option Nat) (count : Nat) : Checked Allocation := do
  match tail with
  | none => .first <$> addWord ledger.capacity count
  | some i =>
      let c ← ledger.tiling.checkedCluster i
      let remaining ← c.checkedRemaining
      if count ≤ remaining then pure (.extend i)
      else
        let surplus ← subWord count remaining
        if ← ledger.tiling.checkedCanGrow i then
          .grow i <$> addWord ledger.capacity surplus
        else
          let base ← c.checkedEndOf .reserved
          let capacity ← addWord ledger.capacity surplus
          pure (.overflow i base capacity surplus)

def checkedRoomRefusal? (ledger : Ledger) (session : SessionId) (first room : Nat) :
    Checked (Option Fault) := do
  let length ← addWord (← subWord first 1) room
  if !fitsId length 1 then pure (some (.malformedRange session .noRoom))
  else if !fitsId (← ledger.tiling.checkedNextBase) room then
    pure (some (.malformedRange session .noRoom))
  else
    let other ← ledger.registry.checkedCollision? session session.position length ledger.tiling
    pure (other.map (.collision session))

def checkedRefusal? (ledger : Ledger) (session : SessionId) :
    Allocation → Checked (Option Fault)
  | .extend _ => pure none
  | .grow i additional => do
      let first ← (← ledger.tiling.checkedCluster i).checkedEndOf .reserved
      ledger.checkedRoomRefusal? session first additional
  | .overflow _ base capacity _ => ledger.checkedRoomRefusal? session base capacity
  | .first capacity => ledger.checkedRoomRefusal? session 1 capacity

def checkedModify (ledger : Ledger) (i : Nat) (f : Cluster → Checked Cluster) :
    Checked Ledger := do
  let c ← f (← ledger.tiling.checkedCluster i)
  pure (ledger.modifyCluster i fun _ => c)

/-- A new cluster counts no ids before it is in its place. -/
def checkedAppend (ledger : Ledger) (place base capacity count : Nat) : Checked Ledger := do
  let baseFinal ← ledger.tiling.checkedNextBase
  let baseGeneration ← localId base
  let (tiling, i) ← ledger.tiling.checkedPush ⟨place, baseFinal, baseGeneration, capacity, 0⟩
  let _ ← ledger.registry.checkedSession place
  let appended : Ledger := ⟨ledger.capacity, ledger.registry.link place i, tiling⟩
  appended.checkedModify i fun c => pure { c with count }

def checkedApply (ledger : Ledger) (session : SessionId) (allocation : Allocation)
    (count : Nat) : Checked Ledger :=
  match allocation with
  | .extend i => ledger.checkedModify i fun c => do
      pure { c with count := ← addWord c.count count }
  | .grow i additional => ledger.checkedModify i fun c => do
      let capacity ← addWord c.capacity additional
      let count ← addWord c.count count
      pure { c with capacity, count }
  | .overflow i base capacity surplus => do
      let place := (← ledger.tiling.checkedCluster i).session
      let filled ← ledger.checkedModify i fun c => pure c.fillUp
      filled.checkedAppend place base capacity surplus
  | .first capacity =>
      let (registry, place) := ledger.registry.register session
      { ledger with registry }.checkedAppend place 1 capacity count

def checkedFinalize (ledger : Ledger) (range : CreationRange) :
    Checked (Except Fault Ledger) := do
  match range.ids with
  | none => pure (.ok ledger)
  | some ids =>
      if ids.count = 0 then pure (.error (.malformedRange range.session .noIds))
      else if ids.first = 0 then pure (.error (.malformedRange range.session .generationZero))
      else if !fitsId ids.first ids.count then
        pure (.error (.malformedRange range.session .generationsTooLarge))
      else
        let tail ← ledger.checkedTailPlace? range.session
        let expected ← ledger.checkedExpected tail
        if ids.first ≠ expected then
          pure (.error (.outOfOrder range.session expected ids.first))
        else
          let allocation ← ledger.checkedPlan tail ids.count
          match ← ledger.checkedRefusal? range.session allocation with
          | some fault => pure (.error fault)
          | none => .ok <$> ledger.checkedApply range.session allocation ids.count

/-! ## What is allocated -/

def plan (ledger : Ledger) (session : SessionId) (count : Nat) : Allocation :=
  match ledger.tailPlace? session with
  | none => .first (ledger.capacity + count)
  | some i =>
      if count ≤ ledger.reserve session then .extend i
      else if ledger.tiling.canGrow i then .grow i (ledger.roomFor session count)
      else .overflow i (ledger.endOf session .reserved) (ledger.roomFor session count)
        (count - ledger.reserve session)

theorem Sound.endOf_add_roomFor_le (sound : ledger.Sound)
    (h : ledger.endOf id .finalized + count ≤ idLimit) (hexceeds : ledger.reserve id < count) :
    ledger.endOf id .reserved + ledger.roomFor id count ≤ idLimit + largestCapacity := by
  have hcapacity := sound.capacity.2
  unfold roomFor
  cases hplace : ledger.tailPlace? id with
  | none =>
      simp only [endOf_of_tailPlace?_none hplace, reserve_of_tailPlace?_none hplace] at *
      omega
  | some i =>
      obtain ⟨c, tail⟩ := sound.linked.tailPlace?_eq_some_iff.1 hplace
      have hcount := sound.laid.count_le tail.cluster
      -- The reserved end and the surplus together are the finalized end and the range.
      simp only [sound.linked.endOf_of_tailOf tail, sound.linked.reserve_of_tailOf tail,
        Cluster.endOf, Cluster.remaining] at *
      omega

namespace Sound

theorem roomFor_pos (sound : ledger.Sound) (id : SessionId) (count : Nat) :
    0 < ledger.roomFor id count :=
  Nat.add_pos_left sound.capacity.1 _

theorem checkedTailPlace?_eq (sound : ledger.Sound) (id : SessionId) :
    ledger.checkedTailPlace? id = .ok (ledger.tailPlace? id) := by
  unfold checkedTailPlace? tailPlace?
  cases hfind : ledger.registry.find? id with
  | none => rfl
  | some place =>
      obtain ⟨s, hs, -⟩ := sound.linked.indexed.session?_of_find? hfind
      simp [Registry.checkedSession_eq hs, hs]

theorem checkedExpected_eq (sound : ledger.Sound) (id : SessionId) :
    ledger.checkedExpected (ledger.tailPlace? id) = .ok (ledger.endOf id .finalized) := by
  cases hplace : ledger.tailPlace? id with
  | none => rw [checkedExpected, endOf_of_tailPlace?_none hplace, pure_eq]
  | some i =>
      obtain ⟨c, tail⟩ := sound.linked.tailPlace?_eq_some_iff.1 hplace
      simp [checkedExpected, Tiling.checkedCluster_eq tail.cluster,
        sound.linked.endOf_of_tailOf tail, sound.bounded.clusters.cluster tail.cluster]

theorem checkedPlan_eq (sound : ledger.Sound)
    (h : ledger.endOf id .finalized + count ≤ idLimit) :
    ledger.checkedPlan (ledger.tailPlace? id) count = .ok (ledger.plan id count) := by
  have hroom : ledger.capacity + count < wordLimit := by
    have := sound.capacity.2
    simp only [largestCapacity, idLimit, wordLimit] at *
    omega
  unfold plan
  cases hplace : ledger.tailPlace? id with
  | none => simp [checkedPlan, addWord_eq hroom]
  | some i =>
      obtain ⟨c, tail⟩ := sound.linked.tailPlace?_eq_some_iff.1 hplace
      have bounded := sound.bounded.clusters.cluster tail.cluster
      have hreserve := sound.linked.reserve_of_tailOf tail
      simp only [checkedPlan, Tiling.checkedCluster_eq tail.cluster, ok_bind,
        bounded.checkedRemaining_eq, hreserve, roomFor,
        sound.linked.endOf_of_tailOf tail]
      by_cases hfits : count ≤ c.remaining
      · rw [if_pos hfits, if_pos hfits, pure_eq]
      · have hsurplus : ledger.capacity + (count - c.remaining) < wordLimit := by omega
        rw [if_neg hfits, if_neg hfits, subWord_eq (by omega), ok_bind,
          sound.bounded.clusters.checkedCanGrow_eq tail.cluster, ok_bind]
        cases ledger.tiling.canGrow i <;> simp [addWord_eq hsurplus, bounded]

/-- The length of the span is formed before its end is known to be an id. -/
theorem checkedRoomRefusal?_eq (sound : ledger.Sound) (hroom : 0 < room)
    (h : ledger.endOf id .reserved + room ≤ idLimit + largestCapacity) :
    ledger.checkedRoomRefusal? id (ledger.endOf id .reserved) room =
      .ok (ledger.roomRefusal? id room) := by
  have hpos := sound.linked.endOf_pos sound.laid id .reserved
  have hlength : ledger.endOf id .reserved - 1 + room < wordLimit := by
    simp only [largestCapacity, idLimit, wordLimit] at *
    omega
  have hlast : ledger.endOf id .reserved - 1 + room + 1 = ledger.endOf id .reserved + room := by
    omega
  rw [checkedRoomRefusal?, subWord_eq hpos, ok_bind, addWord_eq hlength, ok_bind, fitsId_eq,
    hlast]
  unfold roomRefusal?
  by_cases hgenerations : idLimit < ledger.endOf id .reserved + room
  · simp [hgenerations]
  · by_cases hfinals : idLimit < ledger.tiling.nextBase + room <;>
      simp [hgenerations, hfinals, sound.bounded.clusters.checkedNextBase_eq,
        sound.bounded.checkedCollision?_eq id id.position (by omega) hlength]

theorem checkedRefusal?_eq (sound : ledger.Sound) (hcount : 0 < count)
    (h : ledger.endOf id .finalized + count ≤ idLimit) :
    ledger.checkedRefusal? id (ledger.plan id count) =
      .ok (if count ≤ ledger.reserve id then none
        else ledger.roomRefusal? id (ledger.roomFor id count)) := by
  by_cases hfits : count ≤ ledger.reserve id
  · unfold plan
    cases hplace : ledger.tailPlace? id with
    | none =>
        -- Without clusters there is no reserve that a range could fit.
        rw [reserve_of_tailPlace?_none hplace] at hfits
        omega
    | some i => simp [hfits, checkedRefusal?]
  · have hexceeds := Nat.lt_of_not_le hfits
    have hrefusal := sound.checkedRoomRefusal?_eq (sound.roomFor_pos id count)
      (sound.endOf_add_roomFor_le h hexceeds)
    rw [if_neg hfits, ← hrefusal]
    unfold plan
    cases hplace : ledger.tailPlace? id with
    | none =>
        simp [checkedRefusal?, roomFor, endOf_of_tailPlace?_none hplace,
          reserve_of_tailPlace?_none hplace]
    | some i =>
        obtain ⟨c, tail⟩ := sound.linked.tailPlace?_eq_some_iff.1 hplace
        simp only [if_neg hfits]
        cases ledger.tiling.canGrow i with
        | false => rfl
        | true =>
            simp [checkedRefusal?, Tiling.checkedCluster_eq tail.cluster,
              sound.bounded.clusters.cluster tail.cluster, sound.linked.endOf_of_tailOf tail]

end Sound

/-! ## What is applied -/

theorem checkedModify_eq {f : Cluster → Checked Cluster} {g : Cluster → Cluster}
    (hc : ledger.tiling.cluster? i = some c) (h : f c = .ok (g c)) :
    ledger.checkedModify i f = .ok (ledger.modifyCluster i g) := by
  have hsame := Tiling.modify_congr (f := fun _ => g c) (g := g) hc rfl
  simp [checkedModify, Tiling.checkedCluster_eq hc, h, modifyCluster, hsame]

theorem checkedAppend_eq (bounded : ledger.tiling.Bounded)
    (hs : ledger.registry.session? place = some s) (hpos : 0 < base) (hbase : base ≤ idLimit)
    (capacity count : Nat) :
    ledger.checkedAppend place base capacity count =
      .ok (ledger.append place base capacity count) := by
  simp only [checkedAppend, bounded.checkedNextBase_eq, localId_eq hpos hbase,
    bounded.checkedPush_eq, Registry.checkedSession_eq hs, ok_bind]
  rw [checkedModify_eq (g := ({ · with count })) (by rw [Tiling.cluster?_push, if_pos rfl]) rfl]
  simp only [modifyCluster, append, Tiling.modify_push]

namespace Sound

theorem checkedApply_extend (sound : ledger.Sound) (tail : ledger.TailOf id i c)
    (hfits : count ≤ c.remaining) :
    ledger.checkedApply id (.extend i) count = .ok (ledger.modifyCluster i (·.fill count)) := by
  have bounded := sound.bounded.clusters.cluster tail.cluster
  have hcount := bounded.count_le
  have hend := bounded.generation_le
  have hsum : c.count + count ≤ idLimit := by
    unfold Cluster.remaining at hfits
    omega
  apply checkedModify_eq tail.cluster
  rw [addWord_of_le hsum]
  rfl

theorem checkedApply_grow (sound : ledger.Sound) (tail : ledger.TailOf id i c)
    (hroom : c.endOf .reserved + room ≤ idLimit) (hcount : count ≤ c.remaining + room) :
    ledger.checkedApply id (.grow i room) count =
      .ok (ledger.modifyCluster i (·.grow room count)) := by
  have hle := (sound.bounded.clusters.cluster tail.cluster).count_le
  simp only [Cluster.endOf, Cluster.remaining] at hroom hcount
  have hcapacity : c.capacity + room ≤ idLimit := by omega
  have hsum : c.count + count ≤ idLimit := by omega
  apply checkedModify_eq tail.cluster
  rw [addWord_of_le hcapacity, ok_bind, addWord_of_le hsum]
  rfl

theorem checkedApply_overflow (sound : ledger.Sound) (tail : ledger.TailOf id i c)
    (capacity surplus count : Nat) :
    ledger.checkedApply id (.overflow i (c.endOf .reserved) capacity surplus) count =
      .ok ((ledger.modifyCluster i .fillUp).append c.session (c.endOf .reserved) capacity
        surplus) := by
  have hc := tail.cluster
  have bounded := sound.bounded.clusters.cluster hc
  have filled := (sound.fillUp tail).bounded
  have hfill : ledger.checkedModify i (fun c => pure c.fillUp) =
      .ok (ledger.modifyCluster i .fillUp) := checkedModify_eq hc rfl
  obtain ⟨s, hs⟩ := Registry.exists_session (sound.linked.owner hc)
  simp only [checkedApply, Tiling.checkedCluster_eq hc, ok_bind, hfill]
  exact checkedAppend_eq filled.clusters hs (Nat.add_pos_left bounded.baseGeneration_pos _)
    bounded.generation_le capacity surplus

theorem checkedApply_first (sound : ledger.Sound) (capacity count : Nat) :
    ledger.checkedApply id (.first capacity) count =
      .ok ((ledger.register id).append (ledger.registry.register id).2 1 capacity count) := by
  have registered := sound.register id
  obtain ⟨s, hs, -⟩ := registered.linked.indexed.session?_of_find?
    (sound.linked.indexed.find?_register id)
  exact checkedAppend_eq registered.bounded.clusters hs Nat.one_pos (by decide) capacity count

theorem checkedApply_eq (sound : ledger.Sound)
    (h : ledger.reserve id < count → ledger.Admits id (ledger.roomFor id count)) :
    ledger.checkedApply id (ledger.plan id count) count = .ok (ledger.apply id count) := by
  unfold plan apply
  cases hplace : ledger.tailPlace? id with
  | none => simp only [appendSurplus_of_fresh hplace, sound.checkedApply_first]
  | some i =>
      obtain ⟨c, tail⟩ := sound.linked.tailPlace?_eq_some_iff.1 hplace
      simp only [sound.linked.reserve_of_tailOf tail, roomFor,
        sound.linked.endOf_of_tailOf tail] at h ⊢
      by_cases hfits : count ≤ c.remaining
      · rw [if_pos hfits, if_pos hfits, sound.checkedApply_extend tail hfits]
      · have hroom := (h (Nat.lt_of_not_le hfits)).generations
        rw [sound.linked.endOf_of_tailOf tail] at hroom
        rw [if_neg hfits, if_neg hfits]
        cases ledger.tiling.canGrow i with
        | true =>
            rw [if_pos rfl, if_pos rfl, sound.checkedApply_grow tail hroom (by omega)]
        | false =>
            simp only [Bool.false_eq_true, if_false, appendSurplus_of_tailOf sound.linked tail,
              sound.checkedApply_overflow tail]

theorem checkedFinalize_eq (sound : ledger.Sound) (range : CreationRange) :
    ledger.checkedFinalize range = .ok (ledger.finalize range) := by
  unfold checkedFinalize Ledger.finalize
  cases range.ids with
  | none => rfl
  | some ids =>
      by_cases hzero : ids.count = 0
      · simp [refusal?, hzero]
      by_cases hfirst : ids.first = 0
      · simp [refusal?, hzero, hfirst]
      by_cases hlarge : idLimit < ids.first + ids.count
      · simp [refusal?, hzero, hfirst, hlarge]
      by_cases horder : ledger.endOf range.session .finalized = ids.first
      · have hcount := Nat.pos_of_ne_zero hzero
        have hend : ledger.endOf range.session .finalized + ids.count ≤ idLimit := by omega
        have hrefusal : ledger.refusal? range.session ids =
            if ids.count ≤ ledger.reserve range.session then none
            else ledger.roomRefusal? range.session (ledger.roomFor range.session ids.count) := by
          simp [refusal?, hzero, hfirst, hlarge, horder]
        simp only [hzero, hfirst, horder, sound.checkedTailPlace?_eq,
          sound.checkedExpected_eq, sound.checkedPlan_eq hend,
          sound.checkedRefusal?_eq hcount hend, ← hrefusal, ok_bind, fitsId_eq]
        cases hfault : ledger.refusal? range.session ids with
        | some fault => simp [Nat.le_of_not_lt hlarge]
        | none =>
            have admits : ledger.reserve range.session < ids.count →
                ledger.Admits range.session (ledger.roomFor range.session ids.count) := by
              intro hexceeds
              rw [hfault, if_neg (Nat.not_le.2 hexceeds)] at hrefusal
              exact (sound.roomRefusal?_eq_none_iff (sound.roomFor_pos _ _)).1 hrefusal.symm
            simp [Nat.le_of_not_lt hlarge, sound.checkedApply_eq admits]
      · simp [refusal?, hzero, hfirst, hlarge, Ne.symm horder, sound.checkedTailPlace?_eq,
          sound.checkedExpected_eq]

end Sound

end Ledger

end CompactIds
