import CompactIds.Peer.Conversion
import CompactIds.Proofs.Peer
import CompactIds.Proofs.Words.Finalize

/-!
# Peers in words

The operations of a peer as a machine computes them.  An id that is asked for
may be any integer; only one that is recorded as handed out is turned into a
position, and such a one was generated.
-/

namespace CompactIds

open Checked

namespace LocalRuns

variable {locals : LocalRuns} {limit first count generation : Nat}

def checkedContains (locals : LocalRuns) (generation : Nat) : Checked Bool := do
  match ← lastIndex? (fun run => pure (decide (run.first ≤ generation))) locals.runs with
  | none => pure false
  | some i => do
      let run ← element locals.runs i
      let last ← addWord run.first run.count
      pure (generation < last)

def checkedAdd (locals : LocalRuns) (first count : Nat) : Checked LocalRuns := do
  match locals.runs.back? with
  | some last =>
      let next ← addWord last.first last.count
      if next = first then
        let count ← addWord last.count count
        pure ⟨locals.runs.pop.push ⟨last.first, count⟩⟩
      else pure ⟨locals.runs.push ⟨first, count⟩⟩
  | none => pure ⟨#[⟨first, count⟩]⟩

theorem checkedContains_eq (hfits : ∀ run ∈ locals.runs, run.first + run.count < wordLimit)
    (generation : Nat) : locals.checkedContains generation = .ok (locals.contains generation) := by
  rw [checkedContains, lastIndex?_pure]
  unfold contains
  cases hi : Search.lastIndex? (fun run : Run => decide (run.first ≤ generation))
    locals.runs with
  | none => rfl
  | some i =>
      have hrun := Array.getElem?_eq_getElem (lt_size_of_lastIndex? hi)
      have hword := hfits _ (Array.mem_of_getElem? hrun)
      simp [element_eq hrun, hrun, addWord_eq hword]

theorem checkedAdd_eq (hfits : ∀ run ∈ locals.runs, run.first + run.count < wordLimit)
    (hbehind : ∀ last ∈ locals.runs.back?, last.first + last.count ≤ first)
    (hword : first + count < wordLimit) :
    locals.checkedAdd first count = .ok (locals.add first count) := by
  unfold checkedAdd LocalRuns.add
  cases hback : locals.runs.back? with
  | none => rfl
  | some last =>
      have hle := hbehind last hback
      have hnext := hfits last (Array.mem_of_back? hback)
      have hcount : last.count + count < wordLimit := by omega
      by_cases hjoin : last.first + last.count = first <;>
        simp [addWord_eq hnext, addWord_eq hcount, hjoin]

namespace Within

theorem checkedContains_eq (within : locals.Within limit) (hlimit : limit < wordLimit)
    (generation : Nat) : locals.checkedContains generation = .ok (locals.contains generation) :=
  LocalRuns.checkedContains_eq
    (fun run hrun => Nat.lt_of_le_of_lt (within.bounded run hrun) hlimit) generation

theorem checkedAdd_eq (within : locals.Within limit) (hlimit : limit ≤ first)
    (hword : first + count < wordLimit) :
    locals.checkedAdd first count = .ok (locals.add first count) := by
  refine LocalRuns.checkedAdd_eq (fun run hrun => ?_) (fun last hlast => ?_) hword
  · have := within.bounded run hrun
    omega
  · exact Nat.le_trans (within.bounded last (Array.mem_of_back? hlast)) hlimit

theorem bounds_of_contains (within : locals.Within (limit + 1))
    (h : locals.contains generation = true) : 1 ≤ generation ∧ generation ≤ limit := by
  obtain ⟨run, hrun, hfirst, hlast⟩ := within.contains_iff.1 h
  have := within.positive run hrun
  have := within.bounded run hrun
  omega

end Within

end LocalRuns

theorem Registry.exists_of_clusterAt? {registry : Registry} {p : Position} {tiling : Tiling}
    {i generation : Nat} (h : registry.clusterAt? p tiling = some (i, generation)) :
    ∃ c, tiling.cluster? i = some c := by
  simp only [clusterAt?, Option.bind_eq_bind, Option.bind_eq_some_iff] at h
  obtain ⟨place, -, s, -, distance, -, h⟩ := h
  split at h
  · obtain ⟨j, hj, h⟩ := Option.bind_eq_some_iff.1 h
    cases h
    exact Session.exists_of_clusterOfGeneration? hj
  · cases h

namespace Peer

variable {peer : Peer} {c : Cluster} {generation : Nat}

def checkedOwn (peer : Peer) : Checked Session :=
  peer.ledger.registry.checkedSession ownPlace

def checkedOwnFinal? (peer : Peer) (generation : Nat) : Checked (Option Nat) := do
  let own ← peer.checkedOwn
  own.checkedFinalOf? .reserved generation peer.ledger.tiling

def checkedOwnGeneration? (peer : Peer) (final : Nat) : Checked (Option Nat) := do
  let own ← peer.checkedOwn
  own.checkedGenerationOf? final peer.ledger.tiling

def checkedGenerate (peer : Peer) : Checked (SessionSpaceId × Peer) := do
  let generation ← addWord peer.generated 1
  let id ← localId generation
  let own ← peer.checkedOwn
  let eager ← match ← own.checkedTail? peer.ledger.tiling with
    | some c => c.checkedFinalOf? id
    | none => pure none
  match eager with
  | some final => pure (.ofFinal final, { peer with generated := generation })
  | none =>
      let locals ← peer.locals.checkedAdd generation 1
      pure (.ofGeneration id, { peer with generated := generation, locals })

/-- What is kept is the first generation that was not taken. -/
def checkedTake (peer : Peer) : Checked (CreationRange × Peer) := do
  let first ← addWord peer.taken 1
  let count ← subWord (← addWord peer.generated 1) first
  if count = 0 then pure (.empty peer.session, peer)
  else
    let next ← addWord peer.generated 1
    pure (.ofSpan peer.session first count, { peer with taken := next - 1 })

def checkedFinalize (peer : Peer) (range : CreationRange) : Checked (Except Fault Peer) := do
  match ← peer.ledger.checkedFinalize range with
  | .ok ledger => pure (.ok { peer with ledger })
  | .error fault => pure (.error fault)

/-! ## Op space -/

def checkedToOp? (peer : Peer) (id : SessionSpaceId) : Checked (Option OpSpaceId) := do
  match id.form with
  | .ofFinal final => pure (some (.ofFinal final))
  | .ofGeneration generation =>
      if ← peer.locals.checkedContains generation then
        match ← peer.checkedOwnFinal? generation with
        | some final => pure (some (.ofFinal final))
        | none => pure (some (.ofGeneration generation))
      else pure none

def checkedToSession? (peer : Peer) (id : OpSpaceId) (origin : SessionId) :
    Checked (Option SessionSpaceId) := do
  match id.form with
  | .ofFinal final =>
      match ← peer.checkedOwnGeneration? final with
      | some generation =>
          if ← peer.locals.checkedContains generation then
            pure (some (.ofGeneration generation))
          else if generation ≤ peer.generated then pure (some (.ofFinal final))
          else pure none
      | none =>
          let limit ← peer.ledger.tiling.checkedLimit
          pure (if final < limit then some (.ofFinal final) else none)
  | .ofGeneration generation =>
      if origin = peer.session then
        if ← peer.locals.checkedContains generation then
          pure (some (.ofGeneration generation))
        else if generation ≤ peer.generated then
          let final ← peer.checkedOwnFinal? generation
          pure (final.map .ofFinal)
        else pure none
      else
        let final ← peer.ledger.checkedFinalOf? origin .finalized generation
        pure (final.map .ofFinal)

/-! ## Stable form -/

def checkedHoldsFinal (peer : Peer) (c : Cluster) (generation : Nat) : Checked Bool := do
  let last ← c.checkedEndOf .finalized
  if generation < last then pure true
  else if c.session = ownPlace then
    let contained ← peer.locals.checkedContains generation
    pure (!contained && generation ≤ peer.generated)
  else pure false

def checkedExpand? (peer : Peer) (id : SessionSpaceId) : Checked (Option StableId) := do
  match id.form with
  | .ofFinal final =>
      match ← peer.ledger.tiling.checkedClusterOfFinal? final with
      | none => pure none
      | some i =>
          let c ← peer.ledger.tiling.checkedCluster i
          match ← c.checkedGenerationOf? final with
          | none => pure none
          | some generation =>
              if ← peer.checkedHoldsFinal c generation then
                let s ← peer.ledger.registry.checkedSession c.session
                some <$> s.checkedStableIdOf generation
              else pure none
  | .ofGeneration generation =>
      if ← peer.locals.checkedContains generation then
        let own ← peer.checkedOwn
        some <$> own.checkedStableIdOf generation
      else pure none

def checkedLocalGeneration? (peer : Peer) (id : StableId) : Checked (Option Nat) := do
  let own ← peer.checkedOwn
  match ← id.position.checkedAbove? own.position with
  | none => pure none
  | some distance =>
      let generation ← addWord distance 1
      if generation ≤ peer.generated then
        if ← peer.locals.checkedContains generation then some <$> localId generation
        else pure none
      else pure none

def checkedIsVisible (peer : Peer) (c : Cluster) (generation : Nat) : Checked Bool := do
  if c.session = ownPlace then pure (generation ≤ peer.generated)
  else
    let last ← c.checkedEndOf .finalized
    pure (generation < last)

def checkedCompress? (peer : Peer) (id : StableId) : Checked (Option SessionSpaceId) := do
  match ← peer.checkedLocalGeneration? id with
  | some generation => pure (some (.ofGeneration generation))
  | none =>
      match ← peer.ledger.registry.checkedClusterAt? id.position peer.ledger.tiling with
      | none => pure none
      | some (i, generation) =>
          let c ← peer.ledger.tiling.checkedCluster i
          if ← peer.checkedIsVisible c generation then
            let final ← c.checkedFinalOf? generation
            pure (final.map .ofFinal)
          else pure none

namespace Sound

theorem exists_checkedOwn (sound : peer.Sound) :
    ∃ own, peer.own? = some own ∧ own.id = peer.session ∧ peer.checkedOwn = .ok own ∧
      own.Within peer.ledger.tiling := by
  obtain ⟨own, hown, hid⟩ := sound.own
  exact ⟨own, hown, hid, Registry.checkedSession_eq hown, sound.ledger.bounded.within hown⟩

theorem checkedOwnFinal?_eq (sound : peer.Sound) (generation : Nat) :
    peer.checkedOwnFinal? generation = .ok (peer.ownFinal? generation) := by
  obtain ⟨own, hown, -, hchecked, within⟩ := sound.exists_checkedOwn
  simp [checkedOwnFinal?, ownFinal?, hown, hchecked,
    within.checkedFinalOf?_eq sound.ledger.bounded.clusters]

theorem checkedOwnGeneration?_eq (sound : peer.Sound) (final : Nat) :
    peer.checkedOwnGeneration? final = .ok (peer.ownGeneration? final) := by
  obtain ⟨own, hown, -, hchecked, within⟩ := sound.exists_checkedOwn
  simp [checkedOwnGeneration?, ownGeneration?, hown, hchecked,
    within.checkedGenerationOf?_eq sound.ledger.bounded.clusters]

theorem checkedContains_eq (sound : peer.Sound) (generation : Nat) :
    peer.locals.checkedContains generation = .ok (peer.locals.contains generation) := by
  have := sound.generated_le
  exact sound.locals.checkedContains_eq (by simp only [idLimit, wordLimit] at *; omega) _

theorem checkedGenerate_eq (sound : peer.Sound) (h : peer.generated < idLimit) :
    peer.checkedGenerate = .ok peer.generate := by
  obtain ⟨own, hown, -, hchecked, within⟩ := sound.exists_checkedOwn
  have hword : peer.generated + 1 + 1 < wordLimit := by
    simp only [idLimit, wordLimit] at *
    omega
  have hadd := sound.locals.checkedAdd_eq (Nat.le_refl _) hword
  have htail : peer.ownTail? = own.tail? peer.ledger.tiling := by simp [ownTail?, hown]
  rw [checkedGenerate, addWord_of_le h, ok_bind, localId_eq (Nat.succ_pos _) h, ok_bind, hchecked,
    ok_bind, within.checkedTail?_eq, ok_bind]
  unfold generate
  rw [htail]
  cases hc : own.tail? peer.ledger.tiling with
  | none => simp [hadd]
  | some c =>
      have bounded := Session.Within.tail_bounded sound.ledger.bounded.clusters hc
      cases hfinal : c.finalOf? (peer.generated + 1) <;>
        simp [bounded.checkedFinalOf?_eq, hfinal, hadd]

theorem checkedTake_eq (sound : peer.Sound) : peer.checkedTake = .ok peer.take := by
  have hgenerated := sound.generated_le
  have htaken := sound.taken_le
  have hword : peer.generated + 1 < wordLimit := by
    simp only [idLimit, wordLimit] at *
    omega
  have hfirst : peer.taken + 1 < wordLimit := by omega
  rw [checkedTake, addWord_eq hfirst, ok_bind, addWord_eq hword, ok_bind,
    subWord_eq (show peer.taken + 1 ≤ peer.generated + 1 by omega), ok_bind,
    Nat.add_sub_add_right]
  unfold take
  by_cases h : peer.taken < peer.generated
  · have hne : peer.generated - peer.taken ≠ 0 := by omega
    simp [h, hne]
  · have heq : peer.generated - peer.taken = 0 := by omega
    simp [h, heq]

theorem checkedFinalize_eq (sound : peer.Sound) (range : CreationRange) :
    peer.checkedFinalize range = .ok (peer.finalize range) := by
  rw [checkedFinalize, sound.ledger.checkedFinalize_eq, ok_bind]
  unfold finalize
  cases peer.ledger.finalize range <;> rfl

theorem checkedToOp?_eq (sound : peer.Sound) (id : SessionSpaceId) :
    peer.checkedToOp? id = .ok (peer.toOp? id) := by
  unfold checkedToOp? toOp?
  cases id.form with
  | ofFinal final => rfl
  | ofGeneration generation =>
      simp only [sound.checkedContains_eq, sound.checkedOwnFinal?_eq, ok_bind]
      cases peer.locals.contains generation with
      | false => rfl
      | true => cases peer.ownFinal? generation <;> rfl

theorem checkedToSession?_eq (sound : peer.Sound) (id : OpSpaceId) (origin : SessionId) :
    peer.checkedToSession? id origin = .ok (peer.toSession? id origin) := by
  unfold checkedToSession? toSession?
  cases id.form with
  | ofFinal final =>
      simp only [sound.checkedOwnGeneration?_eq, sound.checkedContains_eq, ok_bind,
        sound.ledger.bounded.clusters.checkedLimit_eq]
      cases peer.ownGeneration? final with
      | none => rfl
      | some generation =>
          cases hcontains : peer.locals.contains generation <;>
            by_cases hle : generation ≤ peer.generated <;> simp [hcontains, hle]
  | ofGeneration generation =>
      simp only [sound.checkedOwnFinal?_eq, sound.checkedContains_eq, ok_bind,
        sound.ledger.checkedFinalOf?_eq]
      by_cases horigin : origin = peer.session
      · cases peer.locals.contains generation <;>
          by_cases hle : generation ≤ peer.generated <;> simp [horigin, hle]
      · simp [horigin]

theorem checkedHoldsFinal_eq (sound : peer.Sound) (bounded : c.Bounded) (generation : Nat) :
    peer.checkedHoldsFinal c generation = .ok (peer.holdsFinal c generation) := by
  by_cases hlast : generation < c.endOf .finalized <;> by_cases hplace : c.session = ownPlace <;>
    simp [checkedHoldsFinal, holdsFinal, bounded, hlast, hplace, sound.checkedContains_eq]

theorem checkedExpand?_eq (sound : peer.Sound) (id : SessionSpaceId) :
    peer.checkedExpand? id = .ok (peer.expand? id) := by
  obtain ⟨own, hown, -, hchecked, -⟩ := sound.exists_checkedOwn
  have clusters := sound.ledger.bounded.clusters
  unfold checkedExpand? expand?
  cases id.form with
  | ofFinal final =>
      simp only [clusters.checkedClusterOfFinal?_eq, ok_bind]
      cases hi : peer.ledger.tiling.clusterOfFinal? final with
      | none => rfl
      | some i =>
          obtain ⟨c, hc⟩ := Tiling.exists_of_clusterOfFinal? hi
          obtain ⟨s, hs⟩ := Registry.exists_session (sound.ledger.linked.owner hc)
          have bounded := clusters.cluster hc
          cases hgeneration : c.generationOf? final with
          | none =>
              simp [Tiling.checkedCluster_eq hc, hc, bounded.checkedGenerationOf?_eq, hgeneration]
          | some generation =>
              obtain ⟨hpos, hle⟩ := bounded.generation_bounds hgeneration
              cases hholds : peer.holdsFinal c generation <;>
                simp [Tiling.checkedCluster_eq hc, hc, bounded.checkedGenerationOf?_eq,
                  hgeneration, sound.checkedHoldsFinal_eq bounded, hholds,
                  Registry.checkedSession_eq hs, hs, s.checkedStableIdOf_eq hpos hle]
  | ofGeneration generation =>
      simp only [sound.checkedContains_eq, ok_bind, hown]
      cases hcontains : peer.locals.contains generation with
      | false => rfl
      | true =>
          -- Any integer may be asked for, but a recorded generation was generated.
          obtain ⟨hpos, hle⟩ := sound.locals.bounds_of_contains hcontains
          simp [hchecked, own.checkedStableIdOf_eq hpos (Nat.le_trans hle sound.generated_le)]

theorem checkedLocalGeneration?_eq (sound : peer.Sound) (id : StableId) :
    peer.checkedLocalGeneration? id = .ok (peer.localGeneration? id) := by
  obtain ⟨own, -, hid, hchecked, -⟩ := sound.exists_checkedOwn
  rw [checkedLocalGeneration?, hchecked, ok_bind, Session.position_eq hid,
    Position.checkedAbove?_eq, ok_bind]
  unfold localGeneration?
  cases hdistance : id.position.above? peer.session.position with
  | none => rfl
  | some distance =>
      have hlt : distance + 1 ≤ idLimit := Position.above?_lt hdistance
      simp only [addWord_of_le hlt, ok_bind, sound.checkedContains_eq,
        localId_eq (Nat.succ_pos distance) hlt, Nat.add_one_le_iff]
      by_cases hle : distance < peer.generated <;>
        cases hcontains : peer.locals.contains (distance + 1) <;>
          simp [hle, hcontains]

theorem checkedIsVisible_eq (bounded : c.Bounded) (generation : Nat) :
    peer.checkedIsVisible c generation = .ok (peer.isVisible c generation) := by
  by_cases hplace : c.session = ownPlace <;>
    simp [checkedIsVisible, isVisible, bounded, hplace]

theorem checkedCompress?_eq (sound : peer.Sound) (id : StableId) :
    peer.checkedCompress? id = .ok (peer.compress? id) := by
  rw [checkedCompress?, sound.checkedLocalGeneration?_eq, ok_bind]
  unfold compress?
  cases peer.localGeneration? id with
  | some generation => rfl
  | none =>
      simp only [sound.ledger.bounded.checkedClusterAt?_eq, ok_bind]
      cases hat : peer.ledger.registry.clusterAt? id.position peer.ledger.tiling with
      | none => rfl
      | some found =>
          obtain ⟨i, generation⟩ := found
          obtain ⟨c, hc⟩ := Registry.exists_of_clusterAt? hat
          have bounded := sound.ledger.bounded.clusters.cluster hc
          cases hvisible : peer.isVisible c generation <;>
            simp [Tiling.checkedCluster_eq hc, hc, checkedIsVisible_eq bounded, hvisible,
              bounded.checkedFinalOf?_eq]

end Sound

end Peer

end CompactIds
