import CompactIds.Proofs.WellFormed
import CompactIds.Proofs.Words.Snapshot

/-!
# No arithmetic leaves its type

A peer whose invariant holds computes every operation in words, and gets what
the operation is defined to give.  So no history of a peer traps, and none of
the operations does after it, whatever they are asked.
-/

namespace CompactIds

open Checked

namespace Peer

variable {peer start : Peer}

/-- None of the operations traps.  There must be a next id to generate.  Changing
the capacity and copying compute nothing, and a conversion that names the
unknown id computes what the partial one does. -/
structure Contained (peer : Peer) : Prop where
  generate : peer.generated < idLimit → peer.checkedGenerate = .ok peer.generate
  take : peer.checkedTake = .ok peer.take
  finalize : ∀ range, peer.checkedFinalize range = .ok (peer.finalize range)
  toOp : ∀ id, peer.checkedToOp? id = .ok (peer.toOp? id)
  toSession : ∀ id origin, peer.checkedToSession? id origin = .ok (peer.toSession? id origin)
  expand : ∀ id, peer.checkedExpand? id = .ok (peer.expand? id)
  compress : ∀ id, peer.checkedCompress? id = .ok (peer.compress? id)
  limit : peer.ledger.tiling.checkedLimit = .ok peer.ledger.tiling.limit
  lastGeneration : ∀ {i c} extent, peer.ledger.tiling.cluster? i = some c →
    c.checkedLastGeneration? extent = .ok (c.lastGeneration? extent)
  save : ∀ withLocal, peer.checkedSave withLocal = .ok (peer.save withLocal)
  load : ∀ given bytes, (Peer.checkedLoad given bytes).run = .ok (Peer.load given bytes)

theorem Sound.contained (sound : peer.Sound) : peer.Contained where
  generate := sound.checkedGenerate_eq
  take := sound.checkedTake_eq
  finalize := sound.checkedFinalize_eq
  toOp := sound.checkedToOp?_eq
  toSession := sound.checkedToSession?_eq
  expand := sound.checkedExpand?_eq
  compress := sound.checkedCompress?_eq
  limit := sound.ledger.bounded.clusters.checkedLimit_eq
  lastGeneration := fun extent hc =>
    (sound.ledger.bounded.clusters.cluster hc).checkedLastGeneration?_eq extent
  save := sound.checkedSave_eq
  load := Peer.checkedLoad_eq

def checkedPerform (peer : Peer) : Action → Checked Peer
  | .generate =>
      if peer.generated < idLimit then Prod.snd <$> peer.checkedGenerate else pure peer
  | .take => Prod.snd <$> peer.checkedTake
  | .setCapacity capacity => pure ((peer.setCapacity capacity).toOption.getD peer)
  | .finalize range => (·.toOption.getD peer) <$> peer.checkedFinalize range
  | .copy => pure peer.copy
  | .reload => do
      let bytes ← peer.checkedSave true
      (·.toOption.getD peer) <$> (Peer.checkedLoad none bytes).run

def checkedReplay (peer : Peer) (actions : List Action) : Checked Peer :=
  actions.foldlM checkedPerform peer

theorem Contained.checkedPerform_eq (contained : peer.Contained) (action : Action) :
    peer.checkedPerform action = .ok (peer.perform action) := by
  cases action with
  | generate =>
      by_cases h : peer.generated < idLimit
      · simp [checkedPerform, perform, h, contained.generate h]
      · simp [checkedPerform, perform, h]
  | take => simp [checkedPerform, perform, contained.take]
  | setCapacity capacity => rfl
  | finalize range => simp [checkedPerform, perform, contained.finalize]
  | copy => rfl
  | reload => simp [checkedPerform, perform, contained.save, contained.load]

theorem Sound.checkedReplay_eq (sound : peer.Sound) (actions : List Action) :
    peer.checkedReplay actions = .ok (peer.replay actions) := by
  induction actions generalizing peer with
  | nil => rfl
  | cons action actions ih =>
      rw [checkedReplay, List.foldlM_cons, sound.contained.checkedPerform_eq, ok_bind]
      exact ih (sound.perform action)

theorem contained_replay (origin : start.Origin) (actions : List Action) :
    start.checkedReplay actions = .ok (start.replay actions) ∧
      (start.replay actions).Contained :=
  ⟨origin.sound.checkedReplay_eq actions, (origin.sound.replay actions).contained⟩

theorem contained_replay_overflow :
    let own : SessionId := Position.toStableId ⟨5, by decide⟩
    let other : SessionId := Position.toStableId ⟨900, by decide⟩
    let start := ofSession own
    let actions : List Action := [.generate, .take, .finalize (.ofSpan own 1 1),
      .finalize (.ofSpan other 1 7), .finalize (.ofSpan own 2 600), .reload]
    start.Origin ∧ start.checkedReplay actions = .ok (start.replay actions) ∧
      (start.replay actions).Contained := by
  intro own other start actions
  have origin : start.Origin := .created (.standard own)
  exact ⟨origin, contained_replay origin actions⟩

/-- The word of a generation has room for one more id, but no local id stands for it. -/
theorem checkedGenerate_of_exhausted (h : peer.generated = idLimit) :
    peer.checkedGenerate = .error .generation := by
  rw [checkedGenerate, h]
  rfl

end Peer

end CompactIds
