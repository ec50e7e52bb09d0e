import CompactIds.Proofs.Restore

/-!
# Histories of sound peers

A peer is created for a session or loaded from bytes, and every action keeps
its invariant.
-/

namespace CompactIds.Peer

variable {session : SessionId} {capacity : Nat} {peer next start : Peer} {action : Action}

/-- A new peer for a session, with the standard capacity or one that was set. -/
inductive Created : SessionId → Nat → Peer → Prop
  | standard (session : SessionId) : Created session defaultCapacity (ofSession session)
  | configured {session : SessionId} {settings : Settings} {peer : Peer}
      (h : ofSettings session settings = .ok peer) :
      Created session settings.clusterCapacity peer

inductive Origin : Peer → Prop
  | created {session : SessionId} {capacity : Nat} {peer : Peer}
      (h : Created session capacity peer) : Origin peer
  | load {given : Option SessionId} {bytes : List UInt8} {peer : Peer}
      (h : load given bytes = .ok peer) : Origin peer

theorem Created.eq (created : Created session capacity peer) :
    peer = { ofSession session with ledger := { (ofSession session).ledger with capacity } } := by
  cases created with
  | standard => rfl
  | configured h => exact (setCapacity_eq_ok h).2

theorem Created.session_eq (created : Created session capacity peer) :
    peer.session = session := by
  rw [created.eq]
  rfl

theorem Created.sound (created : Created session capacity peer) : peer.Sound := by
  cases created with
  | standard => exact sound_ofSession session
  | configured h =>
      obtain ⟨hcapacity, rfl⟩ := setCapacity_eq_ok h
      exact (sound_ofSession _).withCapacity hcapacity

theorem Origin.sound (origin : start.Origin) : start.Sound := by
  cases origin with
  | created h => exact h.sound
  | load h => exact sound_of_load h

/-- All that an action can do.  Nothing is done where it is refused, or where
there is nothing to do. -/
inductive Step (peer : Peer) : Action → Peer → Prop
  | idle {action : Action} (exhausted : action = .generate → peer.generated = idLimit)
      (upToDate : action = .take → peer.taken = peer.generated) : Step peer action peer
  | generateFinal {final : Nat} (unused : peer.generated < idLimit)
      (reserved : peer.ownTail?.bind (·.finalOf? (peer.generated + 1)) = some final) :
      Step peer .generate { peer with generated := peer.generated + 1 }
  | generateLocal (unused : peer.generated < idLimit)
      (unreserved : peer.ownTail?.bind (·.finalOf? (peer.generated + 1)) = none) :
      Step peer .generate
        { peer with
          generated := peer.generated + 1, locals := peer.locals.add (peer.generated + 1) 1 }
  | take (fresh : peer.taken < peer.generated) :
      Step peer .take { peer with taken := peer.generated }
  | setCapacity {capacity : Nat} (allowed : 1 ≤ capacity ∧ capacity ≤ largestCapacity) :
      Step peer (.setCapacity capacity) { peer with ledger := { peer.ledger with capacity } }
  | finalize {range : CreationRange} {ledger : Ledger}
      (accepted : peer.ledger.finalize range = .ok ledger) :
      Step peer (.finalize range) { peer with ledger }

theorem Sound.step (sound : peer.Sound) (action : Action) :
    peer.Step action (peer.perform action) := by
  cases action with
  | generate =>
      by_cases hlt : peer.generated < idLimit
      · rw [perform, if_pos hlt]
        cases htail : peer.ownTail?.bind (·.finalOf? (peer.generated + 1)) with
        | some final =>
            rw [generate_of_some htail]
            exact .generateFinal hlt htail
        | none =>
            rw [generate_of_none htail]
            exact .generateLocal hlt htail
      · rw [perform, if_neg hlt]
        exact .idle (fun _ => Nat.le_antisymm sound.generated_le (Nat.le_of_not_lt hlt)) (by simp)
  | take =>
      by_cases hlt : peer.taken < peer.generated
      · simpa [perform, Peer.take, hlt] using Step.take hlt
      · simp only [perform, Peer.take, if_neg hlt]
        exact .idle (by simp) fun _ => Nat.le_antisymm sound.taken_le (Nat.le_of_not_lt hlt)
  | setCapacity capacity =>
      simp only [perform]
      cases h : peer.setCapacity capacity with
      | error fault => exact .idle (by simp) (by simp)
      | ok next =>
          obtain ⟨hcapacity, rfl⟩ := setCapacity_eq_ok h
          exact .setCapacity hcapacity
  | finalize range =>
      simp only [perform]
      cases h : peer.finalize range with
      | error fault => exact .idle (by simp) (by simp)
      | ok next =>
          obtain ⟨ledger, hledger, rfl⟩ := finalize_eq_ok h
          exact .finalize hledger
  | copy =>
      rw [perform, copy_eq]
      exact .idle (by simp) (by simp)
  | reload =>
      rw [sound.perform_reload]
      exact .idle (by simp) (by simp)

namespace Step

theorem sound (step : peer.Step action next) (sound : peer.Sound) : next.Sound := by
  cases step with
  | idle => exact sound
  | generateFinal unused =>
      exact ⟨sound.ledger, sound.own, sound.populated, unused,
        Nat.le_succ_of_le sound.taken_le, sound.locals.mono (Nat.le_succ _)⟩
  | generateLocal unused =>
      refine ⟨sound.ledger, sound.own, sound.populated, unused,
        Nat.le_succ_of_le sound.taken_le, ?_⟩
      exact sound.locals.add (Nat.le_refl _) (Nat.le_add_left _ _) Nat.one_pos
  | take fresh =>
      exact ⟨sound.ledger, sound.own, sound.populated, sound.generated_le, Nat.le_refl _,
        sound.locals⟩
  | setCapacity allowed => exact sound.withCapacity allowed
  | finalize accepted => exact sound.withLedger accepted

theorem session_eq (step : peer.Step action next) : next.session = peer.session := by
  cases step <;> rfl

end Step

namespace Sound

theorem perform (sound : peer.Sound) (action : Action) : (peer.perform action).Sound :=
  (sound.step action).sound sound

theorem replay (sound : peer.Sound) (actions : List Action) :
    (peer.replay actions).Sound := by
  induction actions generalizing peer with
  | nil => exact sound
  | cons action actions ih => exact ih (sound.perform action)

theorem session_replay (sound : peer.Sound) (actions : List Action) :
    (peer.replay actions).session = peer.session := by
  induction actions generalizing peer with
  | nil => rfl
  | cons action actions ih =>
      exact (ih (sound.perform action)).trans (sound.step action).session_eq

end Sound

theorem replay_append (start : Peer) (before after : List Action) :
    start.replay (before ++ after) = (start.replay before).replay after :=
  List.foldl_append

end CompactIds.Peer
