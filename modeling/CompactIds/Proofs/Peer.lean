import CompactIds.Peer.Basic
import CompactIds.Proofs.Finalize
import CompactIds.Proofs.Runs

/-!
# The invariant of a peer

A peer's own session stands first in the registry, every other session owns
clusters, and the counters and the record of local ids stay within what was
generated.
-/

namespace CompactIds.Peer

variable {peer peer' : Peer} {session : SessionId}

structure Sound (peer : Peer) : Prop where
  ledger : peer.ledger.Sound
  own : ∃ s, peer.own? = some s ∧ s.id = peer.session
  populated : ∀ {place s}, peer.ledger.registry.session? place = some s →
    place ≠ ownPlace → s.isPopulated = true
  generated_le : peer.generated ≤ idLimit
  taken_le : peer.taken ≤ peer.generated
  locals : peer.locals.Within (peer.generated + 1)

theorem registry_ofSession (session : SessionId) (place : Nat) :
    (ofSession session).ledger.registry.session? place =
      if place = ownPlace then some (.ofId session) else none := by
  change (Registry.empty.register session).1.session? place = _
  rw [Registry.session?_register_of_none (by simp [Registry.find?, Registry.empty])]
  by_cases h : place = ownPlace
  · simp [h, Registry.empty, Registry.size, ownPlace]
  · simp only [ownPlace] at h
    simp [h, Registry.empty, Registry.session?, Registry.size, ownPlace]

theorem ledger_sound_ofSession (session : SessionId) : (ofSession session).ledger.Sound := by
  apply Ledger.sound_of_empty ?_ (Registry.indexed_empty.register session) rfl
  · intro place s hs
    rw [registry_ofSession] at hs
    split at hs
    · cases hs
      rfl
    · cases hs
  · constructor
    · exact Nat.le_of_ble_eq_true rfl
    · exact Nat.le_of_ble_eq_true rfl

theorem sound_ofSession (session : SessionId) : (ofSession session).Sound where
  ledger := ledger_sound_ofSession session
  own := ⟨.ofId session, by simp [own?, registry_ofSession], rfl⟩
  populated := by
    intro place s hs hplace
    rw [registry_ofSession, if_neg hplace] at hs
    cases hs
  generated_le := Nat.zero_le _
  taken_le := Nat.zero_le _
  locals := LocalRuns.within_empty _

theorem checkCapacity_eq_ok_iff {capacity : Nat} :
    checkCapacity capacity = .ok () ↔ 1 ≤ capacity ∧ capacity ≤ largestCapacity := by
  unfold checkCapacity
  split
  · rename_i h
    simp [h]
  · rename_i h
    simp [h]

theorem setCapacity_eq_ok {capacity : Nat} (h : peer.setCapacity capacity = .ok peer') :
    (1 ≤ capacity ∧ capacity ≤ largestCapacity) ∧
      peer' = { peer with ledger := { peer.ledger with capacity } } := by
  unfold setCapacity at h
  split at h
  · rename_i hcheck
    cases h
    exact ⟨checkCapacity_eq_ok_iff.1 hcheck, rfl⟩
  · cases h

theorem finalize_eq_ok {range : CreationRange} (h : peer.finalize range = .ok peer') :
    ∃ ledger, peer.ledger.finalize range = .ok ledger ∧ peer' = { peer with ledger } := by
  unfold finalize at h
  split at h
  · rename_i ledger hledger
    cases h
    exact ⟨ledger, hledger, rfl⟩
  · cases h

theorem generate_of_some {final : Nat}
    (h : peer.ownTail?.bind (·.finalOf? (peer.generated + 1)) = some final) :
    peer.generate = (.ofFinal final, { peer with generated := peer.generated + 1 }) := by
  simp [generate, h]

theorem generate_of_none
    (h : peer.ownTail?.bind (·.finalOf? (peer.generated + 1)) = none) :
    peer.generate = (.ofGeneration (peer.generated + 1),
      { peer with
        generated := peer.generated + 1, locals := peer.locals.add (peer.generated + 1) 1 }) := by
  simp [generate, h]

end CompactIds.Peer

namespace CompactIds.Ledger.Sound

variable {ledger : Ledger} {capacity : Nat}

theorem withCapacity (sound : ledger.Sound)
    (h : 1 ≤ capacity ∧ capacity ≤ largestCapacity) : { ledger with capacity }.Sound where
  capacity := h
  linked := ⟨sound.linked.indexed, sound.linked.owner, sound.linked.mem_chain,
    sound.linked.ascending⟩
  laid := sound.laid
  nextBase_le := sound.nextBase_le
  endOf_le := sound.endOf_le
  apart := ⟨sound.apart.inside, sound.apart.disjoint⟩

theorem finalize_grows (sound : ledger.Sound) {ledger' : Ledger} {range : CreationRange}
    (h : ledger.finalize range = .ok ledger') :
    ledger.registry.Grows ledger'.registry := by
  rcases sound.finalize_cases h with ⟨-, rfl⟩ | ⟨ids, -, -, -, -, hallocates⟩
  · exact .refl _
  · exact hallocates.grows

end CompactIds.Ledger.Sound

namespace CompactIds.Peer.Sound

variable {peer : Peer}

theorem withCapacity (sound : peer.Sound) {capacity : Nat}
    (h : 1 ≤ capacity ∧ capacity ≤ largestCapacity) :
    { peer with ledger := { peer.ledger with capacity } }.Sound :=
  ⟨sound.ledger.withCapacity h, sound.own, sound.populated, sound.generated_le,
    sound.taken_le, sound.locals⟩

theorem withLedger (sound : peer.Sound) {range : CreationRange} {ledger : Ledger}
    (h : peer.ledger.finalize range = .ok ledger) : { peer with ledger }.Sound := by
  have grows := sound.ledger.finalize_grows h
  obtain ⟨own, hown, hid⟩ := sound.own
  refine ⟨sound.ledger.finalize h, ?_, ?_, sound.generated_le, sound.taken_le, sound.locals⟩
  · obtain ⟨own', hown', hid', -⟩ := grows.keeps hown
    exact ⟨own', hown', hid'.trans hid⟩
  · intro place s' hs' hplace
    rcases grows.adds hs' with ⟨s, hs⟩ | hpop
    · obtain ⟨t, ht, -, hpop⟩ := grows.keeps hs
      change ledger.registry.session? place = some s' at hs'
      rw [hs'] at ht
      cases ht
      exact hpop (sound.populated hs hplace)
    · exact hpop

theorem copy_eq (peer : Peer) : peer.copy = peer := by
  simp [Peer.copy]

end CompactIds.Peer.Sound
