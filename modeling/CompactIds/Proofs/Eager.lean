import CompactIds.Proofs.Locating
import CompactIds.Proofs.Meaning

/-!
# Ids that are final at once

To generate an id the peer looks at the last cluster of its session alone.
Nothing is missed where the ranges of the session come from the peer itself,
since it has generated all that lies in the clusters before the last one.
-/

namespace CompactIds

namespace Ledger

variable {ledger : Ledger} {id : SessionId} {g : Nat}

/-- From the finalized end on only the last cluster reserves generations. -/
theorem Sound.tail?_bind_finalOf? (sound : ledger.Sound)
    (hend : ledger.endOf id .finalized ≤ g) :
    (ledger.tail? id).bind (·.finalOf? g) = ledger.finalOf? id .reserved g := by
  ext final
  simp only [Option.bind_eq_some_iff, sound.linked.tail?_eq_some_iff, Cluster.finalOf?,
    Option.ite_none_right_eq_some, Option.some.injEq,
    Ledger.finalOf?_eq_some_iff sound.linked sound.laid]
  constructor
  · rintro ⟨c, ⟨i, tail⟩, hcovers, rfl⟩
    exact ⟨i, c, tail.cluster, tail.owner, hcovers, rfl⟩
  · rintro ⟨i, c, hc, howner, hcovers, rfl⟩
    obtain ⟨j, ⟨d, hd, hsame⟩, hafter⟩ := sound.linked.exists_isTail hc
    have tail : ledger.TailOf id j d :=
      ⟨(ownerOf?_congr hsame).trans howner, hd, ⟨d, hd, rfl⟩, hsame ▸ hafter⟩
    rcases Nat.lt_trichotomy i j with hij | rfl | hij
    · -- An earlier cluster ends before the last one starts.
      have hbefore := sound.laid.generation_lt hc hd hij hsame.symm
      rw [sound.linked.endOf_of_tailOf tail] at hend
      rw [Cluster.covers_iff] at hcovers
      simp only [Cluster.endOf] at *
      omega
    · rw [hc, Option.some.injEq] at hd
      exact ⟨c, ⟨i, hd ▸ tail⟩, hcovers, rfl⟩
    · exact absurd rfl (hafter i c hij hc)

end Ledger

namespace Peer

variable {session : SessionId} {capacity g final : Nat} {peer start : Peer}
  {id id' : SessionSpaceId} {ranges : List CreationRange}

theorem Accounted.ownTail?_bind_finalOf? (accounted : peer.Accounted session ranges) :
    peer.ownTail?.bind (·.finalOf? (peer.generated + 1)) =
      peer.ownFinal? (peer.generated + 1) := by
  have sound := accounted.sound
  have hend : peer.ledger.endOf peer.session .finalized ≤ peer.generated + 1 := by
    rw [accounted.own]
    exact Nat.le_trans accounted.finalized (Nat.succ_le_succ sound.taken_le)
  rw [sound.ownTail?_eq, sound.ownFinal?_eq, sound.ledger.tail?_bind_finalOf? hend]

theorem Accounted.generate_eq_ofFinal_iff (accounted : peer.Accounted session ranges) :
    peer.generate.1 = .ofFinal final ↔ peer.ownFinal? (peer.generated + 1) = some final := by
  rw [← accounted.ownTail?_bind_finalOf?]
  cases h : peer.ownTail?.bind (·.finalOf? (peer.generated + 1)) with
  | some found => simp [generate_of_some h]
  | none =>
      simp [generate_of_none h,
        SpaceId.ofGeneration_ne_ofFinal (Nat.succ_pos peer.generated) final]

theorem Accounted.generate_eq_ofGeneration (accounted : peer.Accounted session ranges)
    (h : peer.ownFinal? (peer.generated + 1) = none) :
    peer.generate.1 = .ofGeneration (peer.generated + 1) := by
  rw [← accounted.ownTail?_bind_finalOf?] at h
  rw [generate_of_none h]

def Covers (peer : Peer) (g : Nat) : Prop :=
  ∃ s i, peer.own? = some s ∧ peer.ledger.ChainCovers s g i

theorem Sound.covers_iff (sound : peer.Sound) :
    peer.Covers g ↔ ∃ final, peer.ownFinal? g = some final := by
  obtain ⟨s, hs, hid⟩ := sound.own
  simp only [ownFinal?, hs, Option.bind_eq_bind, Option.bind_some,
    Ledger.session_finalOf?_eq_some_iff sound.ledger.linked sound.ledger.laid hs]
  constructor
  · rintro ⟨t, i, ht, covers⟩
    obtain rfl : s = t := Option.some.inj (hs.symm.trans ht)
    obtain ⟨c, hc, hplace, hcovers⟩ := (sound.ledger.linked.chainCovers_iff hs).1 covers
    exact ⟨_, i, c, hc, hplace, hcovers, rfl⟩
  · rintro ⟨final, i, c, hc, hplace, hcovers, -⟩
    exact ⟨s, i, hs, (sound.ledger.linked.chainCovers_iff hs).2 ⟨c, hc, hplace, hcovers⟩⟩

theorem HandedOut.unique (h : peer.HandedOut g id) (h' : peer.HandedOut g id') : id = id' := by
  cases h with
  | asGeneration held =>
      cases h' with
      | asGeneration => rfl
      | asFinal free => exact absurd held free
  | asFinal free reserved =>
      cases h' with
      | asGeneration held => exact absurd held free
      | asFinal _ reserved' => rw [Option.some.inj (reserved.symm.trans reserved')]

theorem Created.mem_ids_iff (created : Created session capacity start) {actions : List Action}
    (hpos : 0 < g) (hle : g ≤ (start.replay actions).generated) :
    (g, id) ∈ start.ids actions ↔ (start.replay actions).HandedOut g id := by
  constructor
  · exact fun hid => (created.sound.handedOut_replay hid).2.2
  · intro handed
    obtain ⟨id', hid'⟩ := created.exists_mem_ids hpos hle
    rwa [handed.unique (created.sound.handedOut_replay hid').2.2]

theorem eager_replay (created : Created session capacity start) {actions : List Action}
    (honest : start.Honest actions) :
    let peer := start.replay actions
    (∀ final, peer.generate.1 = .ofFinal final ↔
      peer.ownFinal? (peer.generated + 1) = some final) ∧
    (peer.ownFinal? (peer.generated + 1) = none →
      peer.generate.1 = .ofGeneration (peer.generated + 1)) ∧
    ∀ g, 0 < g → g ≤ peer.generated →
      (peer.locals.contains g = true ∧
        ∀ id, (g, id) ∈ start.ids actions ↔ id = .ofGeneration g) ∨
      (peer.locals.contains g = false ∧ peer.Covers g ∧
        ∃ final, peer.ownFinal? g = some final ∧
          ∀ id, (g, id) ∈ start.ids actions ↔ id = .ofFinal final) := by
  intro peer
  have accounted := created.accounted_replay honest
  have sound := accounted.sound
  refine ⟨fun _ => accounted.generate_eq_ofFinal_iff, accounted.generate_eq_ofGeneration,
    fun g hpos hle => ?_⟩
  obtain ⟨own, handed⟩ := created.exists_handedOut hpos hle
  have hids : ∀ id, (g, id) ∈ start.ids actions ↔ id = own := fun id =>
    (created.mem_ids_iff hpos hle).trans ⟨fun h => h.unique handed, fun h => h ▸ handed⟩
  cases handed with
  | asGeneration held => exact .inl ⟨sound.locals.contains_iff.2 held, hids⟩
  | asFinal free reserved =>
      refine .inr ⟨?_, sound.covers_iff.2 ⟨_, reserved⟩, _, reserved, hids⟩
      rw [← Bool.not_eq_true, sound.locals.contains_iff]
      exact free

theorem eager_replay_overflow :
    let session : SessionId := Position.toStableId ⟨5, by decide⟩
    let other : SessionId := Position.toStableId ⟨1000, by decide⟩
    let actions : List Action := [.setCapacity 1, .generate, .take,
      .finalize (.ofSpan session 1 1), .finalize (.ofSpan other 1 1), .generate, .generate, .take,
      .finalize (.ofSpan session 2 2)]
    let start := ofSession session
    let peer := start.replay actions
    Created session defaultCapacity start ∧ start.Honest actions ∧
      peer.generate.1 = .ofFinal 5 ∧ (∀ id, (1, id) ∈ start.ids actions ↔ id = .ofGeneration 1) ∧
      ∃ final, peer.ownFinal? 2 = some final ∧
        ∀ id, (2, id) ∈ start.ids actions ↔ id = .ofFinal final := by
  intro session other actions start peer
  have created : Created session defaultCapacity start := .standard session
  have honest : start.Honest actions := by decide +kernel
  obtain ⟨hfinal, -, hids⟩ := eager_replay created honest
  have hgenerated : peer.generated = 3 := by decide +kernel
  have hlocal : peer.locals.contains 1 = true := by decide +kernel
  have heager : peer.locals.contains 2 = false := by decide +kernel
  refine ⟨created, honest, (hfinal 5).2 (by decide +kernel), ?_, ?_⟩
  · rcases hids 1 (by decide) (hgenerated ▸ by decide) with ⟨-, h⟩ | ⟨hfalse, -⟩
    · exact h
    · rw [hlocal] at hfalse
      cases hfalse
  · rcases hids 2 (by decide) (hgenerated ▸ by decide) with ⟨htrue, -⟩ | ⟨-, -, h⟩
    · rw [heager] at htrue
      cases htrue
    · exact h

end Peer

end CompactIds
