import CompactIds.Peer.Conversion
import CompactIds.Proofs.Generated

/-!
# Ids in operations

A peer sends an id as a generation or as a final id, depending on how much of
the common sequence it knows.  All other peers read the same either way.
-/

namespace CompactIds

namespace Peer

variable {session origin : SessionId} {capacity g final i : Nat} {peer : Peer}
  {id : SessionSpaceId} {c : Cluster}

theorem stableIdOf_ofId {s : Session} (h : s.id = session) (g : Nat) :
    s.stableIdOf g = (Session.ofId session).stableIdOf g := by
  subst h
  rfl

theorem Sound.expand?_ofFinal (sound : peer.Sound) (hc : peer.ledger.tiling.cluster? i = some c)
    (howner : peer.ledger.ownerOf? c = some origin) (hcovers : c.covers .reserved g = true)
    (hholds : peer.holdsFinal c g = true) :
    peer.expand? (.ofFinal (c.baseFinal + (g - c.baseGeneration))) =
      some ((Session.ofId origin).stableIdOf g) := by
  obtain ⟨s, hs, hid⟩ := Ledger.ownerOf?_eq_some_iff.1 howner
  have hgeneration : c.generationOf? (c.baseFinal + (g - c.baseGeneration)) = some g := by
    rw [Cluster.generationOf?_eq_some_iff, Cluster.finalOf?, if_pos hcovers]
  have hcontains : c.containsFinal (c.baseFinal + (g - c.baseGeneration)) = true := by
    rw [Cluster.generationOf?, Option.ite_none_right_eq_some] at hgeneration
    exact hgeneration.1
  have hplace := sound.ledger.laid.clusterOfFinal?_eq_some_iff.2 ⟨c, hc, hcontains⟩
  simp [expand?, hplace, hc, hgeneration, hs, hholds, stableIdOf_ofId hid]

theorem Sound.expand?_of_finalized (sound : peer.Sound)
    (h : peer.ledger.finalOf? origin .finalized g = some final) :
    peer.expand? (.ofFinal final) = some ((Session.ofId origin).stableIdOf g) := by
  rw [Ledger.finalOf?_eq_some_iff sound.ledger.linked sound.ledger.laid] at h
  obtain ⟨i, c, hc, howner, hcovers, rfl⟩ := h
  obtain ⟨hbase, hend⟩ := Cluster.covers_iff.1 hcovers
  have hreserved := Nat.lt_of_lt_of_le hend (sound.ledger.laid.endOf_le hc .finalized)
  apply sound.expand?_ofFinal hc howner (Cluster.covers_iff.2 ⟨hbase, hreserved⟩)
  simp [holdsFinal, hend]

theorem HandedOut.expand? (h : peer.HandedOut g id) (sound : peer.Sound) (hpos : 0 < g)
    (hle : g ≤ peer.generated) :
    peer.expand? id = some ((Session.ofId peer.session).stableIdOf g) := by
  cases h with
  | asGeneration held =>
      obtain ⟨s, hs, hid⟩ := sound.own
      have hcontains := sound.locals.contains_iff.2 held
      simp [Peer.expand?, SpaceId.form_ofGeneration hpos, hs, hcontains, stableIdOf_ofId hid]
  | asFinal free reserved =>
      obtain ⟨i, c, hc, howner, hcovers, rfl⟩ := sound.ownFinal?_eq_some_iff.1 reserved
      apply sound.expand?_ofFinal hc howner hcovers
      have hcontains : peer.locals.contains g = false := by
        rw [← Bool.not_eq_true, sound.locals.contains_iff]
        exact free
      simp [holdsFinal, sound.ownerOf?_eq_iff.1 howner, hcontains, hle]

theorem HandedOut.toOp (h : peer.HandedOut g id) (sound : peer.Sound) (hpos : 0 < g) :
    peer.toOp id = .ok (.ofGeneration g) ∨
      ∃ final, peer.ownFinal? g = some final ∧ peer.toOp id = .ok (.ofFinal final) := by
  cases h with
  | asGeneration held =>
      have hcontains := sound.locals.contains_iff.2 held
      simp only [Peer.toOp, toOp?, SpaceId.form_ofGeneration hpos, hcontains, if_true]
      cases hfinal : peer.ownFinal? g with
      | none => exact .inl rfl
      | some final => exact .inr ⟨final, rfl, rfl⟩
  | @asFinal final free reserved =>
      refine .inr ⟨final, reserved, ?_⟩
      simp [Peer.toOp, toOp?]

theorem HandedOut.ownFinal?_eq (h : peer.HandedOut g (.ofFinal final)) (hpos : 0 < g) :
    peer.ownFinal? g = some final := by
  generalize hid : SpaceId.ofFinal final = id at h
  cases h with
  | asGeneration => exact absurd hid.symm (SpaceId.ofGeneration_ne_ofFinal hpos final)
  | asFinal free reserved => rwa [SpaceId.ofFinal_inj.1 hid]

theorem toSession_ofGeneration (hother : origin ≠ peer.session)
    (h : peer.ledger.finalOf? origin .finalized g = some final) (hpos : 0 < g) :
    peer.toSession (.ofGeneration g) origin = .ok (.ofFinal final) := by
  simp [toSession, toSession?, SpaceId.form_ofGeneration hpos, hother, h]

section Receiving

variable (sound : peer.Sound) (hother : origin ≠ peer.session)
  (h : peer.ledger.finalOf? origin .finalized g = some final)

include sound hother h

theorem Sound.ownGeneration?_eq_none : peer.ownGeneration? final = none := by
  rw [Option.eq_none_iff_forall_ne_some]
  intro own hown
  rw [sound.ownGeneration?_eq_some_iff, sound.ownFinal?_eq] at hown
  exact hother (Ledger.finalOf?_inj sound.ledger.linked sound.ledger.laid h hown).1

theorem Sound.toSession_ofFinal (sender : SessionId) :
    peer.toSession (.ofFinal final) sender = .ok (.ofFinal final) := by
  have hnone := sound.ownGeneration?_eq_none hother h
  rw [Ledger.finalOf?_eq_some_iff sound.ledger.linked sound.ledger.laid] at h
  obtain ⟨i, c, hc, -, hcovers, rfl⟩ := h
  have hlimit : c.baseFinal + (g - c.baseGeneration) < peer.ledger.tiling.limit := by
    apply sound.ledger.laid.lt_limit hc
    simp only [Cluster.covers_iff, Cluster.endOf] at hcovers
    omega
  simp [toSession, toSession?, hnone, hlimit]

theorem Sound.toSession_eq (hpos : 0 < g) {op : OpSpaceId}
    (hop : op = .ofGeneration g ∨ op = .ofFinal final) :
    peer.toSession op origin = .ok (.ofFinal final) := by
  rcases hop with rfl | rfl
  · exact toSession_ofGeneration hother h hpos
  · exact sound.toSession_ofFinal hother h origin

end Receiving

theorem toSession_toOp (created : Created session capacity peer) {log actions : List Action}
    (applied : actions.filter Action.isShared <+: log) (hid : (g, id) ∈ peer.ids actions) :
    ∃ op final stable,
      (peer.replay actions).toOp id = .ok op ∧
      (peer.replay actions).expand id = .ok stable ∧
      (∀ eager, id = .ofFinal eager → eager = final) ∧
      (∀ origin other actions', origin ≠ session → Created origin capacity other →
        actions'.filter Action.isShared <+: log →
        g < (other.replay actions').ledger.endOf session .finalized →
        (other.replay actions').toSession op session = .ok (.ofFinal final) ∧
          (other.replay actions').expand? (.ofFinal final) = some stable) ∧
      ∀ actions', actions'.filter Action.isShared <+: log →
        g < (peer.replay actions').ledger.endOf session .reserved →
        (peer.replay actions').ownFinal? g = some final := by
  have sound := created.sound.replay actions
  have recorded := created.recorded.replay actions
  rw [List.nil_append] at recorded
  obtain ⟨hpos, hle⟩ := recorded.bounds hid
  have handed := recorded.entry hid
  obtain ⟨final, hfinal⟩ := created.exists_final log session g
  -- Every final id that the sender ever reserves for the generation is the common one.
  have hown : ∀ {actions' v}, actions'.filter Action.isShared <+: log →
      (peer.replay actions').ownFinal? g = some v → v = final := by
    intro actions' v applied' h
    rw [(created.sound.replay actions').ownFinal?_eq, created.sound.session_replay,
      created.session_eq] at h
    exact hfinal created applied' h
  have hop : ∃ op, (peer.replay actions).toOp id = .ok op ∧
      (op = .ofGeneration g ∨ op = .ofFinal final) := by
    rcases handed.toOp sound hpos with h | ⟨v, hv, h⟩
    · exact ⟨_, h, .inl rfl⟩
    · exact ⟨_, h, .inr (by rw [hown applied hv])⟩
  obtain ⟨op, htoOp, hop⟩ := hop
  refine ⟨op, final, (Session.ofId session).stableIdOf g, htoOp, ?_, ?_, ?_, ?_⟩
  · have hexpand := handed.expand? sound hpos hle
    rw [created.sound.session_replay, created.session_eq] at hexpand
    simp [expand, hexpand]
  · rintro eager rfl
    exact hown applied (handed.ownFinal?_eq hpos)
  · intro origin other actions' hother created' applied' hg
    have sound' := created'.sound.replay actions'
    have hsession : session ≠ (other.replay actions').session := by
      rw [created'.sound.session_replay, created'.session_eq]
      exact hother.symm
    obtain ⟨v, hv⟩ := Ledger.exists_finalOf? sound'.ledger.linked sound'.ledger.laid hpos hg
    obtain rfl := hfinal created' applied' hv
    exact ⟨sound'.toSession_eq hsession hv hpos hop, sound'.expand?_of_finalized hv⟩
  · intro actions' applied' hg
    have sound' := created.sound.replay actions'
    obtain ⟨v, hv⟩ := Ledger.exists_finalOf? sound'.ledger.linked sound'.ledger.laid hpos hg
    rw [sound'.ownFinal?_eq, created.sound.session_replay, created.session_eq, hv,
      hfinal created applied' hv]

/-- The sender has not seen its range come back; the receiver has. -/
theorem toSession_toOp_ahead :
    let sender : SessionId := Position.toStableId ⟨5, by decide⟩
    let receiver : SessionId := Position.toStableId ⟨6, by decide⟩
    let range : CreationRange := .ofSpan sender 1 1
    Created sender defaultCapacity (ofSession sender) ∧ receiver ≠ sender ∧
      Created receiver defaultCapacity (ofSession receiver) ∧
      (1, .ofGeneration 1) ∈ (ofSession sender).ids [.generate, .take] ∧
      1 < ((ofSession receiver).replay [.finalize range]).ledger.endOf sender .finalized ∧
      ∃ op final stable,
        ((ofSession sender).replay [.generate, .take]).toOp (.ofGeneration 1) = .ok op ∧
        ((ofSession sender).replay [.generate, .take]).expand (.ofGeneration 1) = .ok stable ∧
        ((ofSession receiver).replay [.finalize range]).toSession op sender =
          .ok (.ofFinal final) ∧
        ((ofSession receiver).replay [.finalize range]).expand? (.ofFinal final) =
          some stable := by
  intro sender receiver range
  have hne : receiver ≠ sender := by decide +kernel
  have hid : (1, .ofGeneration 1) ∈ (ofSession sender).ids [.generate, .take] := by
    decide +kernel
  have hend :
      1 < ((ofSession receiver).replay [.finalize range]).ledger.endOf sender .finalized := by
    decide +kernel
  have applied : [Action.generate, .take].filter Action.isShared <+: [.finalize range] :=
    List.nil_prefix
  obtain ⟨op, final, stable, hop, hstable, -, hreceive, -⟩ :=
    toSession_toOp (.standard sender) applied hid
  obtain ⟨hsession, hexpand⟩ := hreceive receiver (ofSession receiver) [.finalize range] hne
    (.standard receiver) (List.prefix_refl _) hend
  exact ⟨.standard _, hne, .standard _, hid, hend, op, final, stable, hop, hstable, hsession,
    hexpand⟩

end Peer

end CompactIds
