import CompactIds.Proofs.Resolution

/-!
# Answers are permanent

Whatever a peer has told about an id it goes on to tell, whatever it is asked
to do in between.  Only what was unknown may become known, and a generation
may be sent as its final id from some time on.
-/

namespace CompactIds

theorem Ledger.Extends.limit_le {ledger later : Ledger} (h : ledger.Extends later)
    (sound : ledger.Sound) (sound' : later.Sound) :
    ledger.tiling.limit ≤ later.tiling.limit := by
  rcases Nat.eq_zero_or_pos ledger.tiling.size with hzero | hpos
  · have hnil : ledger.tiling.clusters = #[] := Array.size_eq_zero_iff.1 hzero
    simp [Tiling.limit, Tiling.tail?, hnil]
  · obtain ⟨n, c, hlast, hc⟩ := Tiling.exists_last hpos
    obtain ⟨b, hb, hextends⟩ := h n (ledger.block c) (by rw [getElem?_blocks, hc]; rfl)
    rw [getElem?_blocks, Option.map_eq_some_iff] at hb
    obtain ⟨d, hd, rfl⟩ := hb
    have hbase : d.baseFinal = c.baseFinal := hextends.baseFinal
    have hcount : c.count ≤ d.count := hextends.count
    have hpos := sound.laid.count_pos hc
    have hlimit := sound'.laid.lt_limit hd (f := d.baseFinal + d.count - 1) (by omega)
    rw [Tiling.limit_of_tail hc hlast]
    omega

namespace Peer

variable {start peer middle later next : Peer} {g final : Nat} {id : SessionSpaceId}
  {op : OpSpaceId} {origin : SessionId} {stable : StableId} {action : Action}

/-- Each answer that the peer gives is given later, but for a generation that
is sent as such: it may be sent as a final id then. -/
structure Upholds (peer later : Peer) : Prop where
  expand : ∀ id stable, peer.expand? id = some stable → later.expand? id = some stable
  toSession : ∀ op origin id, peer.toSession op origin = .ok id →
    later.toSession op origin = .ok id
  toOp_ofFinal : ∀ id final, peer.toOp id = .ok (.ofFinal final) →
    later.toOp id = .ok (.ofFinal final)
  toOp_ofGeneration : ∀ id g, peer.toOp id = .ok (.ofGeneration g) →
    later.toOp id = .ok (.ofGeneration g) ∨ ∃ final, later.toOp id = .ok (.ofFinal final)

namespace Upholds

theorem refl (peer : Peer) : peer.Upholds peer where
  expand := fun _ _ h => h
  toSession := fun _ _ _ h => h
  toOp_ofFinal := fun _ _ h => h
  toOp_ofGeneration := fun _ _ h => .inl h

theorem trans (h : peer.Upholds middle) (h' : middle.Upholds later) : peer.Upholds later where
  expand := fun id stable hid => h'.expand id stable (h.expand id stable hid)
  toSession := fun op origin id hop => h'.toSession op origin id (h.toSession op origin id hop)
  toOp_ofFinal := fun id final hop => h'.toOp_ofFinal id final (h.toOp_ofFinal id final hop)
  toOp_ofGeneration := by
    intro id g hop
    rcases h.toOp_ofGeneration id g hop with hop | ⟨final, hop⟩
    · exact h'.toOp_ofGeneration id g hop
    · exact .inr ⟨final, h'.toOp_ofFinal id final hop⟩

end Upholds

namespace Step

theorem means (step : peer.Step action next) (sound : peer.Sound) (h : peer.Means id stable) :
    next.Means id stable := by
  have hsession := step.session_eq
  have sound' := step.sound sound
  cases h with
  | generation held =>
      rw [← hsession]
      exact .generation ((step.holds_iff (sound.bounds_of_holds held).2).2 held)
  | finalized finalized =>
      exact .finalized (sound.ledger.finalOf?_extends sound'.ledger (step.extends sound) finalized)
  | eager free generated reserved =>
      rw [← hsession]
      exact .eager (fun held => free ((step.holds_iff generated).1 held))
        (Nat.le_trans generated step.generated_le) (step.ownFinal? sound reserved)

theorem sentAs (step : peer.Step action next) (sound : peer.Sound) (h : peer.SentAs g origin op) :
    next.SentAs g origin op := by
  rcases h with ⟨horigin, rfl⟩ | ⟨final, hfinal, rfl⟩
  · exact .inl ⟨horigin.trans step.session_eq.symm, rfl⟩
  · exact .inr ⟨final, step.ownFinal? sound hfinal, rfl⟩

theorem unowned (step : peer.Step action next) (sound : peer.Sound)
    (hlimit : final < peer.ledger.tiling.limit) (h : ∀ g, peer.ownFinal? g ≠ some final) (g : Nat) :
    next.ownFinal? g ≠ some final := by
  have sound' := step.sound sound
  obtain ⟨owner, g', hfinal⟩ := sound.ledger.exists_finalOf?_of_lt_limit hlimit
  have hother : owner ≠ peer.session := by
    rintro rfl
    exact h g' (by rw [sound.ownFinal?_eq, hfinal])
  have hlater := sound.ledger.finalOf?_extends sound'.ledger (step.extends sound) hfinal
  intro hown
  rw [sound'.ownFinal?_eq, step.session_eq] at hown
  exact hother (Ledger.finalOf?_inj sound'.ledger.linked sound'.ledger.laid hlater hown).1

theorem resolves (step : peer.Step action next) (sound : peer.Sound)
    (h : peer.Resolves op origin id) : next.Resolves op origin id := by
  have sound' := step.sound sound
  have hextends := step.extends sound
  cases h with
  | own positive generated handed sent =>
      exact .own positive (Nat.le_trans generated step.generated_le)
        (step.handedOut sound generated handed) (step.sentAs sound sent)
  | finalized positive foreign finalized =>
      exact .finalized positive (step.session_eq ▸ foreign)
        (sound.ledger.finalOf?_extends sound'.ledger hextends finalized)
  | below unowned below =>
      exact .below (step.unowned sound below unowned)
        (Nat.lt_of_lt_of_le below (hextends.limit_le sound.ledger sound'.ledger))

theorem sends (step : peer.Step action next) (sound : peer.Sound) (h : peer.Sends id op) :
    next.Sends id op ∨
      (∃ g, 0 < g ∧ op = .ofGeneration g) ∧ ∃ final, next.Sends id (.ofFinal final) := by
  cases h with
  | final final => exact .inl (.final final)
  | reserved held reserved =>
      have held' := (step.holds_iff (sound.bounds_of_holds held).2).2 held
      exact .inl (.reserved held' (step.ownFinal? sound reserved))
  | @generation g held unreserved =>
      obtain ⟨hpos, hle⟩ := sound.bounds_of_holds held
      have held' := (step.holds_iff hle).2 held
      cases hown : next.ownFinal? g with
      | none => exact .inl (.generation held' hown)
      | some final => exact .inr ⟨⟨g, hpos, rfl⟩, final, .reserved held' hown⟩

theorem upholds (step : peer.Step action next) (sound : peer.Sound) : peer.Upholds next where
  expand := by
    intro id stable h
    rw [(step.sound sound).expand?_eq_some_iff]
    exact step.means sound (sound.expand?_eq_some_iff.1 h)
  toSession := by
    intro op origin id h
    rw [toSession_eq_ok_iff, sound.toSession?_eq_some_iff] at h
    rw [toSession_eq_ok_iff, (step.sound sound).toSession?_eq_some_iff]
    exact step.resolves sound h
  toOp_ofFinal := by
    intro id final h
    rw [toOp_eq_ok_iff, sound.toOp?_eq_some_iff] at h
    rw [toOp_eq_ok_iff, (step.sound sound).toOp?_eq_some_iff]
    rcases step.sends sound h with h | ⟨⟨g, hpos, hform⟩, -⟩
    · exact h
    · exact absurd hform.symm (SpaceId.ofGeneration_ne_ofFinal hpos final)
  toOp_ofGeneration := by
    intro id g h
    rw [toOp_eq_ok_iff, sound.toOp?_eq_some_iff] at h
    simp only [toOp_eq_ok_iff, (step.sound sound).toOp?_eq_some_iff]
    rcases step.sends sound h with h | ⟨-, hfinal⟩
    · exact .inl h
    · exact .inr hfinal

end Step

theorem Sound.upholds_later (sound : peer.Sound) (actions : List Action) :
    peer.Upholds (peer.replay actions) := by
  induction actions generalizing peer with
  | nil => exact .refl peer
  | cons action actions ih =>
      exact ((sound.step action).upholds sound).trans (ih (sound.perform action))

theorem upholds_replay (origin : start.Origin) (actions later : List Action) :
    (start.replay actions).Upholds (start.replay (actions ++ later)) := by
  rw [replay_append]
  exact (origin.sound.replay actions).upholds_later later

theorem upholds_replay_sequenced :
    let session : SessionId := Position.toStableId ⟨5, by decide⟩
    let peer := (ofSession session).replay [.generate, .take]
    let later := (ofSession session).replay
      ([.generate, .take] ++ [.finalize (.ofSpan session 1 1), .reload])
    (ofSession session).Origin ∧
      peer.toOp (.ofGeneration 1) = .ok (.ofGeneration 1) ∧
      later.toOp (.ofGeneration 1) = .ok (.ofFinal 0) ∧
      peer.toSession (.ofGeneration 1) session = .ok (.ofGeneration 1) ∧
      later.toSession (.ofGeneration 1) session = .ok (.ofGeneration 1) := by
  intro session peer later
  have origin : (ofSession session).Origin := .created (.standard session)
  have upholds := upholds_replay origin [.generate, .take]
    [.finalize (.ofSpan session 1 1), .reload]
  have hsession : peer.toSession (.ofGeneration 1) session = .ok (.ofGeneration 1) := by
    decide +kernel
  exact ⟨origin, by decide +kernel, by decide +kernel, hsession, upholds.toSession _ _ _ hsession⟩

end Peer

end CompactIds
