import CompactIds.Proofs.OpIds

/-!
# The two forms of an own id

A generation of the own session can be written as itself, or as the final id
that is reserved for it.  At any time the peer reads both as the id that it
handed out for that generation.
-/

namespace CompactIds

def SpaceId.asOp (id : SessionSpaceId) : OpSpaceId :=
  ⟨id.value⟩

namespace Peer

variable {space : Space} {g g' final : Nat} {peer start : Peer} {id : SessionSpaceId}
  {op : OpSpaceId} {x : SpaceId space}

/-- The id is a generation of the own session, or the final id reserved for it. -/
def FormOf (peer : Peer) (g : Nat) (x : SpaceId space) : Prop :=
  x = .ofGeneration g ∨ ∃ final, peer.ownFinal? g = some final ∧ x = .ofFinal final

theorem FormOf.asOp (h : peer.FormOf g id) : peer.FormOf g id.asOp := by
  rcases h with rfl | ⟨final, hfinal, rfl⟩
  · exact .inl rfl
  · exact .inr ⟨final, hfinal, rfl⟩

theorem FormOf.unique (h : peer.FormOf g x) (h' : peer.FormOf g' x) (sound : peer.Sound)
    (hpos : 0 < g) (hpos' : 0 < g') : g = g' := by
  rcases h with rfl | ⟨final, hfinal, rfl⟩ <;> rcases h' with h' | ⟨final', hfinal', h'⟩
  · exact SpaceId.ofGeneration_inj.1 h'
  · exact absurd h' (SpaceId.ofGeneration_ne_ofFinal hpos final')
  · exact absurd h'.symm (SpaceId.ofGeneration_ne_ofFinal hpos' final)
  · rw [SpaceId.ofFinal_inj] at h'
    rw [sound.ownFinal?_eq, h'] at hfinal
    rw [sound.ownFinal?_eq] at hfinal'
    exact (Ledger.finalOf?_inj sound.ledger.linked sound.ledger.laid hfinal hfinal').2

theorem FormOf.replay (h : peer.FormOf g x) (sound : peer.Sound) (actions : List Action) :
    (peer.replay actions).FormOf g x := by
  rcases h with rfl | ⟨final, hfinal, rfl⟩
  · exact .inl rfl
  · exact .inr ⟨final, sound.ownFinal?_replay actions hfinal, rfl⟩

theorem HandedOut.formOf (h : peer.HandedOut g id) : peer.FormOf g id := by
  cases h with
  | asGeneration => exact .inl rfl
  | asFinal free reserved => exact .inr ⟨_, reserved, rfl⟩

theorem HandedOut.exists_toOp (h : peer.HandedOut g id) (sound : peer.Sound) (hpos : 0 < g) :
    ∃ op, peer.toOp id = .ok op ∧ peer.FormOf g op := by
  rcases h.toOp sound hpos with hop | ⟨final, hfinal, hop⟩
  · exact ⟨_, hop, .inl rfl⟩
  · exact ⟨_, hop, .inr ⟨final, hfinal, rfl⟩⟩

theorem HandedOut.toSession (h : peer.HandedOut g id) (sound : peer.Sound) (hpos : 0 < g)
    (hle : g ≤ peer.generated) (hop : peer.FormOf g op) :
    peer.toSession op peer.session = .ok id := by
  cases h with
  | asGeneration held =>
      have hcontains := sound.locals.contains_iff.2 held
      rcases hop with rfl | ⟨final, hfinal, rfl⟩
      · simp [Peer.toSession, toSession?, SpaceId.form_ofGeneration hpos, hcontains]
      · have hown := sound.ownGeneration?_eq_some_iff.2 hfinal
        simp [Peer.toSession, toSession?, hown, hcontains]
  | asFinal free reserved =>
      have hcontains : peer.locals.contains g = false := by
        rw [← Bool.not_eq_true, sound.locals.contains_iff]
        exact free
      rcases hop with rfl | ⟨final, hfinal, rfl⟩
      · simp [Peer.toSession, toSession?, SpaceId.form_ofGeneration hpos, hcontains, hle, reserved]
      · have hown := sound.ownGeneration?_eq_some_iff.2 hfinal
        rw [reserved, Option.some.injEq] at hfinal
        subst hfinal
        simp [Peer.toSession, toSession?, hown, hcontains, hle]

theorem toSession_toOp_later (origin : start.Origin) {actions : List Action}
    (hid : (g, id) ∈ start.ids actions) :
    ∃ op, (start.replay actions).toOp id = .ok op ∧
      ∀ later, (start.replay (actions ++ later)).toSession op start.session = .ok id := by
  obtain ⟨hpos, -, handed⟩ := origin.sound.handedOut_replay hid
  have sound := origin.sound.replay actions
  obtain ⟨op, hop, hform⟩ := handed.exists_toOp sound hpos
  refine ⟨op, hop, fun later => ?_⟩
  have hid' : (g, id) ∈ start.ids (actions ++ later) := by
    rw [ids_append]
    exact List.mem_append_left _ hid
  obtain ⟨-, hle, handed'⟩ := origin.sound.handedOut_replay hid'
  have hform' := hform.replay sound later
  rw [← replay_append] at hform'
  have hback := handed'.toSession (origin.sound.replay _) hpos hle hform'
  rwa [origin.sound.session_replay] at hback

theorem toSession_toOp_later_sequenced :
    let session : SessionId := Position.toStableId ⟨5, by decide⟩
    (ofSession session).Origin ∧
      (1, .ofGeneration 1) ∈ (ofSession session).ids [.generate, .take] ∧
      ∃ op, ((ofSession session).replay [.generate, .take]).toOp (.ofGeneration 1) = .ok op ∧
        ((ofSession session).replay
          ([.generate, .take] ++ [.finalize (.ofSpan session 1 1)])).toSession op session =
            .ok (.ofGeneration 1) := by
  intro session
  have origin : (ofSession session).Origin := .created (.standard session)
  have hid : (1, .ofGeneration 1) ∈ (ofSession session).ids [.generate, .take] := by
    decide +kernel
  obtain ⟨op, hop, hlater⟩ := toSession_toOp_later origin hid
  exact ⟨origin, hid, op, hop, hlater [.finalize (.ofSpan session 1 1)]⟩

end Peer

end CompactIds
