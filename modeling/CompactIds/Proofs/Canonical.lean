import CompactIds.Proofs.Resolution

/-!
# Resolved ids

What an id of an operation resolves to can be sent again, and resolves to
itself from then on.  It has a stable id as well, unless it is a final id that
another session only has in reserve: the limit lets that pass where clusters of
other sessions follow.
-/

namespace CompactIds

namespace SpaceId

variable {space : Space}

theorem isLocal_ofGeneration {generation : Nat} (h : 0 < generation) :
    (ofGeneration generation : SpaceId space).isLocal = true :=
  decide_eq_true (Int.neg_neg_of_pos (Int.natCast_pos.2 h))

@[simp] theorem isLocal_ofFinal (final : Nat) :
    (ofFinal final : SpaceId space).isLocal = false :=
  decide_eq_false (Int.not_lt.2 (Int.natCast_nonneg final))

end SpaceId

namespace Peer

variable {start peer : Peer} {g final : Nat} {id own : SessionSpaceId} {op : OpSpaceId}
  {sender : SessionId} {stable : StableId}

/-- A final id below the limit that another session has in reserve. -/
def InForeignReserve (peer : Peer) (op : OpSpaceId) : Prop :=
  ∃ final other g, op = .ofFinal final ∧ other ≠ peer.session ∧
    peer.ledger.finalOf? other .reserved g = some final ∧
    peer.ledger.finalOf? other .finalized g = none ∧ final < peer.ledger.tiling.limit

/-- An id is a generation, or it belongs to another session or to a generation
that the peer has reached. -/
def Reached (peer : Peer) (id : SessionSpaceId) : Prop :=
  id.isLocal = true ∨ ∃ other g final, id = .ofFinal final ∧
    peer.ledger.finalOf? other .reserved g = some final ∧
    (other ≠ peer.session ∨ g ≤ peer.generated)

theorem exists_handedOut (h : peer.ownFinal? g = some final) : ∃ id, peer.HandedOut g id := by
  by_cases held : peer.locals.Holds g
  · exact ⟨_, .asGeneration held⟩
  · exact ⟨_, .asFinal held h⟩

namespace Sound

variable (sound : peer.Sound)
include sound

theorem cases_of_means_ofFinal (h : peer.Means (.ofFinal final) stable) :
    (∃ origin g, peer.ledger.finalOf? origin .finalized g = some final) ∨
      ∃ g, g ≤ peer.generated ∧ ¬ peer.locals.Holds g ∧ peer.ownFinal? g = some final := by
  generalize hid : SpaceId.ofFinal final = id at h
  cases h with
  | generation held =>
      have hpos := (sound.bounds_of_holds held).1
      exact absurd hid.symm (SpaceId.ofGeneration_ne_ofFinal hpos final)
  | finalized finalized =>
      rw [SpaceId.ofFinal_inj] at hid
      subst hid
      exact .inl ⟨_, _, finalized⟩
  | eager free generated reserved =>
      rw [SpaceId.ofFinal_inj] at hid
      subst hid
      exact .inr ⟨_, generated, free, reserved⟩

theorem exists_toOp_ofFinal (h : peer.Resolves (.ofFinal final) peer.session (.ofFinal final)) :
    ∃ op, peer.toOp (.ofFinal final) = .ok op ∧
      peer.toSession op peer.session = .ok (.ofFinal final) := by
  refine ⟨.ofFinal final, ?_, ?_⟩
  · rw [toOp_eq_ok_iff, sound.toOp?_eq_some_iff]
    exact .final final
  · rw [toSession_eq_ok_iff, sound.toSession?_eq_some_iff]
    exact h

theorem exists_toOp_of_resolves (h : peer.Resolves op sender id) :
    ∃ op', peer.toOp id = .ok op' ∧ peer.toSession op' peer.session = .ok id := by
  cases h with
  | own positive generated handed sent =>
      obtain ⟨op', hop, hform⟩ := handed.exists_toOp sound positive
      exact ⟨op', hop, handed.toSession sound positive generated hform⟩
  | finalized positive foreign finalized =>
      apply sound.exists_toOp_ofFinal
      rw [← sound.toSession?_eq_some_iff, ← toSession_eq_ok_iff]
      exact sound.toSession_ofFinal foreign finalized peer.session
  | below unowned below => exact sound.exists_toOp_ofFinal (.below unowned below)

theorem not_inForeignReserve_of_own (h : peer.ownFinal? g = some final) :
    ¬ peer.InForeignReserve (.ofFinal final) := by
  rintro ⟨final', other, g', hfinal, hother, hreserved, -⟩
  rw [SpaceId.ofFinal_inj] at hfinal
  subst hfinal
  rw [sound.ownFinal?_eq] at h
  exact hother (Ledger.finalOf?_inj sound.ledger.linked sound.ledger.laid hreserved h).1

theorem expand?_eq_none_iff_of_below (unowned : ∀ g, peer.ownFinal? g ≠ some final)
    (below : final < peer.ledger.tiling.limit) :
    peer.expand? (.ofFinal final) = none ↔ peer.InForeignReserve (.ofFinal final) := by
  constructor
  · intro hnone
    obtain ⟨other, g, hreserved⟩ := sound.ledger.exists_finalOf?_of_lt_limit below
    have hother : other ≠ peer.session := by
      rintro rfl
      exact unowned g (by rw [sound.ownFinal?_eq, hreserved])
    refine ⟨final, other, g, rfl, hother, hreserved, ?_, below⟩
    rw [Option.eq_none_iff_forall_ne_some]
    intro final' hfinalized
    have hsame := sound.ledger.finalOf?_reserved hfinalized
    rw [hreserved, Option.some.injEq] at hsame
    subst hsame
    rw [sound.expand?_of_finalized hfinalized] at hnone
    cases hnone
  · rintro ⟨final', other, g, hfinal, -, hreserved, hunfinalized, -⟩
    rw [SpaceId.ofFinal_inj] at hfinal
    subst hfinal
    rw [Option.eq_none_iff_forall_ne_some]
    intro stable hstable
    rcases sound.cases_of_means_ofFinal (sound.expand?_eq_some_iff.1 hstable) with
      ⟨origin, g', hfinalized⟩ | ⟨g', -, -, hown⟩
    · obtain ⟨rfl, rfl⟩ := Ledger.finalOf?_inj sound.ledger.linked sound.ledger.laid hreserved
        hfinalized
      rw [hunfinalized] at hfinalized
      cases hfinalized
    · exact unowned g' hown

theorem expand?_eq_none_iff_of_resolves (h : peer.Resolves op sender id) :
    peer.expand? id = none ↔ peer.InForeignReserve op := by
  cases h with
  | own positive generated handed sent =>
      rw [handed.expand? sound positive generated]
      simp only [reduceCtorEq, false_iff]
      rcases sent with ⟨-, rfl⟩ | ⟨final, hfinal, rfl⟩
      · rintro ⟨final, other, g, hop, -⟩
        exact SpaceId.ofGeneration_ne_ofFinal positive final hop
      · exact sound.not_inForeignReserve_of_own hfinal
  | finalized positive foreign finalized =>
      rw [sound.expand?_of_finalized finalized]
      simp only [reduceCtorEq, false_iff]
      rintro ⟨final, other, g, hop, -⟩
      exact SpaceId.ofGeneration_ne_ofFinal positive final hop
  | below unowned below => exact sound.expand?_eq_none_iff_of_below unowned below

theorem le_generated_of_resolves (hown : peer.ownFinal? g = some final)
    (h : peer.Resolves (.ofFinal final) sender own) : g ≤ peer.generated := by
  generalize hop : SpaceId.ofFinal final = op at h
  cases h with
  | @own g' op sender id positive generated handed sent =>
      subst hop
      rcases sent with ⟨-, hop⟩ | ⟨final', hfinal, hop⟩
      · exact absurd hop.symm (SpaceId.ofGeneration_ne_ofFinal positive final)
      · rw [SpaceId.ofFinal_inj] at hop
        subst hop
        rw [sound.ownFinal?_eq] at hown hfinal
        rwa [(Ledger.finalOf?_inj sound.ledger.linked sound.ledger.laid hown hfinal).2]
  | finalized positive foreign finalized =>
      exact absurd hop.symm (SpaceId.ofGeneration_ne_ofFinal positive final)
  | below unowned below =>
      rw [SpaceId.ofFinal_inj] at hop
      subst hop
      exact absurd hown (unowned g)

theorem le_generated_of_reached (hown : peer.ownFinal? g = some final)
    (reached : peer.Reached (.ofFinal final)) : g ≤ peer.generated := by
  rcases reached with hlocal | ⟨other, g', final', hfinal, hreserved, hreached⟩
  · rw [SpaceId.isLocal_ofFinal] at hlocal
    cases hlocal
  · rw [SpaceId.ofFinal_inj] at hfinal
    subst hfinal
    rw [sound.ownFinal?_eq] at hown
    obtain ⟨rfl, rfl⟩ := Ledger.finalOf?_inj sound.ledger.linked sound.ledger.laid hreserved hown
    exact hreached.resolve_left (absurd rfl)

theorem exists_own_of_handedOut (hpos : 0 < g) (hle : g ≤ peer.generated)
    (handed : peer.HandedOut g own) (hform : peer.FormOf g id) :
    ∃ own, peer.toSession id.asOp peer.session = .ok own ∧
      peer.expand? own = some ((Session.ofId peer.session).stableIdOf g) :=
  ⟨own, handed.toSession sound hpos hle hform.asOp, handed.expand? sound hpos hle⟩

theorem exists_own_of_means (means : peer.Means id stable) (reached : peer.Reached id) :
    ∃ own, peer.toSession id.asOp peer.session = .ok own ∧ peer.expand? own = some stable := by
  cases means with
  | generation held =>
      obtain ⟨hpos, hle⟩ := sound.bounds_of_holds held
      exact sound.exists_own_of_handedOut hpos hle (.asGeneration held) (.inl rfl)
  | @finalized origin g final finalized =>
      have hreserved := sound.ledger.finalOf?_reserved finalized
      by_cases hown : origin = peer.session
      · subst hown
        rw [← sound.ownFinal?_eq] at hreserved
        obtain ⟨own, handed⟩ := exists_handedOut hreserved
        exact sound.exists_own_of_handedOut (sound.one_le_of_ownFinal? hreserved)
          (sound.le_generated_of_reached hreserved reached) handed (.inr ⟨final, hreserved, rfl⟩)
      · exact ⟨.ofFinal final, sound.toSession_ofFinal hown finalized peer.session,
          sound.expand?_of_finalized finalized⟩
  | eager free generated reserved =>
      exact sound.exists_own_of_handedOut (sound.one_le_of_ownFinal? reserved) generated
        (.asFinal free reserved) (.inr ⟨_, reserved, rfl⟩)

theorem reached_of_means (means : peer.Means id stable)
    (h : peer.toSession id.asOp peer.session = .ok own) : peer.Reached id := by
  rw [toSession_eq_ok_iff, sound.toSession?_eq_some_iff] at h
  cases means with
  | generation held => exact .inl (SpaceId.isLocal_ofGeneration (sound.bounds_of_holds held).1)
  | @finalized origin g final finalized =>
      have hreserved := sound.ledger.finalOf?_reserved finalized
      refine .inr ⟨origin, g, final, rfl, hreserved, ?_⟩
      by_cases hown : origin = peer.session
      · rw [hown, ← sound.ownFinal?_eq] at hreserved
        exact .inr (sound.le_generated_of_resolves hreserved h)
      · exact .inl hown
  | @eager g final free generated reserved =>
      rw [sound.ownFinal?_eq] at reserved
      exact .inr ⟨peer.session, g, final, rfl, reserved, .inr generated⟩

end Sound

theorem canonical_replay (origin : start.Origin) (actions : List Action) :
    let peer := start.replay actions
    (∀ op sender id, peer.toSession op sender = .ok id →
      (∃ op', peer.toOp id = .ok op' ∧ peer.toSession op' peer.session = .ok id) ∧
        (peer.expand? id = none ↔ peer.InForeignReserve op)) ∧
    ∀ id stable, peer.expand? id = some stable →
      (peer.Reached id ↔
        ∃ own, peer.toSession id.asOp peer.session = .ok own ∧ peer.expand? own = some stable) := by
  intro peer
  have sound : peer.Sound := origin.sound.replay actions
  constructor
  · intro op sender id h
    rw [toSession_eq_ok_iff, sound.toSession?_eq_some_iff] at h
    exact ⟨sound.exists_toOp_of_resolves h, sound.expand?_eq_none_iff_of_resolves h⟩
  · intro id stable h
    have means := sound.expand?_eq_some_iff.1 h
    constructor
    · exact sound.exists_own_of_means means
    · rintro ⟨own, hsession, -⟩
      exact sound.reached_of_means means hsession

theorem canonical_replay_reserve :
    let own : SessionId := Position.toStableId ⟨5, by decide⟩
    let first : SessionId := Position.toStableId ⟨1000, by decide⟩
    let next : SessionId := Position.toStableId ⟨2000, by decide⟩
    let peer := (ofSession own).replay [.finalize (.ofSpan first 1 1),
      .finalize (.ofSpan next 1 1)]
    (ofSession own).Origin ∧ peer.toSession (.ofFinal 7) first = .ok (.ofFinal 7) ∧
      (∃ op, peer.toOp (.ofFinal 7) = .ok op ∧
        peer.toSession op peer.session = .ok (.ofFinal 7)) ∧
      peer.InForeignReserve (.ofFinal 7) ∧
      peer.expand? (.ofFinal 0) = some first ∧ peer.Reached (.ofFinal 0) := by
  intro own first next peer
  have origin : (ofSession own).Origin := .created (.standard own)
  obtain ⟨hresolved, hexpanded⟩ := canonical_replay origin [.finalize (.ofSpan first 1 1),
    .finalize (.ofSpan next 1 1)]
  have hsession : peer.toSession (.ofFinal 7) first = .ok (.ofFinal 7) := by decide +kernel
  have hnone : peer.expand? (.ofFinal 7) = none := by decide +kernel
  have hsome : peer.expand? (.ofFinal 0) = some first := by decide +kernel
  have hback : peer.toSession (.ofFinal 0) peer.session = .ok (.ofFinal 0) := by decide +kernel
  obtain ⟨hagain, hreserve⟩ := hresolved _ _ _ hsession
  exact ⟨origin, hsession, hagain, hreserve.1 hnone, hsome,
    (hexpanded _ _ hsome).2 ⟨_, hback, hsome⟩⟩

end Peer

end CompactIds
