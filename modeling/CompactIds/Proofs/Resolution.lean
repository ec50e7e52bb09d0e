import CompactIds.Proofs.Meaning

/-!
# What ids are sent as, and what they resolve to

A final id is sent as it is, and a held generation as its final id once that is
reserved.  An id in an operation resolves to an own id in the form in which it
was handed out, or to a final id of another session.  The limit is the only
bound on the latter, so a final id that is only reserved may pass.
-/

namespace CompactIds

namespace Tiling

theorem Laid.limit_le_nextBase {tiling : Tiling} (laid : tiling.Laid) :
    tiling.limit ≤ tiling.nextBase := by
  unfold limit nextBase
  cases htail : tiling.tail? with
  | none => exact Nat.le_refl 0
  | some c =>
      have hback : tiling.cluster? (tiling.size - 1) = some c := by
        rw [← htail, tail?, Array.back?_eq_getElem?]
        rfl
      exact Nat.add_le_add_left (laid.count_le hback) c.baseFinal

end Tiling

namespace Ledger.Sound

variable {ledger : Ledger} {final : Nat}

theorem exists_finalOf?_of_lt_nextBase (sound : ledger.Sound) (h : final < ledger.tiling.nextBase) :
    ∃ id g, ledger.finalOf? id .reserved g = some final := by
  obtain ⟨i, c, hc, hcontains⟩ := sound.laid.exists_containsFinal h
  obtain ⟨owner, howner⟩ := sound.linked.exists_owner hc
  rw [Cluster.containsFinal_iff] at hcontains
  refine ⟨owner, c.baseGeneration + (final - c.baseFinal), ?_⟩
  rw [Ledger.finalOf?_eq_some_iff sound.linked sound.laid]
  refine ⟨i, c, hc, howner, ?_, by omega⟩
  rw [Cluster.covers_iff, Cluster.endOf]
  omega

theorem exists_finalOf?_of_lt_limit (sound : ledger.Sound) (h : final < ledger.tiling.limit) :
    ∃ id g, ledger.finalOf? id .reserved g = some final :=
  sound.exists_finalOf?_of_lt_nextBase (Nat.lt_of_lt_of_le h sound.laid.limit_le_nextBase)

end Ledger.Sound

namespace Peer

variable {peer : Peer} {g final : Nat} {id : SessionSpaceId} {op : OpSpaceId}
  {origin : SessionId}

inductive Sends (peer : Peer) : SessionSpaceId → OpSpaceId → Prop
  | final (final : Nat) : Sends peer (.ofFinal final) (.ofFinal final)
  | reserved {g final : Nat} (held : peer.locals.Holds g)
      (reserved : peer.ownFinal? g = some final) :
      Sends peer (.ofGeneration g) (.ofFinal final)
  | generation {g : Nat} (held : peer.locals.Holds g) (unreserved : peer.ownFinal? g = none) :
      Sends peer (.ofGeneration g) (.ofGeneration g)

theorem toOp_eq_ok_iff : peer.toOp id = .ok op ↔ peer.toOp? id = some op := by
  unfold toOp
  cases peer.toOp? id <;> simp

private theorem Sound.sends_of_toOp?_ofGeneration (sound : peer.Sound) (hpos : 0 < g)
    (h : peer.toOp? (.ofGeneration g) = some op) : peer.Sends (.ofGeneration g) op := by
  simp only [toOp?, SpaceId.form_ofGeneration hpos, sound.locals.contains_iff,
    Option.ite_none_right_eq_some] at h
  cases hown : peer.ownFinal? g with
  | some final =>
      have hop : SpaceId.ofFinal final = op := by simpa [hown] using h.2
      exact hop ▸ .reserved h.1 hown
  | none =>
      have hop : SpaceId.ofGeneration g = op := by simpa [hown] using h.2
      exact hop ▸ .generation h.1 hown

theorem Sound.toOp?_eq_some_iff (sound : peer.Sound) :
    peer.toOp? id = some op ↔ peer.Sends id op := by
  constructor
  · intro h
    rcases id.eq_ofGeneration_or_eq_ofFinal with ⟨g, hpos, rfl⟩ | ⟨final, rfl⟩
    · exact sound.sends_of_toOp?_ofGeneration hpos h
    · have hop : SpaceId.ofFinal final = op := by simpa [toOp?] using h
      exact hop ▸ .final final
  · intro sends
    cases sends with
    | final final => simp [toOp?]
    | reserved held reserved =>
        have hpos := (sound.bounds_of_holds held).1
        simp [toOp?, SpaceId.form_ofGeneration hpos, sound.locals.contains_iff, held, reserved]
    | generation held unreserved =>
        have hpos := (sound.bounds_of_holds held).1
        simp [toOp?, SpaceId.form_ofGeneration hpos, sound.locals.contains_iff, held, unreserved]

/-- The op form of an own generation.  As a generation it means that only where
the peer itself is the sender. -/
def SentAs (peer : Peer) (g : Nat) (origin : SessionId) (op : OpSpaceId) : Prop :=
  origin = peer.session ∧ op = .ofGeneration g ∨
    ∃ final, peer.ownFinal? g = some final ∧ op = .ofFinal final

inductive Resolves (peer : Peer) : OpSpaceId → SessionId → SessionSpaceId → Prop
  | own {g : Nat} {op : OpSpaceId} {origin : SessionId} {id : SessionSpaceId}
      (positive : 0 < g) (generated : g ≤ peer.generated) (handed : peer.HandedOut g id)
      (sent : peer.SentAs g origin op) : Resolves peer op origin id
  | finalized {g final : Nat} {origin : SessionId} (positive : 0 < g)
      (foreign : origin ≠ peer.session)
      (finalized : peer.ledger.finalOf? origin .finalized g = some final) :
      Resolves peer (.ofGeneration g) origin (.ofFinal final)
  | below {final : Nat} {origin : SessionId} (unowned : ∀ g, peer.ownFinal? g ≠ some final)
      (below : final < peer.ledger.tiling.limit) :
      Resolves peer (.ofFinal final) origin (.ofFinal final)

theorem toSession_eq_ok_iff : peer.toSession op origin = .ok id ↔
    peer.toSession? op origin = some id := by
  unfold toSession
  cases peer.toSession? op origin <;> simp

theorem toSession?_ofFinal (final : Nat) (sender other : SessionId) :
    peer.toSession? (.ofFinal final) sender = peer.toSession? (.ofFinal final) other := by
  simp [toSession?]

namespace Sound

theorem ownGeneration?_eq_none_iff (sound : peer.Sound) :
    peer.ownGeneration? final = none ↔ ∀ g, peer.ownFinal? g ≠ some final := by
  simp only [Option.eq_none_iff_forall_ne_some, ne_eq, sound.ownGeneration?_eq_some_iff]

private theorem handedOut_of_lookup (sound : peer.Sound)
    (h : (if peer.locals.contains g then some (.ofGeneration g)
      else if g ≤ peer.generated then (peer.ownFinal? g).map .ofFinal else none) = some id) :
    g ≤ peer.generated ∧ peer.HandedOut g id := by
  split at h
  · rename_i hcontains
    cases h
    have held := sound.locals.contains_iff.1 hcontains
    exact ⟨(sound.bounds_of_holds held).2, .asGeneration held⟩
  · rename_i hfree
    rw [sound.locals.contains_iff] at hfree
    split at h
    · rename_i hle
      obtain ⟨final, hfinal, rfl⟩ := Option.map_eq_some_iff.1 h
      exact ⟨hle, .asFinal hfree hfinal⟩
    · cases h

private theorem resolves_of_toSession?_ofFinal (sound : peer.Sound)
    (h : peer.toSession? (.ofFinal final) origin = some id) :
    peer.Resolves (.ofFinal final) origin id := by
  simp only [toSession?, SpaceId.form_ofFinal] at h
  cases hown : peer.ownGeneration? final with
  | some g =>
      have hfinal := sound.ownGeneration?_eq_some_iff.1 hown
      simp only [hown] at h
      obtain ⟨hle, handed⟩ := sound.handedOut_of_lookup (by rw [hfinal]; exact h)
      exact .own (sound.one_le_of_ownFinal? hfinal) hle handed (.inr ⟨final, hfinal, rfl⟩)
  | none =>
      simp only [hown, Option.ite_none_right_eq_some, Option.some.injEq] at h
      rw [← h.2]
      exact .below (sound.ownGeneration?_eq_none_iff.1 hown) h.1

private theorem resolves_of_toSession?_ofGeneration (sound : peer.Sound) (hpos : 0 < g)
    (h : peer.toSession? (.ofGeneration g) origin = some id) :
    peer.Resolves (.ofGeneration g) origin id := by
  simp only [toSession?, SpaceId.form_ofGeneration hpos] at h
  split at h
  · rename_i hown
    obtain ⟨hle, handed⟩ := sound.handedOut_of_lookup h
    exact .own hpos hle handed (.inl ⟨hown, rfl⟩)
  · rename_i hother
    obtain ⟨final, hfinal, rfl⟩ := Option.map_eq_some_iff.1 h
    exact .finalized hpos hother hfinal

private theorem toSession?_of_resolves (sound : peer.Sound) (h : peer.Resolves op origin id) :
    peer.toSession? op origin = some id := by
  cases h with
  | own hpos hle handed sent =>
      have hback : ∀ {op}, peer.FormOf _ op → peer.toSession? op peer.session = some id :=
        fun form => toSession_eq_ok_iff.1 (handed.toSession sound hpos hle form)
      rcases sent with ⟨rfl, rfl⟩ | ⟨final, hfinal, rfl⟩
      · exact hback (.inl rfl)
      · rw [toSession?_ofFinal final origin peer.session]
        exact hback (.inr ⟨final, hfinal, rfl⟩)
  | finalized hpos hother hfinal =>
      exact toSession_eq_ok_iff.1 (toSession_ofGeneration hother hfinal hpos)
  | below unowned hlimit =>
      have hnone := sound.ownGeneration?_eq_none_iff.2 unowned
      simp [toSession?, hnone, hlimit]

theorem toSession?_eq_some_iff (sound : peer.Sound) :
    peer.toSession? op origin = some id ↔ peer.Resolves op origin id := by
  refine ⟨fun h => ?_, sound.toSession?_of_resolves⟩
  rcases op.eq_ofGeneration_or_eq_ofFinal with ⟨g, hpos, rfl⟩ | ⟨final, rfl⟩
  · exact sound.resolves_of_toSession?_ofGeneration hpos h
  · exact sound.resolves_of_toSession?_ofFinal h

end Sound

end Peer

end CompactIds
