import CompactIds.Proofs.Extends

/-!
# Positions of generations

The stable ids of a session lie at consecutive positions from the session's own
on.  A position is found to be reserved exactly if some cluster reserves the
generation that lies there, since no other owner lies between.
-/

namespace CompactIds

namespace Position

variable {p base : Position} {distance : Nat}

theorem above?_eq_some_iff :
    p.above? base = some distance ↔ p.val = base.val + distance ∧ distance < idLimit := by
  simp only [above?, Option.ite_none_right_eq_some, Option.some.injEq]
  omega

theorem val_offset (h : p.val + distance < 1 <<< 122) :
    (p.offset distance).val = p.val + distance := by
  simp only [offset, Nat.reduceShiftLeft] at *
  omega

end Position

/-- The stable id lies where the generation of the session does, and not around
the end of the range of positions. -/
def StableId.LiesAt (stable : StableId) (session : SessionId) (generation : Nat) : Prop :=
  stable.position.val + 1 = session.position.val + generation

theorem StableId.LiesAt.unique {stable : StableId} {session : SessionId} {g g' : Nat}
    (h : stable.LiesAt session g) (h' : stable.LiesAt session g') : g = g' := by
  unfold LiesAt at h h'
  omega

namespace Session

variable {stable : StableId} {session : SessionId} {g : Nat}

theorem stableIdOf_succ (session : SessionId) (n : Nat) :
    (ofId session).stableIdOf (n + 1) = (session.position.offset n).toStableId := by
  simp [stableIdOf, positionOf, position, ofId]

theorem liesAt_stableIdOf (hpos : 0 < g) (hfits : session.position.val + g ≤ 1 <<< 122) :
    ((ofId session).stableIdOf g).LiesAt session g := by
  obtain ⟨n, rfl⟩ : ∃ n, g = n + 1 := ⟨g - 1, by omega⟩
  rw [StableId.LiesAt, stableIdOf_succ, Position.position_toStableId,
    Position.val_offset (by omega), Nat.add_assoc]

theorem stableIdOf_of_liesAt (hpos : 0 < g) (h : stable.LiesAt session g) :
    (ofId session).stableIdOf g = stable := by
  have hfits : session.position.val + g ≤ 1 <<< 122 := by
    have := stable.position.isLt
    unfold StableId.LiesAt at h
    omega
  have hlies := liesAt_stableIdOf hpos hfits
  unfold StableId.LiesAt at h hlies
  apply StableId.position_injective
  apply Position.ext
  omega

end Session

namespace Ledger

variable {ledger : Ledger} {place i g : Nat} {s : Session} {c : Cluster} {id : SessionId}
  {p : Position} {extent : Extent}

namespace Sound

theorem ownerBelow?_eq_some_iff (sound : ledger.Sound) :
    ledger.registry.ownerBelow? p = some place ↔
      ∃ s, ledger.registry.session? place = some s ∧ s.isPopulated = true ∧ s.position ≤ p ∧
        ∀ q t, ledger.registry.session? q = some t → t.isPopulated = true →
          t.position ≤ p → t.position ≤ s.position := by
  unfold Registry.ownerBelow?
  rw [← List.findSome?_guard, PositionIndex.findSome?_upTo_eq_some_iff]
  simp only [Option.guard_eq_some_iff, Option.isSome_guard, Option.any_eq_true]
  constructor
  · rintro ⟨q, place, hfind, hle, ⟨rfl, s, hs, hpop⟩, hmax⟩
    obtain ⟨s', hs', rfl⟩ := (sound.linked.indexed _ _).1 hfind
    rw [hs] at hs'
    cases hs'
    refine ⟨s, hs, hpop, hle, fun q t ht htpop htle => ?_⟩
    exact hmax _ _ ((sound.linked.indexed _ _).2 ⟨t, ht, rfl⟩) htle ⟨t, ht, htpop⟩
  · rintro ⟨s, hs, hpop, hle, hmax⟩
    refine ⟨s.position, place, (sound.linked.indexed _ _).2 ⟨s, hs, rfl⟩, hle,
      ⟨rfl, s, hs, hpop⟩, ?_⟩
    rintro q' place' hfind hle' ⟨t, ht, htpop⟩
    obtain ⟨t', ht', rfl⟩ := (sound.linked.indexed _ _).1 hfind
    rw [ht] at ht'
    cases ht'
    exact hmax place' t ht htpop hle'

theorem ownerBelow?_of_reach (sound : ledger.Sound)
    (hs : ledger.registry.session? place = some s) (hpop : s.isPopulated = true)
    (hle : s.position ≤ p) (hreach : p.val < s.reach ledger.tiling) :
    ledger.registry.ownerBelow? p = some place := by
  refine sound.ownerBelow?_eq_some_iff.2 ⟨s, hs, hpop, hle, fun q t ht htpop htle => ?_⟩
  rw [Position.le_iff] at htle ⊢
  by_cases hplace : place = q
  · subst hplace
    rw [hs] at ht
    cases ht
    exact Nat.le_refl _
  · have hone := sound.linked.one_lt_endOf sound.laid ht htpop
    have := sound.apart.disjoint hs ht hplace hpop htpop
    unfold Session.reach at *
    omega

theorem one_le_baseGeneration (sound : ledger.Sound) (hc : ledger.tiling.cluster? i = some c) :
    1 ≤ c.baseGeneration := by
  rw [sound.laid.baseGeneration hc]
  exact Nat.le_add_right _ _

theorem clusterAt?_eq_some_iff (sound : ledger.Sound) :
    ledger.registry.clusterAt? p ledger.tiling = some (i, g) ↔
      ∃ c id, ledger.tiling.cluster? i = some c ∧ ledger.ownerOf? c = some id ∧
        c.covers .reserved g = true ∧ p.val + 1 = id.position.val + g := by
  have linked := sound.linked
  simp only [Registry.clusterAt?, Option.bind_eq_bind, Option.bind_eq_some_iff,
    Option.ite_none_right_eq_some, Option.some.injEq, Prod.mk.injEq]
  constructor
  · rintro ⟨place, -, s, hs, distance, habove, -, j, hj, rfl, rfl⟩
    obtain ⟨c, hc, rfl, hcovers⟩ := (clusterOfGeneration?_eq_some_iff linked sound.laid hs).1 hj
    obtain ⟨hval, -⟩ := Position.above?_eq_some_iff.1 habove
    refine ⟨c, s.id, hc, ownerOf?_eq_some_iff.2 ⟨s, hs, rfl⟩, hcovers, ?_⟩
    change p.val = s.id.position.val + distance at hval
    omega
  · rintro ⟨c, id, hc, howner, hcovers, hlies⟩
    obtain ⟨s, hs, rfl⟩ := ownerOf?_eq_some_iff.1 howner
    change p.val + 1 = s.position.val + g at hlies
    have hend := linked.lt_endOf_of_covers sound.laid hs hc rfl hcovers
    have hpop := (linked.isPopulated_iff hs).2 (linked.exists_isTail hc)
    have hone := sound.one_le_baseGeneration hc
    have hlimit := sound.endOf_le hc
    obtain ⟨hbase, hlt⟩ := Cluster.covers_iff.1 hcovers
    obtain ⟨n, rfl⟩ : ∃ n, g = n + 1 := ⟨g - 1, by omega⟩
    refine ⟨c.session, sound.ownerBelow?_of_reach hs hpop ?_ ?_, s, hs, n,
      Position.above?_eq_some_iff.2 ⟨by omega, by omega⟩, hend, i,
      (clusterOfGeneration?_eq_some_iff linked sound.laid hs).2 ⟨c, hc, rfl, hcovers⟩, rfl, rfl⟩
    · rw [Position.le_iff]
      omega
    · unfold Session.reach
      omega

theorem exists_span (sound : ledger.Sound) {final : Nat}
    (h : ledger.finalOf? id extent g = some final) :
    ∃ place s, ledger.registry.session? place = some s ∧ s.id = id ∧
      s.position.val + g ≤ s.reach ledger.tiling ∧ s.reach ledger.tiling ≤ 1 <<< 122 := by
  have linked := sound.linked
  obtain ⟨i, c, hc, howner, -, -⟩ :=
    (Ledger.finalOf?_eq_some_iff linked sound.laid).1 (sound.finalOf?_reserved h)
  have hend := lt_endOf_of_finalOf? linked sound.laid (sound.finalOf?_reserved h)
  obtain ⟨s, hs, rfl⟩ := ownerOf?_eq_some_iff.1 howner
  rw [linked.endOf_session hs] at hend
  refine ⟨c.session, s, hs, rfl, ?_, ?_⟩
  · unfold Session.reach
    omega
  · exact sound.apart.inside hs ((linked.isPopulated_iff hs).2 (linked.exists_isTail hc))

end Sound

end Ledger

end CompactIds
