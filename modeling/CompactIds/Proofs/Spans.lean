import CompactIds.Proofs.Chain

/-!
# Spans of positions

The positions reserved for a session form one span from the session's own
position on.  The spans of different sessions do not meet, which is why a look
at the nearest neighbour tells whether a new span meets any of them.
-/

namespace CompactIds

namespace Session

/-- One past the last position reserved for the session. -/
def reach (s : Session) (tiling : Tiling) : Nat :=
  s.position.val + (s.endOf .reserved tiling - 1)

theorem position_eq {s : Session} {id : SessionId} (h : s.id = id) :
    s.position = id.position := by
  rw [position, h]

end Session

namespace Ledger

variable {ledger : Ledger} {place q : Nat} {s t : Session} {owner other : SessionId}
  {p base last : Position} {length : Nat}

structure Apart (ledger : Ledger) : Prop where
  inside : ∀ {place s}, ledger.registry.session? place = some s → s.isPopulated = true →
    s.reach ledger.tiling ≤ 1 <<< 122
  disjoint : ∀ {p q s t}, ledger.registry.session? p = some s →
    ledger.registry.session? q = some t → p ≠ q → s.isPopulated = true →
    t.isPopulated = true →
    s.reach ledger.tiling ≤ t.position.val ∨ t.reach ledger.tiling ≤ s.position.val

/-- A span meets no span of a session other than its owner. -/
structure Clear (ledger : Ledger) (owner : SessionId) (base : Position) (length : Nat) :
    Prop where
  inside : base.val + length ≤ 1 <<< 122
  apart : ∀ {place t}, ledger.registry.session? place = some t → t.isPopulated = true →
    t.id ≠ owner →
    base.val + length ≤ t.position.val ∨ t.reach ledger.tiling ≤ base.val

structure Sound (ledger : Ledger) : Prop where
  capacity : 1 ≤ ledger.capacity ∧ ledger.capacity ≤ largestCapacity
  linked : ledger.Linked
  laid : ledger.tiling.Laid
  nextBase_le : ledger.tiling.nextBase ≤ idLimit
  endOf_le : ∀ {i c}, ledger.tiling.cluster? i = some c → c.endOf .reserved ≤ idLimit
  apart : ledger.Apart

namespace Sound

theorem lastReserved?_populated (sound : ledger.Sound)
    (hs : ledger.registry.session? place = some s) (hpop : s.isPopulated = true) :
    ∃ last, s.lastReserved? ledger.tiling = some last ∧
      last.val + 1 = s.reach ledger.tiling := by
  obtain ⟨i, c, htail, hc, -, hback⟩ := sound.linked.exists_tail hs hpop
  have hone := sound.linked.one_lt_endOf sound.laid hs hpop
  have hinside := sound.apart.inside hs hpop
  unfold Session.reach at hinside
  have hend := sound.linked.endOf_of_isTail hs htail hc .reserved
  refine ⟨s.positionOf (c.endOf .reserved - 1), ?_, ?_⟩
  · simp [Session.lastReserved?, hback]
  · rw [← hend]
    simp only [Session.positionOf, Position.offset, Session.reach, Nat.reduceShiftLeft]
    omega

theorem isPopulated_of_lastReserved? {tiling : Tiling} {last : Position}
    (h : s.lastReserved? tiling = some last) : s.isPopulated = true := by
  cases hpop : s.isPopulated with
  | true => rfl
  | false => simp [Session.lastReserved?, Session.tail?_eq_none hpop] at h

private theorem reservedBy?_eq_some_iff {r : SessionId × Position} :
    ledger.registry.reservedBy? owner ledger.tiling place = some r ↔
      ∃ s, ledger.registry.session? place = some s ∧ s.id ≠ owner ∧
        s.lastReserved? ledger.tiling = some r.2 ∧ s.id = r.1 := by
  obtain ⟨id, last⟩ := r
  simp only [Registry.reservedBy?, Option.bind_eq_bind, Option.bind_eq_some_iff,
    Option.ite_none_left_eq_some, Option.some.injEq, Prod.mk.injEq]
  constructor
  · rintro ⟨s, hs, hne, l, hl, hid, rfl⟩
    exact ⟨s, hs, hne, hl, hid⟩
  · rintro ⟨s, hs, hne, hl, hid⟩
    exact ⟨s, hs, hne, last, hl, hid, rfl⟩

private theorem reservedBy?_isSome_iff (sound : ledger.Sound) (owner : SessionId)
    (hs : ledger.registry.session? place = some s) :
    (ledger.registry.reservedBy? owner ledger.tiling place).isSome ↔
      s.id ≠ owner ∧ s.isPopulated = true := by
  rw [Option.isSome_iff_exists]
  constructor
  · rintro ⟨r, hr⟩
    obtain ⟨t, ht, hne, hlast, -⟩ := reservedBy?_eq_some_iff.1 hr
    rw [hs] at ht
    cases ht
    exact ⟨hne, isPopulated_of_lastReserved? hlast⟩
  · rintro ⟨hne, hpop⟩
    obtain ⟨last, hlast, -⟩ := sound.lastReserved?_populated hs hpop
    exact ⟨(s.id, last), reservedBy?_eq_some_iff.2 ⟨s, hs, hne, hlast, rfl⟩⟩

theorem nearestOther?_eq_none_iff (sound : ledger.Sound) :
    ledger.registry.nearestOther? owner p ledger.tiling = none ↔
      ∀ place s, ledger.registry.session? place = some s → s.position ≤ p → s.id ≠ owner →
        s.isPopulated = false := by
  unfold Registry.nearestOther?
  rw [PositionIndex.findSome?_upTo_eq_none_iff]
  constructor
  · intro h place s hs hle hne
    have hnone := h _ _ ((sound.linked.indexed _ _).2 ⟨s, hs, rfl⟩) hle
    cases hpop : s.isPopulated with
    | false => rfl
    | true =>
        have hsome := (sound.reservedBy?_isSome_iff owner hs).2 ⟨hne, hpop⟩
        rw [hnone] at hsome
        cases hsome
  · intro h q place hfind hle
    obtain ⟨s, hs, rfl⟩ := (sound.linked.indexed _ _).1 hfind
    rw [Option.eq_none_iff_forall_ne_some]
    intro r hr
    obtain ⟨hne, hpop⟩ := (sound.reservedBy?_isSome_iff owner hs).1
      (Option.isSome_iff_exists.2 ⟨r, hr⟩)
    rw [h place s hs hle hne] at hpop
    cases hpop

theorem nearestOther?_eq_some_iff (sound : ledger.Sound) :
    ledger.registry.nearestOther? owner p ledger.tiling = some (other, last) ↔
      ∃ place s, ledger.registry.session? place = some s ∧ s.position ≤ p ∧ s.id ≠ owner ∧
        s.lastReserved? ledger.tiling = some last ∧ s.id = other ∧
        ∀ q t, ledger.registry.session? q = some t → t.position ≤ p → t.id ≠ owner →
          t.isPopulated = true → t.position ≤ s.position := by
  unfold Registry.nearestOther?
  rw [PositionIndex.findSome?_upTo_eq_some_iff]
  constructor
  · rintro ⟨q, place, hfind, hle, hscan, hmax⟩
    obtain ⟨s, hs, rfl⟩ := (sound.linked.indexed _ _).1 hfind
    obtain ⟨s', hs', hne, hlast, hid⟩ := reservedBy?_eq_some_iff.1 hscan
    rw [hs] at hs'
    cases hs'
    refine ⟨place, s, hs, hle, hne, hlast, hid, fun q t ht htle htne htpop => ?_⟩
    exact hmax _ _ ((sound.linked.indexed _ _).2 ⟨t, ht, rfl⟩) htle
      ((sound.reservedBy?_isSome_iff owner ht).2 ⟨htne, htpop⟩)
  · rintro ⟨place, s, hs, hle, hne, hlast, hid, hmax⟩
    refine ⟨s.position, place, (sound.linked.indexed _ _).2 ⟨s, hs, rfl⟩, hle,
      reservedBy?_eq_some_iff.2 ⟨s, hs, hne, hlast, hid⟩, fun q' place' hfind hle' hsome => ?_⟩
    obtain ⟨t, ht, rfl⟩ := (sound.linked.indexed _ _).1 hfind
    obtain ⟨htne, htpop⟩ := (sound.reservedBy?_isSome_iff owner ht).1 hsome
    exact hmax place' t ht hle' htne htpop

theorem lastOf?_eq_none_iff (hlength : 0 < length) :
    base.lastOf? length = none ↔ 1 <<< 122 < base.val + length := by
  unfold Position.lastOf?
  split
  · simp only [reduceCtorEq, false_iff]
    omega
  · simp only [true_iff]
    omega

theorem lastOf?_val {top : Position} (h : base.lastOf? length = some top) :
    top.val + 1 = base.val + length ∧ base.val + length ≤ 1 <<< 122 := by
  unfold Position.lastOf? at h
  split at h
  · cases h
    simp only
    omega
  · cases h

private theorem clear_iff_of_nearest (sound : ledger.Sound) {top last : Position}
    {other : SessionId} (htop : top.val + 1 = base.val + length)
    (hinside : base.val + length ≤ 1 <<< 122)
    (hnear : ledger.registry.nearestOther? owner top ledger.tiling = some (other, last)) :
    ledger.Clear owner base length ↔ ¬ base ≤ last := by
  obtain ⟨place, s, hs, hle, hne, hlast, rfl, hmax⟩ :=
    sound.nearestOther?_eq_some_iff.1 hnear
  have hpop := isPopulated_of_lastReserved? hlast
  obtain ⟨last', hlast', hreach⟩ := sound.lastReserved?_populated hs hpop
  rw [hlast] at hlast'
  cases hlast'
  rw [Position.le_iff] at hle ⊢
  constructor
  · intro clear
    have := clear.apart hs hpop hne
    omega
  · intro hbelow
    refine ⟨hinside, fun {q t} ht htpop htne => ?_⟩
    by_cases htle : t.position ≤ top
    · -- No span lies between the nearest one and the new one.
      have hts := hmax q t ht htle htne htpop
      rw [Position.le_iff] at hts htle
      by_cases hplace : place = q
      · subst hplace
        rw [hs] at ht
        cases ht
        omega
      · have hone := sound.linked.one_lt_endOf sound.laid hs hpop
        have := sound.apart.disjoint hs ht hplace hpop htpop
        simp only [Session.reach] at *
        omega
    · rw [Position.le_iff] at htle
      omega

theorem collision?_eq_none_iff (sound : ledger.Sound) (hlength : 0 < length) :
    ledger.registry.collision? owner base length ledger.tiling = none ↔
      ledger.Clear owner base length := by
  unfold Registry.collision?
  cases htop : base.lastOf? length with
  | none =>
      have hlarge := (lastOf?_eq_none_iff hlength).1 htop
      simp only [reduceCtorEq, false_iff]
      intro clear
      exact absurd clear.inside (Nat.not_le.2 hlarge)
  | some top =>
      obtain ⟨htop, hinside⟩ := lastOf?_val htop
      simp only
      cases hnear : ledger.registry.nearestOther? owner top ledger.tiling with
      | none =>
          simp only [true_iff]
          refine ⟨hinside, fun {place t} ht hpop hne => .inl ?_⟩
          by_contra hlt
          have hle : t.position ≤ top := by
            rw [Position.le_iff]
            omega
          rw [sound.nearestOther?_eq_none_iff.1 hnear place t ht hle hne] at hpop
          cases hpop
      | some r =>
          rw [clear_iff_of_nearest sound htop hinside hnear]
          simp only [ite_eq_right_iff, reduceCtorEq, imp_false]

end Sound

end Ledger

end CompactIds
