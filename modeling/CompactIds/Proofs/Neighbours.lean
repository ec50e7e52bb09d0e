import CompactIds.Proofs.Reservations
import Mathlib.Order.Bounds.Basic
import Mathlib.Order.Interval.Set.LinearOrder

/-!
# One neighbour stands for all

A new span is compared with the nearest populated session below its end alone.
Since the reserved spans lie apart, that session meets the new span as soon as
any session does.
-/

namespace CompactIds

theorem Registry.collision?_eq_some_of_outside {base : Position} {length : Nat}
    (registry : Registry) (owner : SessionId) (tiling : Tiling) (h : 2 ^ 122 < base.val + length) :
    registry.collision? owner base length tiling = some owner := by
  have hlength : 0 < length := by
    have := base.isLt
    simp only [Nat.reduceShiftLeft] at this
    omega
  rw [Registry.collision?, (Ledger.Sound.lastOf?_eq_none_iff hlength).2 h]

namespace Ledger

variable {ledger : Ledger} {owner other : SessionId} {base top last : Position} {length : Nat}
  {s t : Session}

/-- A session other than `owner` that reserves positions. -/
structure Rival (ledger : Ledger) (owner : SessionId) (s : Session) : Prop where
  listed : ∃ place, ledger.registry.session? place = some s
  foreign : s.id ≠ owner
  populated : s.isPopulated = true

def Meets (ledger : Ledger) (base : Position) (length : Nat) (s : Session) : Prop :=
  (s.span ledger.tiling ∩ Set.Ico base.val (base.val + length)).Nonempty

def rivalsBelow (ledger : Ledger) (owner : SessionId) (bound : Nat) : Set Nat :=
  {p | p < bound ∧ ∃ s, ledger.Rival owner s ∧ s.position.val = p}

namespace Sound

variable (sound : ledger.Sound)
include sound

theorem meets_iff (rival : ledger.Rival owner s) (hlength : 0 < length) :
    ledger.Meets base length s ↔
      s.position.val < base.val + length ∧ base.val < s.reach ledger.tiling := by
  obtain ⟨place, hs⟩ := rival.listed
  have hone := sound.linked.one_lt_endOf sound.laid hs rival.populated
  rw [Meets, Session.span, Set.Ico_inter_Ico, Set.nonempty_Ico, sup_lt_iff, lt_inf_iff,
    lt_inf_iff, Session.reach]
  omega

theorem clear_iff_forall_not_meets (hlength : 0 < length)
    (hinside : base.val + length ≤ 2 ^ 122) :
    ledger.Clear owner base length ↔
      ∀ s, ledger.Rival owner s → ¬ ledger.Meets base length s := by
  constructor
  · intro clear s rival
    obtain ⟨place, hs⟩ := rival.listed
    have := clear.apart hs rival.populated rival.foreign
    rw [sound.meets_iff rival hlength]
    omega
  · intro h
    refine ⟨hinside, fun {place t} ht hpop hne => ?_⟩
    have rival : ledger.Rival owner t := ⟨⟨place, ht⟩, hne, hpop⟩
    have := h t rival
    rw [sound.meets_iff rival hlength] at this
    omega

theorem exists_nearest
    (h : ledger.registry.nearestOther? owner top ledger.tiling = some (other, last)) :
    ∃ s, ledger.Rival owner s ∧ s.id = other ∧ last.val + 1 = s.reach ledger.tiling ∧
      IsGreatest (ledger.rivalsBelow owner (top.val + 1)) s.position.val := by
  obtain ⟨place, s, hs, hle, hne, hlast, hid, hmax⟩ := sound.nearestOther?_eq_some_iff.1 h
  have hpop := isPopulated_of_lastReserved? hlast
  have rival : ledger.Rival owner s := ⟨⟨place, hs⟩, hne, hpop⟩
  obtain ⟨last', hlast', hreach⟩ := sound.lastReserved?_populated hs hpop
  rw [hlast] at hlast'
  cases hlast'
  refine ⟨s, rival, hid, hreach, ⟨Nat.lt_succ_of_le hle, s, rival, rfl⟩, ?_⟩
  rintro _ ⟨hlt, t, ⟨⟨q, ht⟩, htne, htpop⟩, rfl⟩
  exact hmax q t ht (Nat.le_of_lt_succ hlt) htne htpop

/-- What the scan finds meets the span, and is the nearest of all rivals. -/
theorem exists_of_collision?_eq_some (hlength : 0 < length)
    (hinside : base.val + length ≤ 2 ^ 122)
    (h : ledger.registry.collision? owner base length ledger.tiling = some other) :
    ∃ s, ledger.Rival owner s ∧ ledger.Meets base length s ∧ s.id = other ∧
      IsGreatest (ledger.rivalsBelow owner (base.val + length)) s.position.val := by
  unfold Registry.collision? at h
  cases htop : base.lastOf? length with
  | none =>
      have hlarge := (lastOf?_eq_none_iff hlength).1 htop
      exact absurd hinside (Nat.not_le.2 hlarge)
  | some top =>
      obtain ⟨hval, -⟩ := lastOf?_val htop
      simp only [htop] at h
      cases hnear : ledger.registry.nearestOther? owner top ledger.tiling with
      | none => simp [hnear] at h
      | some r =>
          obtain ⟨id, last⟩ := r
          simp only [hnear, Option.ite_none_right_eq_some, Option.some.injEq] at h
          obtain ⟨hreaches, rfl⟩ := h
          obtain ⟨s, rival, hid, hlast, hgreatest⟩ := sound.exists_nearest hnear
          rw [hval] at hgreatest
          refine ⟨s, rival, (sound.meets_iff rival hlength).2 ⟨hgreatest.1.1, ?_⟩, hid, hgreatest⟩
          rw [Position.le_iff] at hreaches
          omega

theorem exists_collision?_iff (hlength : 0 < length) (hinside : base.val + length ≤ 2 ^ 122) :
    (∃ other, ledger.registry.collision? owner base length ledger.tiling = some other) ↔
      ∃ s, ledger.Rival owner s ∧ ledger.Meets base length s := by
  constructor
  · rintro ⟨other, h⟩
    obtain ⟨s, rival, meets, -⟩ := sound.exists_of_collision?_eq_some hlength hinside h
    exact ⟨s, rival, meets⟩
  · rintro ⟨s, rival, meets⟩
    rw [← Option.ne_none_iff_exists', ne_eq, sound.collision?_eq_none_iff hlength,
      sound.clear_iff_forall_not_meets hlength hinside]
    exact fun h => h s rival meets

end Sound

end Ledger

namespace Peer

variable {start : Peer}

theorem collision?_replay (origin : start.Origin) (actions : List Action) (owner : SessionId)
    (base : Position) {length : Nat} (hlength : 0 < length) :
    let ledger := (start.replay actions).ledger
    let found := ledger.registry.collision? owner base length ledger.tiling
    (2 ^ 122 < base.val + length → found = some owner) ∧
    (base.val + length ≤ 2 ^ 122 →
      ((∃ other, found = some other) ↔
        ∃ s, ledger.Rival owner s ∧ ledger.Meets base length s) ∧
      ∀ other, found = some other → ∃ s, ledger.Rival owner s ∧ ledger.Meets base length s ∧
        s.id = other ∧
        IsGreatest (ledger.rivalsBelow owner (base.val + length)) s.position.val) := by
  intro ledger found
  have sound : ledger.Sound := (origin.sound.replay actions).ledger
  exact ⟨ledger.registry.collision?_eq_some_of_outside owner ledger.tiling, fun hinside =>
    ⟨sound.exists_collision?_iff hlength hinside, fun _ =>
      sound.exists_of_collision?_eq_some hlength hinside⟩⟩

theorem collision?_replay_idle :
    let own : SessionId := Position.toStableId ⟨600, by decide⟩
    let first : SessionId := Position.toStableId ⟨5, by decide⟩
    let owner : SessionId := Position.toStableId ⟨300, by decide⟩
    let inner : Position := ⟨300, by decide⟩
    let outer : Position := ⟨518, by decide⟩
    let ledger := ((ofSession own).replay [.finalize (.ofSpan first 1 1)]).ledger
    (ofSession own).Origin ∧ 0 < 400 ∧
      ledger.registry.collision? owner inner 400 ledger.tiling = some first ∧
      IsGreatest (ledger.rivalsBelow owner 700) 5 ∧
      ¬ ∃ s, ledger.Rival owner s ∧ ledger.Meets outer 400 s := by
  intro own first owner inner outer ledger
  have origin : (ofSession own).Origin := .created (.standard own)
  have hlength : 0 < 400 := by decide
  have scan := fun base =>
    collision?_replay origin [.finalize (.ofSpan first 1 1)] owner base hlength
  have hfound : ledger.registry.collision? owner inner 400 ledger.tiling = some first := by
    decide +kernel
  have hnone : ledger.registry.collision? owner outer 400 ledger.tiling = none := by
    decide +kernel
  refine ⟨origin, hlength, hfound, ?_, fun hmeets => ?_⟩
  · obtain ⟨s, -, -, hid, hgreatest⟩ := ((scan inner).2 (by decide)).2 first hfound
    have hposition : s.position.val = 5 := by
      rw [Session.position_eq hid]
      decide +kernel
    rwa [hposition] at hgreatest
  · obtain ⟨other, hother⟩ := ((scan outer).2 (by decide)).1.2 hmeets
    rw [hnone] at hother
    cases hother

end Peer

end CompactIds
