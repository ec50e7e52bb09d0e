import CompactIds.Proofs.Permanence
import Mathlib.Order.Bounds.Basic
import Mathlib.Order.Interval.Set.LinearOrder

/-!
# Assigning final ids

An accepted range finalizes the next generations of its session.  What exceeds
the reserve of the session is given the final ids behind all others, in the
order of the generations and with a full reserve after them, whichever cluster
takes it up.
-/

namespace CompactIds

namespace Ledger

variable {ledger later : Ledger} {id other : SessionId} {count g final i : Nat} {c : Cluster}
  {extent : Extent}

private theorem Ico_one_sdiff {a b : Nat} (h : 0 < a) :
    Set.Ico 1 b \ Set.Ico 1 a = Set.Ico a b := by
  ext n
  simp only [Set.mem_sdiff, Set.mem_Ico]
  omega

def generations (ledger : Ledger) (id : SessionId) (extent : Extent) : Set Nat :=
  {g | ∃ final, ledger.finalOf? id extent g = some final}

def finals (ledger : Ledger) (extent : Extent) : Set Nat :=
  {final | ∃ id g, ledger.finalOf? id extent g = some final}

namespace Sound

theorem generations_eq (sound : ledger.Sound) (id : SessionId) (extent : Extent) :
    ledger.generations id extent = Set.Ico 1 (ledger.endOf id extent) := by
  ext g
  constructor
  · rintro ⟨final, h⟩
    exact ⟨one_le_of_finalOf? sound.linked sound.laid h,
      lt_endOf_of_finalOf? sound.linked sound.laid h⟩
  · rintro ⟨hpos, hlt⟩
    exact exists_finalOf? sound.linked sound.laid hpos hlt

theorem finals_reserved (sound : ledger.Sound) :
    ledger.finals .reserved = Set.Iio ledger.tiling.nextBase := by
  ext final
  constructor
  · rintro ⟨id, g, h⟩
    obtain ⟨i, c, hc, -, hcovers, rfl⟩ :=
      (Ledger.finalOf?_eq_some_iff sound.linked sound.laid).1 h
    have hcontains := Cluster.containsFinal_iff.1 (sound.laid.containsFinal_of_covers hc hcovers)
    exact Nat.lt_of_lt_of_le hcontains.2 (sound.laid.baseFinal_add_capacity_le hc)
  · exact sound.exists_finalOf?_of_lt_nextBase

theorem exists_isGreatest (sound : ledger.Sound)
    (h : ledger.finalOf? id .finalized g = some final) :
    ∃ top, ledger.tiling.limit = top + 1 ∧ IsGreatest (ledger.finals .finalized) top := by
  obtain ⟨j, d, hd, -⟩ := (Ledger.finalOf?_eq_some_iff sound.linked sound.laid).1 h
  obtain ⟨n, c, hlast, hc⟩ := Tiling.exists_last (Nat.zero_lt_of_lt (Tiling.lt_size hd))
  obtain ⟨owner, howner⟩ := sound.linked.exists_owner hc
  have hpos := sound.laid.count_pos hc
  have hlimit := Tiling.limit_of_tail hc hlast
  refine ⟨c.baseFinal + c.count - 1, by omega, ⟨owner, c.baseGeneration + c.count - 1, ?_⟩, ?_⟩
  · rw [Ledger.finalOf?_eq_some_iff sound.linked sound.laid]
    refine ⟨n, c, hc, howner, Cluster.covers_iff.2 ?_, by omega⟩
    simp only [Cluster.endOf]
    omega
  · rintro final ⟨id, g, h⟩
    obtain ⟨i, d, hd, -, hcovers, rfl⟩ :=
      (Ledger.finalOf?_eq_some_iff sound.linked sound.laid).1 h
    simp only [Cluster.covers_iff, Cluster.endOf] at hcovers
    have := sound.laid.lt_limit hd (f := d.baseFinal + (g - d.baseGeneration)) (by omega)
    omega

theorem endOf_reserved_eq (sound : ledger.Sound) (id : SessionId) :
    ledger.endOf id .reserved = ledger.endOf id .finalized + ledger.reserve id := by
  cases hplace : ledger.tailPlace? id with
  | none =>
      simp only [endOf_of_tailPlace?_none hplace, reserve_of_tailPlace?_none hplace,
        Nat.add_zero]
  | some i =>
      obtain ⟨c, tail⟩ := sound.linked.tailPlace?_eq_some_iff.1 hplace
      have := sound.laid.count_le tail.cluster
      simp only [sound.linked.endOf_of_tailOf tail, sound.linked.reserve_of_tailOf tail,
        Cluster.endOf, Cluster.remaining]
      omega

end Sound

/-- The `i`-th cluster `c` of the later ledger has taken up all that a session
exceeds its reserve by, and ends with a full one. -/
structure TakesUp (ledger later : Ledger) (id : SessionId) (i : Nat) (c : Cluster) : Prop where
  tail : later.TailOf id i c
  last : i + 1 = later.tiling.size
  full : c.remaining = ledger.capacity
  base_le : c.baseGeneration ≤ ledger.endOf id .reserved
  /-- The first new generation gets the first free final id. -/
  aligned : c.baseFinal + ledger.endOf id .reserved = ledger.tiling.nextBase + c.baseGeneration

theorem takesUp_append (middle : Ledger) {place surplus : Nat} {s : Session}
    (hs : middle.registry.session? place = some s)
    (hnext : middle.tiling.nextBase = ledger.tiling.nextBase) :
    ledger.TakesUp
      (middle.append place (ledger.endOf s.id .reserved) (ledger.capacity + surplus) surplus)
      s.id middle.tiling.size ⟨place, middle.tiling.nextBase, ledger.endOf s.id .reserved,
        ledger.capacity + surplus, surplus⟩ where
  tail := tailOf_append_self hs
  last := (Tiling.size_push ..).symm
  full := Nat.add_sub_cancel ..
  base_le := Nat.le_refl _
  aligned := by rw [hnext]

theorem Allocates.takesUp (sound : ledger.Sound) (h : ledger.Allocates id count later)
    (hexceeds : ledger.reserve id < count) : ∃ i c, ledger.TakesUp later id i c := by
  cases h with
  | extend tail fits =>
      rw [sound.linked.reserve_of_tailOf tail] at hexceeds
      exact absurd fits (Nat.not_le.2 hexceeds)
  | @grow i c tail exceeds last admits =>
      have hle := sound.laid.count_le tail.cluster
      refine ⟨i, _, tailOf_modifyCluster_self tail rfl, ?_, ?_, ?_, ?_⟩
      · exact last.trans (Tiling.size_modify ..).symm
      · simp only [Cluster.grow, Cluster.remaining] at *
        omega
      · rw [sound.linked.endOf_of_tailOf tail]
        exact Nat.le_add_right _ _
      · rw [sound.linked.endOf_of_tailOf tail, Tiling.nextBase_of_tail tail.cluster last]
        simp only [Cluster.grow, Cluster.endOf]
        omega
  | @overflow i c tail exceeds inner admits =>
      have hnext := sound.nextBase_modifyCluster (sound.fillUp tail) tail.cluster rfl
      rw [← sound.linked.endOf_of_tailOf tail]
      obtain ⟨s, hs, rfl⟩ := ownerOf?_eq_some_iff.1 tail.owner
      exact ⟨_, _, takesUp_append (ledger.modifyCluster i .fillUp) hs hnext⟩
  | first fresh admits =>
      have hend := endOf_of_tailPlace?_none fresh .reserved
      obtain ⟨s, hs, rfl⟩ := (sound.linked.register id).indexed.session?_of_find?
        (sound.linked.indexed.find?_register id)
      rw [← hend]
      exact ⟨_, _, takesUp_append (ledger.register s.id) hs rfl⟩

theorem Allocates.exists_fill (sound : ledger.Sound) (hcount : 0 < count)
    (h : ledger.Allocates id count later) (hfits : count ≤ ledger.reserve id) :
    ∃ i c, ledger.TailOf id i c ∧ later = ledger.modifyCluster i (·.fill count) := by
  cases h with
  | extend tail fits => exact ⟨_, _, tail, rfl⟩
  | grow tail exceeds last admits =>
      rw [sound.linked.reserve_of_tailOf tail] at hfits
      exact absurd exceeds (Nat.not_lt.2 hfits)
  | overflow tail exceeds inner admits =>
      rw [sound.linked.reserve_of_tailOf tail] at hfits
      exact absurd exceeds (Nat.not_lt.2 hfits)
  | first fresh admits =>
      rw [reserve_of_tailPlace?_none fresh] at hfits
      exact absurd hcount (Nat.not_lt.2 hfits)

namespace Allocates

variable (sound : ledger.Sound) (hcount : 0 < count) (h : ledger.Allocates id count later)
include sound hcount h

theorem nextBase_eq (hfits : count ≤ ledger.reserve id) :
    later.tiling.nextBase = ledger.tiling.nextBase := by
  have sound' := h.sound sound hcount
  obtain ⟨i, c, tail, rfl⟩ := h.exists_fill sound hcount hfits
  exact sound.nextBase_modifyCluster sound' tail.cluster rfl

theorem endOf_reserved_eq (hfits : count ≤ ledger.reserve id) :
    later.endOf id .reserved = ledger.endOf id .reserved := by
  have sound' := h.sound sound hcount
  obtain ⟨i, c, tail, rfl⟩ := h.exists_fill sound hcount hfits
  have tail' := tailOf_modifyCluster_self (f := fun d => d.fill count) tail rfl
  rw [sound'.linked.endOf_of_tailOf tail', sound.linked.endOf_of_tailOf tail]
  rfl

/-- What exceeds the reserve leaves a full one behind. -/
theorem reserve_eq (hexceeds : ledger.reserve id < count) :
    later.reserve id = ledger.capacity := by
  obtain ⟨i, c, takes⟩ := h.takesUp sound hexceeds
  exact ((h.sound sound hcount).linked.reserve_of_tailOf takes.tail).trans takes.full

theorem nextBase_add_endOf :
    later.tiling.nextBase + ledger.endOf id .reserved =
      ledger.tiling.nextBase + later.endOf id .reserved := by
  by_cases hfits : count ≤ ledger.reserve id
  · rw [h.nextBase_eq sound hcount hfits, h.endOf_reserved_eq sound hcount hfits]
  · obtain ⟨i, c, takes⟩ := h.takesUp sound (Nat.lt_of_not_le hfits)
    have hend := (h.sound sound hcount).linked.endOf_of_tailOf takes.tail .reserved
    have hnext := Tiling.nextBase_of_tail takes.tail.cluster takes.last
    have := takes.aligned
    rw [hend, hnext, Cluster.endOf]
    omega

theorem finalOf?_new {k : Nat} (hk : ledger.endOf id .reserved + k < later.endOf id .reserved) :
    later.finalOf? id .reserved (ledger.endOf id .reserved + k) =
      some (ledger.tiling.nextBase + k) := by
  have sound' := h.sound sound hcount
  by_cases hfits : count ≤ ledger.reserve id
  · rw [h.endOf_reserved_eq sound hcount hfits] at hk
    omega
  · obtain ⟨i, c, takes⟩ := h.takesUp sound (Nat.lt_of_not_le hfits)
    have hbase := takes.base_le
    have := takes.aligned
    rw [sound'.linked.endOf_of_tailOf takes.tail] at hk
    rw [Ledger.finalOf?_eq_some_iff sound'.linked sound'.laid]
    exact ⟨i, c, takes.tail.cluster, takes.tail.owner,
      Cluster.covers_iff.2 ⟨by omega, hk⟩, by omega⟩

omit sound hcount in
theorem capacity_eq : later.capacity = ledger.capacity := by
  cases h <;> rfl

end Allocates

/-! ## All that an accepted range does -/

structure Assigns (ledger later : Ledger) (id : SessionId) (ids : Span) : Prop where
  kept : ∀ other g final, ledger.finalOf? other .reserved g = some final →
    later.finalOf? other .reserved g = some final
  others : ∀ other, other ≠ id →
    later.generations other .finalized = ledger.generations other .finalized
  finalized : later.generations id .finalized = Set.Ico 1 (ids.first + ids.count)
  newFinals : later.finals .reserved \ ledger.finals .reserved =
    Set.Ico ledger.tiling.nextBase later.tiling.nextBase
  newGenerations : ∀ other, later.generations other .reserved \
      ledger.generations other .reserved =
    if other = id then Set.Ico (ledger.endOf id .reserved) (later.endOf id .reserved) else ∅
  /-- The new final ids go to the new generations one after another. -/
  ascending : ∀ k, ledger.endOf id .reserved + k < later.endOf id .reserved →
    later.finalOf? id .reserved (ledger.endOf id .reserved + k) =
      some (ledger.tiling.nextBase + k)
  gapless : later.finals .reserved = Set.Iio later.tiling.nextBase
  unique : ∀ other other' g g' final, later.finalOf? other .reserved g = some final →
    later.finalOf? other' .reserved g' = some final → other = other' ∧ g = g'
  /-- Where anything was reserved, a full reserve is left. -/
  reserve : later.tiling.nextBase ≠ ledger.tiling.nextBase →
    later.generations id .reserved \ later.generations id .finalized =
      Set.Ico (ids.first + ids.count) (ids.first + ids.count + ledger.capacity)
  fits : later.tiling.nextBase = ledger.tiling.nextBase → ids.count ≤ ledger.reserve id
  limit_le : ledger.tiling.limit ≤ later.tiling.limit
  /-- The limit is one past the greatest final id that is finalized. -/
  limit : ∃ top, later.tiling.limit = top + 1 ∧ IsGreatest (later.finals .finalized) top

theorem Allocates.assigns (sound : ledger.Sound) {ids : Span} (hcount : 0 < ids.count)
    (hfirst : ids.first = ledger.endOf id .finalized)
    (h : ledger.Allocates id ids.count later) : ledger.Assigns later id ids := by
  have sound' := h.sound sound hcount
  have hextends := h.extends sound
  have hfinalized := h.endOf_finalized sound hcount
  have hpos := sound.linked.endOf_pos sound.laid id
  have hone := hpos .finalized
  have hrooms := h.nextBase_add_endOf sound hcount
  constructor
  case kept => exact fun other g final => sound.finalOf?_extends sound' hextends
  case others =>
    intro other hother
    rw [sound'.generations_eq, sound.generations_eq, h.endOf_other sound hcount hother.symm]
  case finalized => rw [sound'.generations_eq, hfinalized, hfirst]
  case newFinals =>
    rw [sound'.finals_reserved, sound.finals_reserved]
    exact Set.ext fun final => and_comm.trans (and_congr_left' Nat.not_lt)
  case newGenerations =>
    intro other
    rw [sound'.generations_eq, sound.generations_eq]
    split
    · rename_i hother
      subst hother
      exact Ico_one_sdiff (hpos .reserved)
    · rename_i hother
      rw [h.endOf_other sound hcount (Ne.symm hother), Set.sdiff_self]
  case ascending => exact fun k => h.finalOf?_new sound hcount
  case gapless => exact sound'.finals_reserved
  case unique => exact fun _ _ _ _ _ => finalOf?_inj sound'.linked sound'.laid
  case reserve =>
    intro hnew
    have hexceeds : ledger.reserve id < ids.count := by
      by_contra hfits
      exact hnew (h.nextBase_eq sound hcount (Nat.le_of_not_lt hfits))
    rw [sound'.generations_eq, sound'.generations_eq, sound'.endOf_reserved_eq, hfinalized,
      h.reserve_eq sound hcount hexceeds, hfirst]
    exact Ico_one_sdiff (Nat.lt_of_lt_of_le hone (Nat.le_add_right _ _))
  case fits =>
    intro hsame
    by_contra hexceeds
    have hreserve := h.reserve_eq sound hcount (Nat.lt_of_not_le hexceeds)
    have hend := sound.endOf_reserved_eq id
    have hend' := sound'.endOf_reserved_eq id
    omega
  case limit_le => exact hextends.limit_le sound sound'
  case limit =>
    obtain ⟨final, hfinal⟩ := exists_finalOf? sound'.linked sound'.laid (Nat.le_refl 1)
      (show 1 < later.endOf id .finalized by omega)
    exact sound'.exists_isGreatest hfinal

end Ledger

namespace Peer

variable {start : Peer}

/-- What an accepted range with ids of a session does to a peer. -/
structure Finalizes (before after : Peer) (id : SessionId) (ids : Span) : Prop where
  assigns : before.ledger.Assigns after.ledger id ids
  capacity : after.ledger.capacity = before.ledger.capacity
  session : after.session = before.session
  generated : after.generated = before.generated
  taken : after.taken = before.taken
  locals : after.locals = before.locals

theorem finalizes_replay (origin : start.Origin) (actions : List Action) {range : CreationRange}
    {ids : Span} {after : Peer} (hids : range.ids = some ids)
    (accepted : (start.replay actions).finalize range = .ok after) :
    (start.replay actions).Finalizes after range.session ids := by
  have sound := (origin.sound.replay actions).ledger
  obtain ⟨ledger, hledger, rfl⟩ := finalize_eq_ok accepted
  rcases sound.finalize_cases hledger with ⟨hnone, -⟩ | ⟨ids', hids', hcount, -, hfirst, h⟩
  · rw [hids] at hnone
    cases hnone
  · rw [hids, Option.some.injEq] at hids'
    subst hids'
    exact ⟨h.assigns sound hcount hfirst, h.capacity_eq, rfl, rfl, rfl, rfl⟩

theorem finalizes_replay_overflow :
    let first : SessionId := Position.toStableId ⟨5, by decide⟩
    let other : SessionId := Position.toStableId ⟨1000, by decide⟩
    let range : CreationRange := .ofSpan first 2 520
    let before := (ofSession first).replay [.finalize (.ofSpan first 1 1),
      .finalize (.ofSpan other 1 1), .setCapacity 3]
    let after := before.perform (.finalize range)
    (ofSession first).Origin ∧ range.ids = some ⟨2, 520⟩ ∧ before.finalize range = .ok after ∧
      after.ledger.finals .reserved \ before.ledger.finals .reserved = Set.Ico 1026 1037 ∧
      after.ledger.finalOf? first .reserved 514 = some 1026 ∧
      after.ledger.generations first .reserved \ after.ledger.generations first .finalized =
        Set.Ico 522 525 := by
  intro first other range before after
  have origin : (ofSession first).Origin := .created (.standard first)
  have hids : range.ids = some ⟨2, 520⟩ := rfl
  have accepted : before.finalize range = .ok after := by decide +kernel
  have assigns : before.ledger.Assigns after.ledger first ⟨2, 520⟩ :=
    (finalizes_replay origin _ hids accepted).assigns
  have hbefore : before.ledger.tiling.nextBase = 1026 := by decide +kernel
  have hafter : after.ledger.tiling.nextBase = 1037 := by decide +kernel
  have hend : before.ledger.endOf first .reserved = 514 := by decide +kernel
  have hend' : after.ledger.endOf first .reserved = 525 := by decide +kernel
  have hcapacity : before.ledger.capacity = 3 := by decide +kernel
  have hnew := assigns.newFinals
  have hfirst := assigns.ascending 0
  have hreserve := assigns.reserve
  rw [hbefore, hafter] at hnew hreserve
  rw [hbefore, hend, hend'] at hfirst
  rw [hcapacity] at hreserve
  exact ⟨origin, hids, accepted, hnew, hfirst (by decide), hreserve (by decide)⟩

end Peer

end CompactIds
