import CompactIds.Proofs.Neighbours

/-!
# Finding what is reserved at a position

The lookup by position is the inverse of the positions of generations: it finds
exactly the reserved generations of all sessions, each one in its own cluster.
-/

namespace CompactIds

namespace Session

variable {s : Session} {tiling : Tiling} {extent : Extent} {g : Nat}

theorem isPopulated_of_lt_endOf (hpos : 1 ≤ g) (h : g < s.endOf extent tiling) :
    s.isPopulated = true := by
  cases hpop : s.isPopulated with
  | true => rfl
  | false =>
      rw [endOf_eq_one hpop] at h
      omega

theorem val_positionOf (hpos : 1 ≤ g) (hfits : s.position.val + g ≤ 1 <<< 122) :
    (s.positionOf g).val + 1 = s.position.val + g := by
  obtain ⟨n, rfl⟩ : ∃ n, g = n + 1 := ⟨g - 1, by omega⟩
  have hoffset : s.positionOf (n + 1) = s.position.offset n := by simp [positionOf]
  rw [hoffset, Position.val_offset (by omega), Nat.add_assoc]

end Session

namespace Ledger

variable {ledger : Ledger} {p : Position} {place i j g g' : Nat} {s t : Session}

/-- Generation `g` of a session is reserved and lies at a position, as a sum that
does not go around the end of the range. -/
structure Reserves (ledger : Ledger) (p : Position) (s : Session) (g : Nat) : Prop where
  listed : ∃ place, ledger.registry.session? place = some s
  positive : 1 ≤ g
  reserved : g < s.endOf .reserved ledger.tiling
  lies : p.val + 1 = s.position.val + g

structure ChainCovers (ledger : Ledger) (s : Session) (g i : Nat) : Prop where
  linked : i ∈ s.chain
  covers : ∃ c, ledger.tiling.cluster? i = some c ∧ c.covers .reserved g = true

def ownersUpTo (ledger : Ledger) (p : Position) : Set Nat :=
  {n | n ≤ p.val ∧ ∃ place s, ledger.registry.session? place = some s ∧
    s.isPopulated = true ∧ s.position.val = n}

theorem Linked.chainCovers_iff (linked : ledger.Linked)
    (hs : ledger.registry.session? place = some s) :
    ledger.ChainCovers s g i ↔
      ∃ c, ledger.tiling.cluster? i = some c ∧ c.session = place ∧
        c.covers .reserved g = true := by
  constructor
  · rintro ⟨hmem, c, hc, hcovers⟩
    obtain ⟨d, hd, hplace⟩ := (linked.mem_chain hs i).1 hmem
    rw [hc, Option.some.injEq] at hd
    exact ⟨c, hc, hd ▸ hplace, hcovers⟩
  · rintro ⟨c, hc, hplace, hcovers⟩
    exact ⟨(linked.mem_chain hs i).2 ⟨c, hc, hplace⟩, c, hc, hcovers⟩

namespace Sound

variable (sound : ledger.Sound)
include sound

theorem ownerBelow?_iff_isGreatest :
    ledger.registry.ownerBelow? p = some place ↔
      ∃ s, ledger.registry.session? place = some s ∧ s.isPopulated = true ∧
        IsGreatest (ledger.ownersUpTo p) s.position.val := by
  rw [sound.ownerBelow?_eq_some_iff]
  constructor
  · rintro ⟨s, hs, hpop, hle, hmax⟩
    refine ⟨s, hs, hpop, ⟨hle, place, s, hs, hpop, rfl⟩, ?_⟩
    rintro _ ⟨htle, q, t, ht, htpop, rfl⟩
    exact hmax q t ht htpop htle
  · rintro ⟨s, hs, hpop, ⟨hle, -⟩, hmax⟩
    exact ⟨s, hs, hpop, hle, fun q t ht htpop htle => hmax ⟨htle, q, t, ht, htpop, rfl⟩⟩

theorem ownerBelow?_eq_none_iff :
    ledger.registry.ownerBelow? p = none ↔ ledger.ownersUpTo p = ∅ := by
  simp only [Registry.ownerBelow?, ← List.findSome?_guard, PositionIndex.findSome?_upTo_eq_none_iff,
    Option.guard_eq_none_iff, Set.eq_empty_iff_forall_notMem]
  constructor
  · rintro h _ ⟨hle, place, s, hs, hpop, rfl⟩
    have := h _ _ ((sound.linked.indexed _ _).2 ⟨s, hs, rfl⟩) hle
    simp [hs, hpop] at this
  · intro h q place hfind hle
    obtain ⟨s, hs, rfl⟩ := (sound.linked.indexed _ _).1 hfind
    cases hpop : s.isPopulated with
    | false => simp [hs, hpop]
    | true => exact absurd ⟨hle, place, s, hs, hpop, rfl⟩ (h s.position.val)

theorem ownerBelow?_of_reserves (h : ledger.Reserves p s g)
    (hs : ledger.registry.session? place = some s) :
    ledger.registry.ownerBelow? p = some place := by
  obtain ⟨-, hpos, hreserved, hlies⟩ := h
  have hpop := Session.isPopulated_of_lt_endOf hpos hreserved
  apply sound.ownerBelow?_of_reach hs hpop
  · rw [Position.le_iff]
    omega
  · unfold Session.reach
    omega

theorem eq_of_reserves (h : ledger.Reserves p s g) (h' : ledger.Reserves p t g') :
    s = t ∧ g = g' := by
  obtain ⟨place, hs⟩ := h.listed
  obtain ⟨q, ht⟩ := h'.listed
  have hplace := sound.ownerBelow?_of_reserves h hs
  rw [sound.ownerBelow?_of_reserves h' ht, Option.some.injEq] at hplace
  rw [hplace, hs, Option.some.injEq] at ht
  subst ht
  have hlies := h.lies
  have hlies' := h'.lies
  exact ⟨rfl, by omega⟩

theorem exists_chainCovers (h : ledger.Reserves p s g) : ∃ i, ledger.ChainCovers s g i := by
  obtain ⟨place, hs⟩ := h.listed
  obtain ⟨i, hcovers⟩ := sound.linked.exists_covers sound.laid hs h.positive h.reserved
  exact ⟨i, (sound.linked.chainCovers_iff hs).2 hcovers⟩

theorem clusterAt?_iff_reserves :
    ledger.registry.clusterAt? p ledger.tiling = some (i, g) ↔
      ∃ s, ledger.Reserves p s g ∧ ledger.ChainCovers s g i := by
  rw [sound.clusterAt?_eq_some_iff]
  constructor
  · rintro ⟨c, id, hc, howner, hcovers, hlies⟩
    obtain ⟨s, hs, rfl⟩ := ownerOf?_eq_some_iff.1 howner
    have hpos := Nat.le_trans (sound.one_le_baseGeneration hc) (Cluster.covers_iff.1 hcovers).1
    have hend := sound.linked.lt_endOf_of_covers sound.laid hs hc rfl hcovers
    exact ⟨s, ⟨⟨_, hs⟩, hpos, hend, hlies⟩,
      (sound.linked.chainCovers_iff hs).2 ⟨c, hc, rfl, hcovers⟩⟩
  · rintro ⟨s, reserves, covers⟩
    obtain ⟨place, hs⟩ := reserves.listed
    obtain ⟨c, hc, hplace, hcovers⟩ := (sound.linked.chainCovers_iff hs).1 covers
    exact ⟨c, s.id, hc, (sound.linked.ownerOf?_session hs).2 hplace, hcovers, reserves.lies⟩

theorem reserves_positionOf (hs : ledger.registry.session? place = some s) (hpos : 1 ≤ g)
    (hreserved : g < s.endOf .reserved ledger.tiling) :
    ledger.Reserves (s.positionOf g) s g := by
  have hinside := sound.apart.inside hs (Session.isPopulated_of_lt_endOf hpos hreserved)
  unfold Session.reach at hinside
  exact ⟨⟨place, hs⟩, hpos, hreserved, Session.val_positionOf hpos (by omega)⟩

omit sound in
theorem positionOf_of_reserves (h : ledger.Reserves p s g) : s.positionOf g = p := by
  have hlies := h.lies
  have := p.isLt
  have := Session.val_positionOf (s := s) h.positive (by omega)
  apply Position.ext
  omega

end Sound

/-- All that the lookup at a position tells.  What it finds is unique, and lies at the
position that its session has for it. -/
structure FindsReserved (ledger : Ledger) (p : Position) : Prop where
  owner : ∀ place, ledger.registry.ownerBelow? p = some place ↔
    ∃ s, ledger.registry.session? place = some s ∧ s.isPopulated = true ∧
      IsGreatest (ledger.ownersUpTo p) s.position.val
  noOwner : ledger.registry.ownerBelow? p = none ↔ ledger.ownersUpTo p = ∅
  found : ∀ i g, ledger.registry.clusterAt? p ledger.tiling = some (i, g) ↔
    ∃ s, ledger.Reserves p s g ∧ ledger.ChainCovers s g i
  notFound : ledger.registry.clusterAt? p ledger.tiling = none ↔
    ∀ s g, ¬ ledger.Reserves p s g
  unique : ∀ s t g g', ledger.Reserves p s g → ledger.Reserves p t g' → s = t ∧ g = g'
  oneCluster : ∀ s g i j, ledger.Reserves p s g → ledger.ChainCovers s g i →
    ledger.ChainCovers s g j → i = j
  position : ∀ s g, ledger.Reserves p s g → s.positionOf g = p

theorem Sound.findsReserved (sound : ledger.Sound) (p : Position) : ledger.FindsReserved p where
  owner place := sound.ownerBelow?_iff_isGreatest
  noOwner := sound.ownerBelow?_eq_none_iff
  found i g := sound.clusterAt?_iff_reserves
  notFound := by
    rw [Option.eq_none_iff_forall_ne_some]
    constructor
    · intro h s g reserves
      obtain ⟨i, covers⟩ := sound.exists_chainCovers reserves
      exact h (i, g) (sound.clusterAt?_iff_reserves.2 ⟨s, reserves, covers⟩)
    · rintro h ⟨i, g⟩ hfound
      obtain ⟨s, reserves, -⟩ := sound.clusterAt?_iff_reserves.1 hfound
      exact h s g reserves
  unique s t g g' := sound.eq_of_reserves
  oneCluster s g i j reserves covers covers' := by
    have hfound := sound.clusterAt?_iff_reserves.2 ⟨s, reserves, covers⟩
    rw [sound.clusterAt?_iff_reserves.2 ⟨s, reserves, covers'⟩] at hfound
    simpa using hfound.symm
  position s g := positionOf_of_reserves

end Ledger

namespace Peer

variable {start : Peer}

theorem clusterAt?_replay (origin : start.Origin) (actions : List Action) :
    let ledger := (start.replay actions).ledger
    (∀ p, ledger.FindsReserved p) ∧
    ∀ place s g, ledger.registry.session? place = some s → 1 ≤ g →
      g < s.endOf .reserved ledger.tiling →
      ledger.Reserves (s.positionOf g) s g ∧
        ∃ i, ledger.ChainCovers s g i ∧
          ledger.registry.clusterAt? (s.positionOf g) ledger.tiling = some (i, g) := by
  intro ledger
  have sound : ledger.Sound := (origin.sound.replay actions).ledger
  refine ⟨sound.findsReserved, fun place s g hs hpos hreserved => ?_⟩
  have reserves := sound.reserves_positionOf hs hpos hreserved
  obtain ⟨i, covers⟩ := sound.exists_chainCovers reserves
  exact ⟨reserves, i, covers, sound.clusterAt?_iff_reserves.2 ⟨s, reserves, covers⟩⟩

theorem clusterAt?_replay_nested :
    let own : SessionId := Position.toStableId ⟨300, by decide⟩
    let first : SessionId := Position.toStableId ⟨5, by decide⟩
    let s : Session := ⟨first, #[0]⟩
    let ledger := ((ofSession own).replay [.finalize (.ofSpan first 1 1)]).ledger
    (ofSession own).Origin ∧ ledger.registry.session? 1 = some s ∧
      513 < s.endOf .reserved ledger.tiling ∧
      IsGreatest (ledger.ownersUpTo ⟨400, by decide⟩) s.position.val ∧
      (∃ i, ledger.ChainCovers s 513 i ∧
        ledger.registry.clusterAt? (s.positionOf 513) ledger.tiling = some (i, 513)) ∧
      ∀ t g, ¬ ledger.Reserves ⟨518, by decide⟩ t g := by
  intro own first s ledger
  have origin : (ofSession own).Origin := .created (.standard own)
  have hs : ledger.registry.session? 1 = some s := by decide +kernel
  have hreserved : 513 < s.endOf .reserved ledger.tiling := by decide +kernel
  obtain ⟨finds, inverse⟩ := clusterAt?_replay origin [.finalize (.ofSpan first 1 1)]
  refine ⟨origin, hs, hreserved, ?_, (inverse 1 s 513 hs (by decide) hreserved).2,
    (finds _).notFound.1 (by decide +kernel)⟩
  obtain ⟨t, ht, -, hgreatest⟩ := ((finds ⟨400, by decide⟩).owner 1).1 (by decide +kernel)
  have hst : s = t := Option.some.inj (hs.symm.trans ht)
  rwa [← hst] at hgreatest

end Peer

end CompactIds
