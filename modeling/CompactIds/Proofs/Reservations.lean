import CompactIds.Proofs.OpIds
import CompactIds.Proofs.Positions
import Mathlib.Data.Set.Lattice
import Mathlib.Order.CompletePartialOrder
import Mathlib.Order.Interval.Set.Basic

/-!
# Reserved stable ids

A reserved final id has a stable id from the start, long before anyone may
expand it.  The spans of the sessions lie apart, so no two reserved final ids
get the same one.
-/

namespace CompactIds

namespace Session

/-- The numbers of the positions that are reserved for the session. -/
def span (s : Session) (tiling : Tiling) : Set Nat :=
  Set.Ico s.position.val (s.position.val + (s.endOf .reserved tiling - 1))

end Session

namespace Ledger

variable {ledger : Ledger} {id : SessionId} {place p q g final final' : Nat} {s t : Session}
  {stable : StableId}

def stableIdOf? (ledger : Ledger) (final : Nat) : Option StableId := do
  let i ← ledger.tiling.clusterOfFinal? final
  let c ← ledger.tiling.cluster? i
  let generation ← c.generationOf? final
  let s ← ledger.registry.session? c.session
  some (s.stableIdOf generation)

theorem Apart.span_subset (apart : ledger.Apart) (hs : ledger.registry.session? place = some s)
    (hpop : s.isPopulated = true) : s.span ledger.tiling ⊆ Set.Iio (2 ^ 122) := by
  intro n hn
  have hinside : s.reach ledger.tiling ≤ 2 ^ 122 := apart.inside hs hpop
  have hlt : n < s.reach ledger.tiling := hn.2
  exact Nat.lt_of_lt_of_le hlt hinside

theorem Apart.disjoint_span (apart : ledger.Apart) (hs : ledger.registry.session? p = some s)
    (ht : ledger.registry.session? q = some t) (hne : p ≠ q) (hspop : s.isPopulated = true)
    (htpop : t.isPopulated = true) : Disjoint (s.span ledger.tiling) (t.span ledger.tiling) := by
  have hdisjoint := apart.disjoint hs ht hne hspop htpop
  rw [Set.disjoint_left]
  rintro n ⟨hslow, hshigh⟩ ⟨htlow, hthigh⟩
  simp only [Session.reach] at hdisjoint
  omega

namespace Sound

theorem stableIdOf?_eq_some_iff (sound : ledger.Sound) :
    ledger.stableIdOf? final = some stable ↔
      ∃ id g, ledger.finalOf? id .reserved g = some final ∧
        (Session.ofId id).stableIdOf g = stable := by
  simp only [stableIdOf?, Option.bind_eq_bind, Option.bind_eq_some_iff,
    sound.laid.clusterOfFinal?_eq_some_iff, Cluster.generationOf?_eq_some_iff, Cluster.finalOf?,
    Option.ite_none_right_eq_some, Option.some.injEq,
    Ledger.finalOf?_eq_some_iff sound.linked sound.laid]
  constructor
  · rintro ⟨i, -, c, hc, g, ⟨hcovers, rfl⟩, s, hs, rfl⟩
    exact ⟨s.id, g, ⟨i, c, hc, ownerOf?_eq_some_iff.2 ⟨s, hs, rfl⟩, hcovers, rfl⟩, rfl⟩
  · rintro ⟨id, g, ⟨i, c, hc, howner, hcovers, rfl⟩, rfl⟩
    obtain ⟨s, hs, rfl⟩ := ownerOf?_eq_some_iff.1 howner
    have hcontains := sound.laid.containsFinal_of_covers hc hcovers
    exact ⟨i, ⟨c, hc, hcontains⟩, c, hc, g, ⟨hcovers, rfl⟩, s, hs, rfl⟩

theorem liesAt_of_finalOf? (sound : ledger.Sound)
    (h : ledger.finalOf? id .reserved g = some final) :
    ∃ place s, ledger.registry.session? place = some s ∧ s.id = id ∧ s.isPopulated = true ∧
      ((Session.ofId id).stableIdOf g).LiesAt id g ∧
      ((Session.ofId id).stableIdOf g).position.val ∈ s.span ledger.tiling := by
  have hpos := one_le_of_finalOf? sound.linked sound.laid h
  obtain ⟨place, s, hs, rfl, hspan, hinside⟩ := sound.exists_span h
  have hlies : ((Session.ofId s.id).stableIdOf g).LiesAt s.id g :=
    Session.liesAt_stableIdOf hpos (Nat.le_trans hspan hinside)
  have hpop : s.isPopulated = true := by
    cases hpop : s.isPopulated with
    | true => rfl
    | false =>
        rw [Session.reach, Session.endOf_eq_one hpop] at hspan
        omega
  refine ⟨place, s, hs, rfl, hpop, hlies, ?_⟩
  unfold StableId.LiesAt at hlies
  change s.position.val ≤ _ ∧ _ < s.reach ledger.tiling
  change _ = s.position.val + g at hlies
  omega

theorem exists_stableIdOf? (sound : ledger.Sound) (h : final < ledger.tiling.nextBase) :
    ∃ stable, ledger.stableIdOf? final = some stable := by
  obtain ⟨i, c, hc, hcontains⟩ := sound.laid.exists_containsFinal h
  obtain ⟨s, hs⟩ := Registry.exists_session (sound.linked.owner hc)
  have hplace := sound.laid.clusterOfFinal?_eq_some_iff.2 ⟨c, hc, hcontains⟩
  simp [stableIdOf?, hplace, hc, hs, Cluster.generationOf?, hcontains]

theorem stableIdOf?_inj (sound : ledger.Sound) (h : ledger.stableIdOf? final = some stable)
    (h' : ledger.stableIdOf? final' = some stable) : final = final' := by
  obtain ⟨id, g, hfinal, rfl⟩ := sound.stableIdOf?_eq_some_iff.1 h
  obtain ⟨id', g', hfinal', heq⟩ := sound.stableIdOf?_eq_some_iff.1 h'
  obtain ⟨p, s, hs, hid, hspop, hlies, hmem⟩ := sound.liesAt_of_finalOf? hfinal
  obtain ⟨q, t, ht, hid', htpop, hlies', hmem'⟩ := sound.liesAt_of_finalOf? hfinal'
  rw [heq] at hlies' hmem'
  by_cases hplace : p = q
  · -- The same session: the position tells the generation.
    subst hplace
    rw [hs, Option.some.injEq] at ht
    have hsame : id' = id := by rw [← hid', ← ht, hid]
    subst hsame
    have hg := hlies.unique hlies'
    rw [hg, hfinal'] at hfinal
    exact (Option.some.inj hfinal).symm
  · have hdisjoint := sound.apart.disjoint_span hs ht hplace hspop htpop
    exact absurd hmem' (Set.disjoint_left.1 hdisjoint hmem)

end Sound

end Ledger

namespace Peer

variable {start peer : Peer} {final : Nat} {stable : StableId}

theorem stableIdOf?_of_expand? (h : peer.expand? (.ofFinal final) = some stable) :
    peer.ledger.stableIdOf? final = some stable := by
  simp only [expand?, SpaceId.form_ofFinal, Option.bind_eq_bind, Option.bind_eq_some_iff,
    Option.ite_none_right_eq_some] at h
  obtain ⟨i, hi, c, hc, g, hg, s, hs, -, hstable⟩ := h
  simp [Ledger.stableIdOf?, hi, hc, hg, hs, hstable]

theorem disjoint_spans_replay (origin : start.Origin) (actions : List Action) :
    let ledger := (start.replay actions).ledger
    (∀ place s, ledger.registry.session? place = some s → s.isPopulated = true →
      s.span ledger.tiling ⊆ Set.Iio (2 ^ 122)) ∧
    (∀ p q s t, ledger.registry.session? p = some s → ledger.registry.session? q = some t →
      p ≠ q → s.isPopulated = true → t.isPopulated = true →
      Disjoint (s.span ledger.tiling) (t.span ledger.tiling)) ∧
    (∀ final < ledger.tiling.nextBase, ∃ stable, ledger.stableIdOf? final = some stable) ∧
    (∀ final final' stable, ledger.stableIdOf? final = some stable →
      ledger.stableIdOf? final' = some stable → final = final') ∧
    ∀ final stable, (start.replay actions).expand? (.ofFinal final) = some stable →
      ledger.stableIdOf? final = some stable := by
  intro ledger
  have sound : ledger.Sound := (origin.sound.replay actions).ledger
  exact ⟨fun _ _ => sound.apart.span_subset, fun _ _ _ _ => sound.apart.disjoint_span,
    fun _ => sound.exists_stableIdOf?, fun _ _ _ => sound.stableIdOf?_inj,
    fun _ _ => stableIdOf?_of_expand?⟩

theorem disjoint_spans_replay_adjacent :
    let first : SessionId := Position.toStableId ⟨5, by decide⟩
    let next : SessionId := Position.toStableId ⟨518, by decide⟩
    let nested : SessionId := Position.toStableId ⟨100, by decide⟩
    let actions : List Action := [.finalize (.ofSpan first 1 1), .finalize (.ofSpan next 1 1),
      .finalize (.ofSpan nested 1 1)]
    let ledger := ((ofSession first).replay actions).ledger
    (ofSession first).Origin ∧ ∃ s t, ledger.registry.session? 0 = some s ∧
      ledger.registry.session? 1 = some t ∧ s.span ledger.tiling = Set.Ico 5 518 ∧
      t.span ledger.tiling = Set.Ico 518 1031 ∧
      Disjoint (s.span ledger.tiling) (t.span ledger.tiling) ∧
      ledger.stableIdOf? 512 ≠ ledger.stableIdOf? 513 := by
  intro first next nested actions ledger
  have origin : (ofSession first).Origin := .created (.standard first)
  obtain ⟨-, hdisjoint, htotal, hinj, -⟩ := disjoint_spans_replay origin actions
  obtain ⟨stable, hstable⟩ := htotal 512 (by decide +kernel)
  have hs : ledger.registry.session? 0 = some ⟨first, #[0]⟩ := by decide +kernel
  have ht : ledger.registry.session? 1 = some ⟨next, #[1]⟩ := by decide +kernel
  refine ⟨origin, _, _, hs, ht, ?_, ?_, hdisjoint 0 1 _ _ hs ht (by decide) rfl rfl, ?_⟩
  · exact congrArg₂ Set.Ico (by decide +kernel) (by decide +kernel)
  · exact congrArg₂ Set.Ico (by decide +kernel) (by decide +kernel)
  · intro heq
    exact absurd (hinj 512 513 stable hstable (heq ▸ hstable)) (by decide)

end Peer

end CompactIds
