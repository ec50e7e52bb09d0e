import CompactIds.Proofs.Meaning

/-!
# Back from stable ids

A stable id is compressed to the id that the peer handed out for it, or to a
final id of another session.  Either expands to the stable id again, however
sessions lie to one another.  The other way round an own local id must not lie
where another session reserves positions.
-/

namespace CompactIds

namespace Peer

variable {session origin : SessionId} {capacity g final : Nat} {peer start : Peer}
  {id own : SessionSpaceId} {stable : StableId}

theorem Sound.localGeneration?_eq_some_iff (sound : peer.Sound) :
    peer.localGeneration? stable = some g ↔
      peer.locals.Holds g ∧ stable.LiesAt peer.session g := by
  simp only [localGeneration?, Option.bind_eq_bind, Option.bind_eq_some_iff,
    Position.above?_eq_some_iff, Option.ite_none_right_eq_some, Option.some.injEq,
    sound.locals.contains_iff]
  unfold StableId.LiesAt
  constructor
  · rintro ⟨distance, ⟨hval, -⟩, ⟨-, held⟩, rfl⟩
    exact ⟨held, by omega⟩
  · rintro ⟨held, hlies⟩
    obtain ⟨hpos, hle⟩ := sound.bounds_of_holds held
    have := sound.generated_le
    obtain ⟨n, rfl⟩ : ∃ n, g = n + 1 := ⟨g - 1, by omega⟩
    exact ⟨n, ⟨by omega, by omega⟩, ⟨hle, held⟩, rfl⟩

theorem Sound.localGeneration?_eq_none_iff (sound : peer.Sound) :
    peer.localGeneration? stable = none ↔
      ∀ g, peer.locals.Holds g → ¬ stable.LiesAt peer.session g := by
  simp only [Option.eq_none_iff_forall_ne_some, ne_eq, sound.localGeneration?_eq_some_iff,
    not_and]

theorem Sound.isVisible_iff (sound : peer.Sound) {c : Cluster}
    (howner : peer.ledger.ownerOf? c = some origin) :
    peer.isVisible c g = true ↔
      origin = peer.session ∧ g ≤ peer.generated ∨
        origin ≠ peer.session ∧ g < c.endOf .finalized := by
  have hplace : c.session = ownPlace ↔ origin = peer.session := by
    rw [← sound.ownerOf?_eq_iff, howner, Option.some.injEq]
  by_cases horigin : origin = peer.session <;> simp [isVisible, hplace, horigin]

private theorem Sound.compress?_of_none (sound : peer.Sound)
    (hlocal : peer.localGeneration? stable = none) :
    peer.compress? stable = some id ↔
      ∃ i c origin g, peer.ledger.tiling.cluster? i = some c ∧
        peer.ledger.ownerOf? c = some origin ∧ c.covers .reserved g = true ∧
        stable.LiesAt origin g ∧ peer.isVisible c g = true ∧
        id = .ofFinal (c.baseFinal + (g - c.baseGeneration)) := by
  simp only [compress?, hlocal, Option.bind_eq_bind, Option.bind_eq_some_iff, Prod.exists,
    sound.ledger.clusterAt?_eq_some_iff, Option.ite_none_right_eq_some, Option.map_eq_some_iff,
    Cluster.finalOf?, Option.some.injEq]
  constructor
  · rintro ⟨i, g, ⟨c, origin, hc, howner, hcovers, hlies⟩, d, hd, hvisible, f, ⟨-, rfl⟩, rfl⟩
    rw [hc] at hd
    cases hd
    exact ⟨i, c, origin, g, hc, howner, hcovers, hlies, hvisible, rfl⟩
  · rintro ⟨i, c, origin, g, hc, howner, hcovers, hlies, hvisible, rfl⟩
    exact ⟨i, g, ⟨c, origin, hc, howner, hcovers, hlies⟩, c, hc, hvisible, _, ⟨hcovers, rfl⟩, rfl⟩

/-- What a stable id is compressed to.  An own local id hides what another
session has at its position. -/
inductive Compresses (peer : Peer) (stable : StableId) : SessionSpaceId → Prop
  | own {g : Nat} {id : SessionSpaceId} (positive : 0 < g) (generated : g ≤ peer.generated)
      (handed : peer.HandedOut g id) (lies : stable.LiesAt peer.session g) :
      Compresses peer stable id
  | other {origin : SessionId} {g final : Nat} (foreign : origin ≠ peer.session)
      (finalized : peer.ledger.finalOf? origin .finalized g = some final)
      (lies : stable.LiesAt origin g)
      (unshadowed : ∀ g', peer.locals.Holds g' → ¬ stable.LiesAt peer.session g') :
      Compresses peer stable (.ofFinal final)

namespace Sound

private theorem compresses_of_compress? (sound : peer.Sound)
    (h : peer.compress? stable = some id) : peer.Compresses stable id := by
  have linked := sound.ledger.linked
  have laid := sound.ledger.laid
  cases hlocal : peer.localGeneration? stable with
  | some g =>
      obtain ⟨held, hlies⟩ := sound.localGeneration?_eq_some_iff.1 hlocal
      obtain ⟨hpos, hle⟩ := sound.bounds_of_holds held
      simp only [compress?, hlocal, Option.some.injEq] at h
      subst h
      exact .own hpos hle (.asGeneration held) hlies
  | none =>
      have hnone := sound.localGeneration?_eq_none_iff.1 hlocal
      obtain ⟨i, c, origin, g, hc, howner, hcovers, hlies, hvisible, rfl⟩ :=
        (sound.compress?_of_none hlocal).1 h
      rcases (sound.isVisible_iff howner).1 hvisible with ⟨rfl, hle⟩ | ⟨horigin, hend⟩
      · have hfinal : peer.ownFinal? g = some (c.baseFinal + (g - c.baseGeneration)) :=
          sound.ownFinal?_eq_some_iff.2 ⟨i, c, hc, howner, hcovers, rfl⟩
        exact .own (sound.one_le_of_ownFinal? hfinal) hle
          (.asFinal (fun held => hnone g held hlies) hfinal) hlies
      · have hbase := (Cluster.covers_iff.1 hcovers).1
        refine .other horigin ?_ hlies hnone
        rw [Ledger.finalOf?_eq_some_iff linked laid]
        exact ⟨i, c, hc, howner, Cluster.covers_iff.2 ⟨hbase, hend⟩, rfl⟩

private theorem compress?_of_compresses (sound : peer.Sound) (h : peer.Compresses stable id) :
    peer.compress? stable = some id := by
  have linked := sound.ledger.linked
  have laid := sound.ledger.laid
  cases h with
  | @own g id hpos hle handed hlies =>
      cases handed with
      | asGeneration held =>
          simp [compress?, sound.localGeneration?_eq_some_iff.2 ⟨held, hlies⟩]
      | asFinal free reserved =>
          have hlocal : peer.localGeneration? stable = none :=
            sound.localGeneration?_eq_none_iff.2 fun g' held hlies' =>
              free (hlies.unique hlies' ▸ held)
          obtain ⟨i, c, hc, howner, hcovers, rfl⟩ := sound.ownFinal?_eq_some_iff.1 reserved
          have hvisible := (sound.isVisible_iff howner).2 (.inl ⟨rfl, hle⟩)
          exact (sound.compress?_of_none hlocal).2
            ⟨i, c, peer.session, g, hc, howner, hcovers, hlies, hvisible, rfl⟩
  | @other origin g final horigin hfinal hlies hnone =>
      have hlocal := sound.localGeneration?_eq_none_iff.2 hnone
      rw [Ledger.finalOf?_eq_some_iff linked laid] at hfinal
      obtain ⟨i, c, hc, howner, hcovers, rfl⟩ := hfinal
      obtain ⟨hbase, hend⟩ := Cluster.covers_iff.1 hcovers
      have hreserved := Nat.lt_of_lt_of_le hend (laid.endOf_le hc .finalized)
      have hvisible := (sound.isVisible_iff howner).2 (.inr ⟨horigin, hend⟩)
      exact (sound.compress?_of_none hlocal).2
        ⟨i, c, origin, g, hc, howner, Cluster.covers_iff.2 ⟨hbase, hreserved⟩, hlies, hvisible,
          rfl⟩

theorem compress?_eq_some_iff (sound : peer.Sound) :
    peer.compress? stable = some id ↔ peer.Compresses stable id :=
  ⟨sound.compresses_of_compress?, sound.compress?_of_compresses⟩

end Sound

theorem Compresses.expand? (h : peer.Compresses stable id) (sound : peer.Sound) :
    peer.expand? id = some stable := by
  cases h with
  | own hpos hle handed hlies =>
      rw [handed.expand? sound hpos hle, Session.stableIdOf_of_liesAt hpos hlies]
  | other horigin hfinal hlies =>
      have hpos := Ledger.one_le_of_finalOf? sound.ledger.linked sound.ledger.laid hfinal
      rw [sound.expand?_of_finalized hfinal, Session.stableIdOf_of_liesAt hpos hlies]

theorem Compresses.exists_toOp (h : peer.Compresses stable id) (sound : peer.Sound) :
    ∃ op, peer.toOp id = .ok op := by
  cases h with
  | own hpos hle handed hlies =>
      obtain ⟨op, hop, -⟩ := handed.exists_toOp sound hpos
      exact ⟨op, hop⟩
  | @other origin g final => exact ⟨.ofFinal final, by simp [toOp, toOp?]⟩

theorem Compresses.toSession (h : peer.Compresses stable id) (sound : peer.Sound) :
    peer.toSession id.asOp peer.session = .ok id := by
  cases h with
  | own hpos hle handed hlies => exact handed.toSession sound hpos hle handed.formOf.asOp
  | other horigin hfinal => exact sound.toSession_ofFinal horigin hfinal peer.session

theorem expand?_compress? (origin : start.Origin) (actions : List Action)
    (h : (start.replay actions).compress? stable = some id) :
    let peer := start.replay actions
    peer.expand? id = some stable ∧ (∃ op, peer.toOp id = .ok op) ∧
      peer.toSession id.asOp peer.session = .ok id := by
  have sound := origin.sound.replay actions
  have compresses := sound.compress?_eq_some_iff.1 h
  exact ⟨compresses.expand? sound, compresses.exists_toOp sound, compresses.toSession sound⟩

theorem expand?_compress?_nested :
    let session : SessionId := Position.toStableId ⟨10, by decide⟩
    let outer : SessionId := Position.toStableId ⟨5, by decide⟩
    let peer := (ofSession session).replay [.finalize (.ofSpan outer 1 8)]
    (ofSession session).Origin ∧ peer.compress? session = some (.ofFinal 5) ∧
      peer.expand? (.ofFinal 5) = some session ∧
      peer.toSession (SpaceId.ofFinal 5).asOp peer.session = .ok (.ofFinal 5) := by
  intro session outer peer
  have origin : (ofSession session).Origin := .created (.standard session)
  have hcompress : peer.compress? session = some (.ofFinal 5) := by decide +kernel
  obtain ⟨hexpand, -, hback⟩ := expand?_compress? origin _ hcompress
  exact ⟨origin, hcompress, hexpand, hback⟩

/-- No local id of the peer lies where another session reserves a position. -/
def Unshadowed (peer : Peer) : Prop :=
  ∀ place s g, peer.ledger.registry.session? place = some s → s.id ≠ peer.session →
    peer.locals.contains g = true →
    ¬ (s.position.val ≤ peer.session.position.val + g - 1 ∧
      peer.session.position.val + g - 1 < s.reach peer.ledger.tiling)

theorem HandedOut.compress? (h : peer.HandedOut g id) (sound : peer.Sound) (hpos : 0 < g)
    (hle : g ≤ peer.generated) (fits : peer.session.position.val + peer.generated ≤ 1 <<< 122) :
    peer.compress? ((Session.ofId peer.session).stableIdOf g) = some id :=
  sound.compress?_eq_some_iff.2 (.own hpos hle h (Session.liesAt_stableIdOf hpos (by omega)))

theorem Unshadowed.compress? (unshadowed : peer.Unshadowed) (sound : peer.Sound)
    (hother : origin ≠ peer.session)
    (h : peer.ledger.finalOf? origin .finalized g = some final) :
    peer.compress? ((Session.ofId origin).stableIdOf g) = some (.ofFinal final) := by
  have hpos := Ledger.one_le_of_finalOf? sound.ledger.linked sound.ledger.laid h
  obtain ⟨place, s, hs, rfl, hspan, hinside⟩ := sound.ledger.exists_span h
  change s.id.position.val + g ≤ s.reach peer.ledger.tiling at hspan
  have hlies : ((Session.ofId s.id).stableIdOf g).LiesAt s.id g :=
    Session.liesAt_stableIdOf hpos (by omega)
  refine sound.compress?_eq_some_iff.2 (.other hother h hlies fun g' held hlies' => ?_)
  have hclear := unshadowed place s g' hs hother (sound.locals.contains_iff.2 held)
  unfold StableId.LiesAt at hlies hlies'
  change ¬ (s.id.position.val ≤ _ ∧ _) at hclear
  omega

theorem compress?_expand? (created : Created session capacity start) {actions : List Action}
    (honest : start.Honest actions)
    (fits : session.position.val + (start.replay actions).generated ≤ 2 ^ 122)
    (unshadowed : (start.replay actions).Unshadowed) :
    let peer := start.replay actions
    (∀ id stable, peer.expand? id = some stable →
      ∃ own, peer.toSession id.asOp session = .ok own ∧ peer.compress? stable = some own) ∧
    (∀ g id, (g, id) ∈ start.ids actions →
      ∃ stable, peer.expand? id = some stable ∧ peer.compress? stable = some id) ∧
    (∀ origin g final, origin ≠ session →
      peer.ledger.finalOf? origin .finalized g = some final →
      ∃ stable, peer.expand? (.ofFinal final) = some stable ∧
        peer.compress? stable = some (.ofFinal final)) ∧
    ∀ g final, (g, .ofGeneration g) ∈ start.ids actions →
      peer.ledger.finalOf? session .finalized g = some final →
      ∃ stable, peer.expand? (.ofFinal final) = some stable ∧
        peer.compress? stable = some (.ofGeneration g) := by
  intro peer
  have accounted := created.accounted_replay honest
  have sound : peer.Sound := accounted.sound
  have hsession : peer.session = session := accounted.own
  rw [← hsession] at fits ⊢
  have hid : ∀ g id, (g, id) ∈ start.ids actions →
      peer.expand? id = some ((Session.ofId peer.session).stableIdOf g) ∧
        peer.compress? ((Session.ofId peer.session).stableIdOf g) = some id := by
    intro g id hmem
    obtain ⟨hpos, hle, handed⟩ := created.sound.handedOut_replay hmem
    exact ⟨handed.expand? sound hpos hle, handed.compress? sound hpos hle fits⟩
  refine ⟨fun id stable hexpand => ?_, fun g id hmem => ⟨_, hid g id hmem⟩,
    fun origin g final hother hfinal => ⟨_, sound.expand?_of_finalized hfinal,
      unshadowed.compress? sound hother hfinal⟩,
    fun g final hmem hfinal => ⟨_, sound.expand?_of_finalized hfinal, (hid g _ hmem).2⟩⟩
  rcases accounted.means_cases (sound.expand?_eq_some_iff.1 hexpand) with
    ⟨g, hpos, hle, hform, rfl⟩ | ⟨origin, g, final, hother, hfinal, rfl, rfl⟩
  · obtain ⟨own, handed⟩ := created.exists_handedOut hpos hle
    rw [← hsession]
    exact ⟨own, handed.toSession sound hpos hle hform.asOp, handed.compress? sound hpos hle fits⟩
  · rw [← hsession] at hother
    exact ⟨.ofFinal final, sound.toSession_ofFinal hother hfinal peer.session,
      unshadowed.compress? sound hother hfinal⟩

theorem compress?_expand?_two :
    let session : SessionId := Position.toStableId ⟨5, by decide⟩
    let other : SessionId := Position.toStableId ⟨1000, by decide⟩
    let actions : List Action := [.generate, .take, .finalize (.ofSpan session 1 1), .generate,
      .finalize (.ofSpan other 1 1)]
    let peer := (ofSession session).replay actions
    Created session defaultCapacity (ofSession session) ∧ (ofSession session).Honest actions ∧
      session.position.val + peer.generated ≤ 2 ^ 122 ∧ peer.Unshadowed ∧
      (∃ stable, peer.expand? (.ofFinal 0) = some stable ∧
        peer.compress? stable = some (.ofGeneration 1)) ∧
      ∃ stable, peer.expand? (.ofFinal 513) = some stable ∧
        peer.compress? stable = some (.ofFinal 513) := by
  intro session other actions peer
  have honest : (ofSession session).Honest actions := by decide +kernel
  have fits : session.position.val + peer.generated ≤ 2 ^ 122 := by decide +kernel
  have unshadowed : peer.Unshadowed := by
    intro place s g hs hother hcontains
    have sound : peer.Sound := (sound_ofSession session).replay actions
    have hle := (sound.bounds_of_holds (sound.locals.contains_iff.1 hcontains)).2
    have hgenerated : peer.generated = 2 := by decide +kernel
    have hposition : peer.session.position.val = 5 := by decide +kernel
    have hfar : ∀ t ∈ peer.ledger.registry.sessions, t.id ≠ peer.session →
        1000 ≤ t.position.val := by decide +kernel
    have := hfar s (Array.mem_of_getElem? hs) hother
    omega
  obtain ⟨-, -, hothers, hown⟩ :=
    compress?_expand? (.standard session) honest fits unshadowed
  exact ⟨.standard session, honest, fits, unshadowed,
    hown 1 0 (by decide +kernel) (by decide +kernel),
    hothers other 1 513 (by decide +kernel) (by decide +kernel)⟩

end Peer

end CompactIds
