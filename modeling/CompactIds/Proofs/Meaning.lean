import CompactIds.Proofs.HonestRuns
import CompactIds.Proofs.OwnIds
import CompactIds.Proofs.Positions

/-!
# What ids stand for

An id expands to the stable id of one generation of one session.  Where the
ranges of the own session come from the peer itself, the id that it hands out
for a generation stands for nothing before, and for that generation ever after.
-/

namespace CompactIds

namespace Peer

variable {session : SessionId} {capacity k g final : Nat} {peer start : Peer}
  {id : SessionSpaceId} {stable : StableId}

/-- What a peer takes an id to stand for: a local id of its own, a final id that
is finalized, or one that it handed out in advance. -/
inductive Means (peer : Peer) : SessionSpaceId → StableId → Prop
  | generation {g : Nat} (held : peer.locals.Holds g) :
      Means peer (.ofGeneration g) ((Session.ofId peer.session).stableIdOf g)
  | finalized {origin : SessionId} {g final : Nat}
      (finalized : peer.ledger.finalOf? origin .finalized g = some final) :
      Means peer (.ofFinal final) ((Session.ofId origin).stableIdOf g)
  | eager {g final : Nat} (free : ¬ peer.locals.Holds g) (generated : g ≤ peer.generated)
      (reserved : peer.ownFinal? g = some final) :
      Means peer (.ofFinal final) ((Session.ofId peer.session).stableIdOf g)

namespace Sound

theorem one_le_of_ownFinal? (sound : peer.Sound) (h : peer.ownFinal? g = some final) : 1 ≤ g := by
  rw [sound.ownFinal?_eq] at h
  exact Ledger.one_le_of_finalOf? sound.ledger.linked sound.ledger.laid h

theorem bounds_of_holds (sound : peer.Sound) (held : peer.locals.Holds g) :
    0 < g ∧ g ≤ peer.generated := by
  obtain ⟨run, hrun, hfirst, hend⟩ := held
  have := sound.locals.positive run hrun
  have := sound.locals.bounded run hrun
  omega

private theorem means_of_expand?_ofGeneration (sound : peer.Sound) (hpos : 0 < g)
    (h : peer.expand? (.ofGeneration g) = some stable) : peer.Means (.ofGeneration g) stable := by
  obtain ⟨s, hs, hid⟩ := sound.own
  simp only [expand?, SpaceId.form_ofGeneration hpos, hs, Option.bind_eq_bind, Option.bind_some,
    Option.ite_none_right_eq_some, Option.some.injEq] at h
  obtain ⟨hcontains, rfl⟩ := h
  rw [stableIdOf_ofId hid]
  exact .generation (sound.locals.contains_iff.1 hcontains)

private theorem means_of_expand?_ofFinal (sound : peer.Sound)
    (h : peer.expand? (.ofFinal final) = some stable) : peer.Means (.ofFinal final) stable := by
  have linked := sound.ledger.linked
  have laid := sound.ledger.laid
  simp only [expand?, SpaceId.form_ofFinal, Option.bind_eq_bind, Option.bind_eq_some_iff,
    Option.ite_none_right_eq_some, Option.some.injEq] at h
  obtain ⟨i, -, c, hc, g, hgeneration, s, hs, hholds, rfl⟩ := h
  rw [Cluster.generationOf?_eq_some_iff, Cluster.finalOf?, Option.ite_none_right_eq_some,
    Option.some.injEq] at hgeneration
  obtain ⟨hcovers, rfl⟩ := hgeneration
  have howner : peer.ledger.ownerOf? c = some s.id := Ledger.ownerOf?_eq_some_iff.2 ⟨s, hs, rfl⟩
  simp only [holdsFinal, Bool.or_eq_true, Bool.and_eq_true, decide_eq_true_eq,
    Bool.not_eq_true'] at hholds
  rcases hholds with hend | ⟨⟨hplace, hfree⟩, hle⟩
  · have hfinalized := Cluster.covers_iff.2 ⟨(Cluster.covers_iff.1 hcovers).1, hend⟩
    rw [stableIdOf_ofId rfl]
    exact .finalized ((Ledger.finalOf?_eq_some_iff linked laid).2
      ⟨i, c, hc, howner, hfinalized, rfl⟩)
  · have hown := sound.ownerOf?_eq_iff.2 hplace
    rw [howner, Option.some.injEq] at hown
    rw [stableIdOf_ofId hown]
    refine .eager ?_ hle ?_
    · rw [← sound.locals.contains_iff, hfree]
      exact Bool.false_ne_true
    · exact sound.ownFinal?_eq_some_iff.2
        ⟨i, c, hc, sound.ownerOf?_eq_iff.2 hplace, hcovers, rfl⟩

theorem expand?_eq_some_iff (sound : peer.Sound) :
    peer.expand? id = some stable ↔ peer.Means id stable := by
  constructor
  · intro h
    rcases id.eq_ofGeneration_or_eq_ofFinal with ⟨g, hpos, rfl⟩ | ⟨final, rfl⟩
    · exact sound.means_of_expand?_ofGeneration hpos h
    · exact sound.means_of_expand?_ofFinal h
  · intro means
    cases means with
    | generation held =>
        obtain ⟨hpos, hle⟩ := sound.bounds_of_holds held
        exact (HandedOut.asGeneration held).expand? sound hpos hle
    | finalized h => exact sound.expand?_of_finalized h
    | eager free hle reserved =>
        exact (HandedOut.asFinal free reserved).expand? sound
          (sound.one_le_of_ownFinal? reserved) hle

end Sound

/-- Where no id is finalized before it is generated, an id stands for one that
the peer generated, or for a finalized one of another session. -/
theorem Accounted.means_cases {ranges : List CreationRange}
    (accounted : peer.Accounted session ranges) (means : peer.Means id stable) :
    (∃ g, 0 < g ∧ g ≤ peer.generated ∧ peer.FormOf g id ∧
        stable = (Session.ofId session).stableIdOf g) ∨
      ∃ origin g final, origin ≠ session ∧
        peer.ledger.finalOf? origin .finalized g = some final ∧ id = .ofFinal final ∧
        stable = (Session.ofId origin).stableIdOf g := by
  have sound := accounted.sound
  have linked := sound.ledger.linked
  have laid := sound.ledger.laid
  have hsession := accounted.own
  cases means with
  | @generation g held =>
      obtain ⟨hpos, hle⟩ := sound.bounds_of_holds held
      exact .inl ⟨g, hpos, hle, .inl rfl, by rw [hsession]⟩
  | @finalized origin g final h =>
      by_cases horigin : origin = session
      · subst horigin
        have hend := Ledger.lt_endOf_of_finalOf? linked laid h
        have := accounted.finalized
        have := sound.taken_le
        have hown : peer.ownFinal? g = some final := by
          rw [sound.ownFinal?_eq, hsession]
          exact sound.ledger.finalOf?_reserved h
        exact .inl ⟨g, Ledger.one_le_of_finalOf? linked laid h, by omega,
          .inr ⟨final, hown, rfl⟩, rfl⟩
      · exact .inr ⟨origin, g, final, horigin, h, rfl, rfl⟩
  | @eager g final free hle reserved =>
      exact .inl ⟨g, sound.one_le_of_ownFinal? reserved, hle, .inr ⟨final, reserved, rfl⟩,
        by rw [hsession]⟩

theorem Step.generated_eq {action : Action} {next : Peer} (step : peer.Step action next) :
    next.generated = peer.generated + (peer.given action).length := by
  cases step with
  | idle exhausted =>
      cases action with
      | generate => simp [given, exhausted rfl]
      | take => rfl
      | setCapacity capacity => rfl
      | finalize range => rfl
      | copy => rfl
      | reload => rfl
  | generateFinal unused => simp [given, unused]
  | generateLocal unused => simp [given, unused]
  | take => rfl
  | setCapacity => rfl
  | finalize => rfl

theorem Sound.generated_replay (sound : peer.Sound) (actions : List Action) :
    (peer.replay actions).generated = peer.generated + (peer.ids actions).length := by
  induction actions generalizing peer with
  | nil => rfl
  | cons action actions ih =>
      rw [ids, List.length_append, ← Nat.add_assoc, ← (sound.step action).generated_eq]
      exact ih (sound.perform action)

private theorem given_getElem? {action : Action}
    (h : (peer.given action)[k]? = some (g, id)) : g = peer.generated + k + 1 := by
  cases action with
  | generate =>
      simp only [given] at h
      split at h
      · obtain ⟨hk, hentry⟩ := List.getElem?_eq_some_iff.1 h
        rw [List.length_singleton, Nat.lt_one_iff] at hk
        subst hk
        cases hentry
        rfl
      · cases h
  | take => cases h
  | setCapacity capacity => cases h
  | finalize range => cases h
  | copy => cases h
  | reload => cases h

theorem Sound.ids_getElem? (sound : peer.Sound) {actions : List Action}
    (h : (peer.ids actions)[k]? = some (g, id)) : g = peer.generated + k + 1 := by
  induction actions generalizing peer k with
  | nil => cases h
  | cons action actions ih =>
      have hgenerated := (sound.step action).generated_eq
      rw [ids] at h
      by_cases hk : k < (peer.given action).length
      · rw [List.getElem?_append_left hk] at h
        exact given_getElem? h
      · rw [List.getElem?_append_right (Nat.le_of_not_lt hk)] at h
        have := ih (sound.perform action) h
        omega

theorem Created.generated_eq (created : Created session capacity start) :
    start.generated = 0 := by
  rw [created.eq]
  rfl

theorem Created.exists_mem_ids (created : Created session capacity start)
    {actions : List Action} (hpos : 0 < g) (hle : g ≤ (start.replay actions).generated) :
    ∃ id, (g, id) ∈ start.ids actions := by
  have sound := created.sound
  rw [sound.generated_replay, created.generated_eq, Nat.zero_add] at hle
  obtain ⟨⟨g', id⟩, hid⟩ : ∃ entry, (start.ids actions)[g - 1]? = some entry :=
    ⟨_, List.getElem?_eq_getElem (by omega)⟩
  have hg : g' = g := by
    rw [sound.ids_getElem? hid, created.generated_eq]
    omega
  subst hg
  exact ⟨id, List.mem_of_getElem? hid⟩

theorem Created.exists_handedOut (created : Created session capacity start)
    {actions : List Action} (hpos : 0 < g) (hle : g ≤ (start.replay actions).generated) :
    ∃ id, (start.replay actions).HandedOut g id := by
  obtain ⟨id, hid⟩ := created.exists_mem_ids hpos hle
  exact ⟨id, (created.sound.handedOut_replay hid).2.2⟩

theorem Accounted.expand?_eq_none {ranges : List CreationRange} {later : List Action}
    (accounted : peer.Accounted session ranges) (hform : (peer.replay later).FormOf g id)
    (hg : peer.generated < g) : peer.expand? id = none := by
  have sound := accounted.sound
  have sound' := sound.replay later
  rw [Option.eq_none_iff_forall_ne_some]
  intro stable hexpand
  rcases accounted.means_cases (sound.expand?_eq_some_iff.1 hexpand) with
    ⟨g', hpos, hle, hform', -⟩ | ⟨origin, g', final, horigin, hfinal, rfl, -⟩
  · have := (hform'.replay sound later).unique hform sound' hpos (by omega)
    omega
  · rcases hform with hform | ⟨final', hfinal', hform⟩
    · exact SpaceId.ofGeneration_ne_ofFinal (by omega) final hform.symm
    · rw [SpaceId.ofFinal_inj] at hform
      have hkept := sound.ledger.finalOf?_extends sound'.ledger (sound.extends_replay later) hfinal
      rw [sound'.ownFinal?_eq, sound.session_replay, accounted.own, ← hform] at hfinal'
      exact horigin (Ledger.finalOf?_inj sound'.ledger.linked sound'.ledger.laid hkept hfinal').1

theorem expand?_ids (created : Created session capacity start) {actions : List Action}
    (honest : start.Honest actions) (hid : (start.ids actions)[k]? = some (g, id)) :
    (∀ before, before <+: actions →
      ((start.ids before).length ≤ k → (start.replay before).expand? id = none) ∧
      (k < (start.ids before).length →
        (start.replay before).expand? id = some (session.position.offset k).toStableId)) ∧
    ∀ j g' id', (start.ids actions)[j]? = some (g', id') → j ≠ k → id' ≠ id := by
  have sound := created.sound
  have hg : g = k + 1 := by
    rw [sound.ids_getElem? hid, created.generated_eq, Nat.zero_add]
  obtain ⟨hpos, -, handed⟩ := sound.handedOut_replay (List.mem_of_getElem? hid)
  refine ⟨?_, fun j g' id' hid' hne heq => hne ?_⟩
  · rintro before ⟨later, rfl⟩
    have hgenerated := sound.generated_replay before
    rw [created.generated_eq, Nat.zero_add] at hgenerated
    constructor
    · intro hle
      have hform := handed.formOf
      rw [replay_append] at hform
      exact (created.accounted_replay honest.init).expand?_eq_none hform (by omega)
    · intro hlt
      rw [ids_append, List.getElem?_append_left hlt] at hid
      obtain ⟨-, hle, handed'⟩ := sound.handedOut_replay (List.mem_of_getElem? hid)
      rw [handed'.expand? (sound.replay before) hpos hle, sound.session_replay,
        created.session_eq, hg, Session.stableIdOf_succ]
  · obtain ⟨hpos', -, handed'⟩ := sound.handedOut_replay (List.mem_of_getElem? hid')
    subst heq
    have := handed'.formOf.unique handed.formOf (sound.replay actions) hpos' hpos
    rw [sound.ids_getElem? hid', created.generated_eq, hg] at this
    omega

theorem expand?_ids_eager :
    let session : SessionId := Position.toStableId ⟨5, by decide⟩
    let before : List Action := [.generate, .take, .finalize (.ofSpan session 1 1)]
    let after : List Action := [.generate, .take, .reload]
    Created session defaultCapacity (ofSession session) ∧
      (ofSession session).Honest (before ++ after) ∧
      ((ofSession session).ids (before ++ after))[1]? = some (2, .ofFinal 1) ∧
      ((ofSession session).replay before).expand? (.ofFinal 1) = none ∧
      ((ofSession session).replay (before ++ after)).expand? (.ofFinal 1) =
        some (session.position.offset 1).toStableId := by
  intro session before after
  have honest : (ofSession session).Honest (before ++ after) := by decide +kernel
  have hid : ((ofSession session).ids (before ++ after))[1]? = some (2, .ofFinal 1) := by
    decide +kernel
  obtain ⟨hexpand, -⟩ := expand?_ids (.standard session) honest hid
  exact ⟨.standard session, honest, hid,
    (hexpand before (List.prefix_append _ _)).1 (by decide +kernel),
    (hexpand (before ++ after) (List.prefix_refl _)).2 (by decide +kernel)⟩

end Peer

end CompactIds
