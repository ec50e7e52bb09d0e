import CompactIds.Proofs.Extends

/-!
# Ids that were handed out

A peer hands an id out as a generation or, once it is reserved, as a final id.
It goes on to remember which of the two, and the final id stays the same.
-/

namespace CompactIds

namespace Peer

variable {session : SessionId} {capacity g final : Nat} {peer next : Peer}
  {id : SessionSpaceId} {c : Cluster} {action : Action}

namespace Sound

theorem ownFinal?_eq (sound : peer.Sound) (g : Nat) :
    peer.ownFinal? g = peer.ledger.finalOf? peer.session .reserved g := by
  obtain ⟨s, hs, hid⟩ := sound.own
  have hfind := sound.ledger.linked.indexed.find?_session hs
  rw [hid] at hfind
  simp [ownFinal?, Ledger.finalOf?, hfind, own?]

theorem ownerOf?_eq_iff (sound : peer.Sound) :
    peer.ledger.ownerOf? c = some peer.session ↔ c.session = ownPlace := by
  obtain ⟨s, hs, hid⟩ := sound.own
  rw [← hid]
  exact sound.ledger.linked.ownerOf?_session hs

theorem ownFinal?_eq_some_iff (sound : peer.Sound) :
    peer.ownFinal? g = some final ↔
      ∃ i c, peer.ledger.tiling.cluster? i = some c ∧
        peer.ledger.ownerOf? c = some peer.session ∧ c.covers .reserved g = true ∧
        final = c.baseFinal + (g - c.baseGeneration) := by
  rw [sound.ownFinal?_eq, Ledger.finalOf?_eq_some_iff sound.ledger.linked sound.ledger.laid]

theorem ownTail?_eq (sound : peer.Sound) : peer.ownTail? = peer.ledger.tail? peer.session := by
  obtain ⟨s, hs, hid⟩ := sound.own
  rw [← hid, sound.ledger.linked.tail?_session hs]
  simp [ownTail?, hs]

theorem ownFinal?_of_tail (sound : peer.Sound)
    (h : peer.ownTail?.bind (·.finalOf? g) = some final) : peer.ownFinal? g = some final := by
  obtain ⟨c, hc, hfinal⟩ := Option.bind_eq_some_iff.1 h
  rw [sound.ownTail?_eq] at hc
  obtain ⟨i, hi, hcluster⟩ := Option.bind_eq_some_iff.1 hc
  obtain ⟨d, tail⟩ := sound.ledger.linked.tailPlace?_eq_some_iff.1 hi
  have hd := tail.cluster
  rw [hcluster] at hd
  cases hd
  simp only [Cluster.finalOf?, Option.ite_none_right_eq_some, Option.some.injEq] at hfinal
  rw [sound.ownFinal?_eq_some_iff]
  exact ⟨i, c, hcluster, tail.owner, hfinal.1, hfinal.2.symm⟩

theorem ownGeneration?_eq_some_iff (sound : peer.Sound) :
    peer.ownGeneration? final = some g ↔ peer.ownFinal? g = some final := by
  have linked := sound.ledger.linked
  have laid := sound.ledger.laid
  obtain ⟨s, hs, -⟩ := sound.own
  simp only [ownGeneration?, ownFinal?, hs, Option.bind_eq_bind, Option.bind_some,
    Ledger.session_generationOf?_eq_some_iff linked laid hs,
    Ledger.session_finalOf?_eq_some_iff linked laid hs]
  constructor
  · rintro ⟨i, c, hc, hplace, hcontains, rfl⟩
    refine ⟨i, c, hc, hplace, ?_, ?_⟩ <;>
      simp only [Cluster.containsFinal_iff, Cluster.covers_iff, Cluster.endOf] at * <;> omega
  · rintro ⟨i, c, hc, hplace, hcovers, rfl⟩
    refine ⟨i, c, hc, hplace, laid.containsFinal_of_covers hc hcovers, ?_⟩
    rw [Cluster.covers_iff] at hcovers
    omega

end Sound

/-- How a peer remembers the id that it handed out for a generation. -/
inductive HandedOut (peer : Peer) (g : Nat) : SessionSpaceId → Prop
  | asGeneration (held : peer.locals.Holds g) : HandedOut peer g (.ofGeneration g)
  | asFinal {final : Nat} (free : ¬ peer.locals.Holds g)
      (reserved : peer.ownFinal? g = some final) : HandedOut peer g (.ofFinal final)

def given (peer : Peer) : Action → List (Nat × SessionSpaceId)
  | .generate =>
      if peer.generated < idLimit then [(peer.generated + 1, peer.generate.1)] else []
  | _ => []

/-- The ids that are handed out over a history. -/
def ids : Peer → List Action → List (Nat × SessionSpaceId)
  | _, [] => []
  | peer, action :: actions => peer.given action ++ ids (peer.perform action) actions

structure Recorded (peer : Peer) (ids : List (Nat × SessionSpaceId)) : Prop where
  sound : peer.Sound
  bounds : ∀ {g id}, (g, id) ∈ ids → 0 < g ∧ g ≤ peer.generated
  entry : ∀ {g id}, (g, id) ∈ ids → peer.HandedOut g id

namespace Step

theorem generated_le (step : peer.Step action next) : peer.generated ≤ next.generated := by
  cases step with
  | idle => exact Nat.le_refl _
  | generateFinal => exact Nat.le_succ _
  | generateLocal => exact Nat.le_succ _
  | take => exact Nat.le_refl _
  | setCapacity => exact Nat.le_refl _
  | finalize => exact Nat.le_refl _

theorem holds_iff (step : peer.Step action next) (hle : g ≤ peer.generated) :
    next.locals.Holds g ↔ peer.locals.Holds g := by
  cases step with
  | idle => exact Iff.rfl
  | generateFinal => exact Iff.rfl
  | generateLocal =>
      simp only [LocalRuns.holds_add, or_iff_left_iff_imp]
      omega
  | take => exact Iff.rfl
  | setCapacity => exact Iff.rfl
  | finalize => exact Iff.rfl

theorem ownFinal? (step : peer.Step action next) (sound : peer.Sound)
    (h : peer.ownFinal? g = some final) : next.ownFinal? g = some final := by
  have sound' := step.sound sound
  rw [sound.ownFinal?_eq] at h
  rw [sound'.ownFinal?_eq, step.session_eq]
  exact sound.ledger.finalOf?_extends sound'.ledger (step.extends sound) h

theorem handedOut (step : peer.Step action next) (sound : peer.Sound) (hle : g ≤ peer.generated)
    (h : peer.HandedOut g id) : next.HandedOut g id := by
  cases h with
  | asGeneration held => exact .asGeneration ((step.holds_iff hle).2 held)
  | asFinal free reserved =>
      exact .asFinal (fun held => free ((step.holds_iff hle).1 held))
        (step.ownFinal? sound reserved)

theorem handedOut_given (step : peer.Step action next) (sound : peer.Sound)
    (hmem : (g, id) ∈ peer.given action) :
    0 < g ∧ g ≤ next.generated ∧ next.HandedOut g id := by
  cases step with
  | idle exhausted =>
      cases action with
      | generate => simp [given, exhausted rfl] at hmem
      | take => cases hmem
      | setCapacity capacity => cases hmem
      | finalize range => cases hmem
      | copy => cases hmem
      | reload => cases hmem
  | generateFinal unused reserved =>
      simp only [given, if_pos unused, generate_of_some reserved, List.mem_singleton,
        Prod.mk.injEq] at hmem
      obtain ⟨rfl, rfl⟩ := hmem
      refine ⟨Nat.succ_pos _, Nat.le_refl _, .asFinal ?_ (sound.ownFinal?_of_tail reserved)⟩
      rintro ⟨run, hrun, -, hend⟩
      have := sound.locals.bounded run hrun
      omega
  | generateLocal unused unreserved =>
      simp only [given, if_pos unused, generate_of_none unreserved, List.mem_singleton,
        Prod.mk.injEq] at hmem
      obtain ⟨rfl, rfl⟩ := hmem
      refine ⟨Nat.succ_pos _, Nat.le_refl _, .asGeneration ?_⟩
      simp only [LocalRuns.holds_add]
      omega
  | take => cases hmem
  | setCapacity => cases hmem
  | finalize => cases hmem

end Step

namespace Recorded

variable {ids : List (Nat × SessionSpaceId)}

theorem step (h : peer.Recorded ids) (step : peer.Step action next) :
    next.Recorded (ids ++ peer.given action) where
  sound := step.sound h.sound
  bounds := by
    intro g id hmem
    rcases List.mem_append.1 hmem with hmem | hmem
    · obtain ⟨hpos, hle⟩ := h.bounds hmem
      exact ⟨hpos, Nat.le_trans hle step.generated_le⟩
    · obtain ⟨hpos, hle, -⟩ := step.handedOut_given h.sound hmem
      exact ⟨hpos, hle⟩
  entry := by
    intro g id hmem
    rcases List.mem_append.1 hmem with hmem | hmem
    · exact step.handedOut h.sound (h.bounds hmem).2 (h.entry hmem)
    · exact (step.handedOut_given h.sound hmem).2.2

theorem replay (h : peer.Recorded ids) (actions : List Action) :
    (peer.replay actions).Recorded (ids ++ peer.ids actions) := by
  induction actions generalizing peer ids with
  | nil =>
      rw [Peer.ids, List.append_nil]
      exact h
  | cons action actions ih =>
      rw [Peer.ids, ← List.append_assoc]
      exact ih (h.step (h.sound.step action))

end Recorded

theorem Sound.recorded (sound : peer.Sound) : peer.Recorded [] where
  sound := sound
  bounds := by
    intro g id hmem
    cases hmem
  entry := by
    intro g id hmem
    cases hmem

theorem Created.recorded (created : Created session capacity peer) : peer.Recorded [] :=
  created.sound.recorded

/-- An id that was handed out up to some time, as it is remembered then. -/
theorem Sound.handedOut_replay (sound : peer.Sound) {actions : List Action}
    (hmem : (g, id) ∈ peer.ids actions) :
    0 < g ∧ g ≤ (peer.replay actions).generated ∧ (peer.replay actions).HandedOut g id := by
  have recorded := sound.recorded.replay actions
  rw [List.nil_append] at recorded
  obtain ⟨hpos, hle⟩ := recorded.bounds hmem
  exact ⟨hpos, hle, recorded.entry hmem⟩

theorem ids_append (peer : Peer) (before after : List Action) :
    peer.ids (before ++ after) = peer.ids before ++ (peer.replay before).ids after := by
  induction before generalizing peer with
  | nil => rfl
  | cons action before ih =>
      simp only [List.cons_append, ids, ih, List.append_assoc]
      rfl

theorem Sound.ownFinal?_replay (sound : peer.Sound) (actions : List Action)
    (h : peer.ownFinal? g = some final) : (peer.replay actions).ownFinal? g = some final := by
  induction actions generalizing peer with
  | nil => exact h
  | cons action actions ih =>
      exact ih (sound.perform action) ((sound.step action).ownFinal? sound h)

end Peer

end CompactIds
