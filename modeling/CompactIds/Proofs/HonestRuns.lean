import CompactIds.Proofs.History
import CompactIds.Proofs.Tails
import Mathlib.Data.List.Induction

/-!
# Resuming along a history

Every state of a peer can be saved and resumed, unless its generations are used
up or ids of its session were finalized that it never handed out.  The second
does not happen where ranges of the session come from the peer itself.
-/

namespace CompactIds.Peer

variable {session : SessionId} {capacity : Nat} {peer start : Peer}

def finalizedEnd (peer : Peer) : Nat :=
  match peer.ownTail? with
  | some c => c.endOf .finalized
  | none => 1

theorem Sound.finalizedEnd_eq (sound : peer.Sound) :
    peer.finalizedEnd = peer.ledger.endOf peer.session .finalized := by
  obtain ⟨own, hown, hid⟩ := sound.own
  rw [← hid, sound.ledger.linked.endOf_session hown]
  simp only [finalizedEnd, ownTail?, hown, Option.bind_eq_bind, Option.bind_some]
  rfl

def handed (peer : Peer) : Action → List CreationRange
  | .take => [peer.take.1]
  | _ => []

def issued : Peer → List Action → List CreationRange
  | _, [] => []
  | peer, action :: actions => peer.handed action ++ issued (peer.perform action) actions

/-- Each range of the own session was taken before it is finalized. -/
def Honest (start : Peer) (actions : List Action) : Prop :=
  ∀ before range after, actions = before ++ .finalize range :: after →
    range.session = start.session → range ∈ start.issued before

def isHonestAt (start : Peer) (actions : List Action) (i : Nat) : Bool :=
  match actions[i]? with
  | some (.finalize range) =>
      range.session ≠ start.session || (start.issued (actions.take i)).contains range
  | _ => true

theorem honest_iff (start : Peer) (actions : List Action) :
    start.Honest actions ↔ ∀ i < actions.length, start.isHonestAt actions i = true := by
  constructor
  · intro honest i hi
    unfold isHonestAt
    split
    · rename_i range hrange
      obtain ⟨_, hget⟩ := List.getElem?_eq_some_iff.1 hrange
      have hsplit : actions = actions.take i ++ .finalize range :: actions.drop (i + 1) := by
        rw [← hget, ← List.drop_eq_getElem_cons hi, List.take_append_drop]
      have := honest _ _ _ hsplit
      simpa [Decidable.or_iff_not_imp_left] using this
    · rfl
  · rintro checked before range after rfl hown
    have := checked before.length (by simp)
    simpa [isHonestAt, hown] using this

instance (start : Peer) (actions : List Action) : Decidable (start.Honest actions) :=
  decidable_of_iff _ (start.honest_iff actions).symm

theorem issued_append (start : Peer) (before after : List Action) :
    start.issued (before ++ after) =
      start.issued before ++ (start.replay before).issued after := by
  induction before generalizing start with
  | nil => rfl
  | cons action before ih =>
      simp only [List.cons_append, issued, ih, List.append_assoc]
      rfl

theorem Honest.init {before after : List Action} (honest : start.Honest (before ++ after)) :
    start.Honest before := by
  intro front range back hsplit
  apply honest front range (back ++ after)
  rw [hsplit, List.append_assoc]
  rfl

/-- What a peer handed out, and what came back of it. -/
structure Accounted (peer : Peer) (session : SessionId) (ranges : List CreationRange) :
    Prop where
  sound : peer.Sound
  own : peer.session = session
  ends : ∀ range ∈ ranges, ∀ ids, range.ids = some ids → ids.first + ids.count ≤ peer.taken + 1
  finalized : peer.ledger.endOf session .finalized ≤ peer.taken + 1

namespace Accounted

variable {ranges : List CreationRange}

theorem take (h : peer.Accounted session ranges) (fresh : peer.taken < peer.generated) :
    { peer with taken := peer.generated }.Accounted session (ranges ++ [peer.take.1]) where
  sound := (Step.take fresh).sound h.sound
  own := h.own
  ends := by
    intro range hmem ids hids
    simp only
    rcases List.mem_append.1 hmem with hmem | hmem
    · have := h.ends range hmem ids hids
      omega
    · rw [List.mem_singleton.1 hmem] at hids
      simp only [Peer.take, fresh, if_true, CreationRange.ofSpan, Option.some.injEq] at hids
      rw [← hids]
      simp only
      omega
  finalized := by
    have := h.finalized
    simp only
    omega

theorem takeNone (h : peer.Accounted session ranges) (upToDate : peer.taken = peer.generated) :
    peer.Accounted session (ranges ++ [peer.take.1]) where
  sound := h.sound
  own := h.own
  ends := by
    intro range hmem ids hids
    rcases List.mem_append.1 hmem with hmem | hmem
    · exact h.ends range hmem ids hids
    · rw [List.mem_singleton.1 hmem] at hids
      simp [Peer.take, upToDate, CreationRange.empty] at hids
  finalized := h.finalized

theorem finalize (h : peer.Accounted session ranges) {range : CreationRange} {ledger : Ledger}
    (accepted : peer.ledger.finalize range = .ok ledger)
    (honest : range.session = session → range ∈ ranges) :
    { peer with ledger }.Accounted session ranges where
  sound := h.sound.withLedger accepted
  own := h.own
  ends := h.ends
  finalized := by
    have hfinalized := h.finalized
    rcases h.sound.ledger.finalize_cases accepted with
      ⟨-, rfl⟩ | ⟨ids, hids, hcount, -, hfirst, hallocates⟩
    · exact hfinalized
    · simp only
      by_cases hown : range.session = session
      · have hends := h.ends range (honest hown) ids hids
        have hend := hallocates.endOf_finalized h.sound.ledger hcount
        rw [← hfirst, hown] at hend
        rw [hend]
        exact hends
      · rw [hallocates.endOf_other h.sound.ledger hcount hown .finalized]
        exact hfinalized

theorem step (h : peer.Accounted session ranges) {action : Action} {next : Peer}
    (step : peer.Step action next)
    (honest : ∀ range, action = .finalize range → range.session = session → range ∈ ranges) :
    next.Accounted session (ranges ++ peer.handed action) := by
  have sound := step.sound h.sound
  cases step with
  | idle exhausted upToDate =>
      cases action with
      | take => exact h.takeNone (upToDate rfl)
      | generate => simpa [handed] using h
      | setCapacity capacity => simpa [handed] using h
      | finalize range => simpa [handed] using h
      | copy => simpa [handed] using h
      | reload => simpa [handed] using h
  | generateFinal =>
      simp only [handed, List.append_nil]
      exact ⟨sound, h.own, h.ends, h.finalized⟩
  | generateLocal =>
      simp only [handed, List.append_nil]
      exact ⟨sound, h.own, h.ends, h.finalized⟩
  | take fresh => exact h.take fresh
  | setCapacity =>
      simp only [handed, List.append_nil]
      exact ⟨sound, h.own, h.ends, h.finalized⟩
  | finalize accepted =>
      simp only [handed, List.append_nil]
      exact h.finalize accepted (honest _ rfl)

end Accounted

theorem Created.accounted (created : Created session capacity start) :
    start.Accounted session [] where
  sound := created.sound
  own := created.session_eq
  ends := by
    intro range hmem
    cases hmem
  finalized := by
    have hown : start.own? = some (.ofId session) := by
      rw [created.eq]
      exact registry_ofSession session ownPlace
    have hend := created.sound.ledger.linked.endOf_session hown .finalized
    rw [Session.endOf_eq_one rfl] at hend
    rw [show session = (Session.ofId session).id from rfl, hend]
    exact Nat.le_add_left _ _

theorem Created.accounted_replay (created : Created session capacity start)
    {actions : List Action} (honest : start.Honest actions) :
    (start.replay actions).Accounted session (start.issued actions) := by
  have hsession := created.accounted.own
  -- From the end, since honesty looks back at what was taken before.
  induction actions using List.reverseRecOn with
  | nil => exact created.accounted
  | append_singleton before action ih =>
      have h := ih honest.init
      rw [replay_append, issued_append, issued, issued, List.append_nil]
      apply h.step (h.sound.step action)
      intro range hrange hown
      exact honest before range [] (by rw [hrange]) (hown.trans hsession.symm)

theorem load_save_replay (created : Created session capacity start) (actions : List Action) :
    let peer := start.replay actions
    (peer.generated < idLimit → peer.finalizedEnd ≤ peer.taken + 1 →
      load none (peer.save true) = .ok peer) ∧
    (peer.generated = idLimit →
      load none (peer.save true) = .error (.malformedSnapshot .counters)) ∧
    (peer.generated < idLimit → peer.taken + 1 < peer.finalizedEnd →
      load none (peer.save true) = .error (.malformedSnapshot .neverTaken)) ∧
    peer.generated ≤ idLimit ∧
    (start.Honest actions → peer.finalizedEnd ≤ peer.taken + 1) ∧
    SnapshotDefect.counters.message = "inconsistent generation counters" ∧
    SnapshotDefect.neverTaken.message = "local session finalized ids it never handed out" := by
  intro peer
  have sound : peer.Sound := created.sound.replay actions
  have hend := sound.finalizedEnd_eq
  refine ⟨fun hlt hle => ?_, fun heq => ?_, fun hlt hgt => ?_, sound.generated_le,
    fun honest => ?_, rfl, rfl⟩
  · rw [load_save sound hlt, ← hend, if_neg (Nat.not_lt.2 hle)]
  · exact load_save_exhausted sound heq
  · rw [load_save sound hlt, ← hend, if_pos hgt]
    rfl
  · have accounted := created.accounted_replay honest
    rw [hend, accounted.own]
    exact accounted.finalized

/-- The own session has no cluster at first, so the snapshot leaves it out of its table.
Later its chain goes on behind a cluster of the other session.  Ids that were finalized
but never handed out make the snapshot unusable. -/
theorem load_save_replay_overflow :
    let own : SessionId := Position.toStableId ⟨5, by decide⟩
    let other : SessionId := Position.toStableId ⟨900, by decide⟩
    let start := ofSession own
    let early : List Action := [.generate, .take, .finalize (.ofSpan other 1 2), .setCapacity 2]
    let actions : List Action := early ++ [.finalize (.ofSpan own 1 1),
      .finalize (.ofSpan other 3 600), .generate, .generate, .generate, .take,
      .finalize (.ofSpan own 2 3)]
    let unissued : List Action := [.generate, .take, .finalize (.ofSpan own 1 2)]
    Created own defaultCapacity start ∧
      (start.replay early).ledger.tiling.clusters.map (·.session) = #[1] ∧
      load none ((start.replay early).save true) = .ok (start.replay early) ∧
      (start.replay actions).ledger.tiling.clusters.map (·.session) = #[1, 0, 1, 0] ∧
      (start.replay actions).locals.runs = #[⟨1, 1⟩, ⟨4, 1⟩] ∧
      load none ((start.replay actions).save true) = .ok (start.replay actions) ∧
      load none ((start.replay unissued).save true) =
        .error (.malformedSnapshot .neverTaken) := by
  intro own other start early actions unissued
  have created : Created own defaultCapacity start := .standard own
  obtain ⟨hearly, -⟩ := load_save_replay created early
  obtain ⟨hactions, -⟩ := load_save_replay created actions
  obtain ⟨-, -, hunissued, -⟩ := load_save_replay created unissued
  exact ⟨created, by decide +kernel, hearly (by decide +kernel) (by decide +kernel),
    by decide +kernel, by decide +kernel, hactions (by decide +kernel) (by decide +kernel),
    hunissued (by decide +kernel) (by decide +kernel)⟩

end CompactIds.Peer
