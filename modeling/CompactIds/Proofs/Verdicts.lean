import CompactIds.Proofs.Attempts
import CompactIds.Proofs.Neighbours

/-!
# Which ranges are accepted

A range is judged by a list of rules, of which the first that applies decides.
The rules speak of all sessions and all reserved positions, and the answer must
be the same on every peer.  A refused range leaves no trace.
-/

namespace CompactIds

/-- A condition on a range, with the answers that it allows. -/
structure Rule where
  applies : Prop
  answers : Set (Except Fault Unit)

/-- The first rule that applies allows the answer. -/
def Decides (answer : Except Fault Unit) : List Rule → Prop
  | [] => False
  | rule :: rules =>
      rule.applies ∧ answer ∈ rule.answers ∨ ¬ rule.applies ∧ Decides answer rules

section Decides

variable {answer : Except Fault Unit} {rule : Rule} {rules : List Rule}

theorem decides_of_applies (h : rule.applies) :
    Decides answer (rule :: rules) ↔ answer ∈ rule.answers := by
  simp [Decides, h]

theorem decides_of_not_applies (h : ¬ rule.applies) :
    Decides answer (rule :: rules) ↔ Decides answer rules := by
  simp [Decides, h]

end Decides

def answerOf : Option Fault → Except Fault Unit
  | some fault => .error fault
  | none => .ok ()

namespace Ledger

variable {ledger : Ledger} {id : SessionId} {ids : Span} {count room i : Nat} {c : Cluster}

def roomRules (ledger : Ledger) (id : SessionId) (room : Nat) : List Rule :=
  let reservedEnd := ledger.endOf id .reserved
  let length := reservedEnd - 1 + room
  [⟨2 ^ 63 - 1 < reservedEnd + room ∨ 2 ^ 63 - 1 < ledger.tiling.nextBase + room,
      {.error (.malformedRange id .noRoom)}⟩,
    ⟨2 ^ 122 < id.position.val + length, {.error (.collision id id)}⟩,
    ⟨∃ s, ledger.Rival id s ∧ ledger.Meets id.position length s,
      {answer | ∃ s, ledger.Rival id s ∧ ledger.Meets id.position length s ∧
        answer = .error (.collision id s.id)}⟩,
    ⟨True, {.ok ()}⟩]

/-- How a range with ids is judged.  A session without clusters is expected to
start with generation 1, and has no reserve. -/
def rules (ledger : Ledger) (id : SessionId) (ids : Span) : List Rule :=
  let expected := ledger.endOf id .finalized
  ⟨ids.count = 0, {.error (.malformedRange id .noIds)}⟩ ::
  ⟨ids.first = 0, {.error (.malformedRange id .generationZero)}⟩ ::
  ⟨2 ^ 63 - 1 < ids.first + ids.count, {.error (.malformedRange id .generationsTooLarge)}⟩ ::
  ⟨ids.first ≠ expected, {.error (.outOfOrder id expected ids.first)}⟩ ::
  ⟨∃ i c, ledger.tiling.cluster? i = some c ∧ ledger.ownerOf? c = some id ∧
    ids.count ≤ c.remaining, {.ok ()}⟩ ::
  ledger.roomRules id (ledger.capacity + ids.count - ledger.reserve id)

namespace Sound

variable (sound : ledger.Sound)
include sound

theorem tailOf_of_remaining_pos (hc : ledger.tiling.cluster? i = some c)
    (howner : ledger.ownerOf? c = some id) (hpos : 0 < c.remaining) : ledger.TailOf id i c := by
  refine ⟨howner, hc, ⟨c, hc, rfl⟩, fun j d hij hd hsame => ?_⟩
  have := sound.laid.full hc hd hij hsame.symm
  unfold Cluster.remaining at hpos
  omega

theorem exists_remaining_iff (id : SessionId) (hcount : 0 < count) :
    (∃ i c, ledger.tiling.cluster? i = some c ∧ ledger.ownerOf? c = some id ∧
      count ≤ c.remaining) ↔ count ≤ ledger.reserve id := by
  constructor
  · rintro ⟨i, c, hc, howner, hfits⟩
    have tail := sound.tailOf_of_remaining_pos hc howner (Nat.lt_of_lt_of_le hcount hfits)
    rwa [sound.linked.reserve_of_tailOf tail]
  · intro hfits
    cases hplace : ledger.tailPlace? id with
    | none =>
        rw [reserve_of_tailPlace?_none hplace] at hfits
        omega
    | some i =>
        obtain ⟨c, tail⟩ := sound.linked.tailPlace?_eq_some_iff.1 hplace
        rw [sound.linked.reserve_of_tailOf tail] at hfits
        exact ⟨i, c, tail.cluster, tail.owner, hfits⟩

theorem decides_roomRules (id : SessionId) (hroom : 0 < room) :
    Decides (answerOf (ledger.roomRefusal? id room)) (ledger.roomRules id room) := by
  have hlimit : idLimit = 2 ^ 63 - 1 := rfl
  have hlength : 0 < ledger.endOf id .reserved - 1 + room := by omega
  unfold roomRefusal? roomRules
  rw [hlimit]
  by_cases hlarge : 2 ^ 63 - 1 < ledger.endOf id .reserved + room ∨
      2 ^ 63 - 1 < ledger.tiling.nextBase + room
  · rw [decides_of_applies hlarge, if_pos hlarge]
    rfl
  rw [decides_of_not_applies hlarge, if_neg hlarge]
  by_cases houtside : 2 ^ 122 < id.position.val + (ledger.endOf id .reserved - 1 + room)
  · rw [decides_of_applies houtside, Registry.collision?_eq_some_of_outside _ _ _ houtside]
    rfl
  rw [decides_of_not_applies houtside]
  have hinside := Nat.le_of_not_lt houtside
  cases hfound : ledger.registry.collision? id id.position
      (ledger.endOf id .reserved - 1 + room) ledger.tiling with
  | some other =>
      obtain ⟨s, rival, meets, rfl, -⟩ :=
        sound.exists_of_collision?_eq_some hlength hinside hfound
      have hmeets : ∃ s, ledger.Rival id s ∧
          ledger.Meets id.position (ledger.endOf id .reserved - 1 + room) s := ⟨s, rival, meets⟩
      rw [decides_of_applies hmeets]
      exact ⟨s, rival, meets, rfl⟩
  | none =>
      have hclear : ¬ ∃ s, ledger.Rival id s ∧
          ledger.Meets id.position (ledger.endOf id .reserved - 1 + room) s := by
        rw [← sound.exists_collision?_iff hlength hinside, hfound]
        simp
      rw [decides_of_not_applies hclear, decides_of_applies trivial]
      rfl

theorem decides_rules (id : SessionId) (ids : Span) :
    Decides (answerOf (ledger.refusal? id ids)) (ledger.rules id ids) := by
  have hlimit : idLimit = 2 ^ 63 - 1 := rfl
  unfold refusal? rules
  rw [hlimit]
  by_cases hzero : ids.count = 0
  · rw [decides_of_applies hzero, if_pos hzero]
    rfl
  rw [decides_of_not_applies hzero, if_neg hzero]
  by_cases hfirst : ids.first = 0
  · rw [decides_of_applies hfirst, if_pos hfirst]
    rfl
  rw [decides_of_not_applies hfirst, if_neg hfirst]
  by_cases hlarge : 2 ^ 63 - 1 < ids.first + ids.count
  · rw [decides_of_applies hlarge, if_pos hlarge]
    rfl
  rw [decides_of_not_applies hlarge, if_neg hlarge]
  by_cases horder : ids.first ≠ ledger.endOf id .finalized
  · rw [decides_of_applies horder, if_pos horder]
    rfl
  rw [decides_of_not_applies horder, if_neg horder]
  have hremaining := sound.exists_remaining_iff id (Nat.pos_of_ne_zero hzero)
  by_cases hfits : ids.count ≤ ledger.reserve id
  · rw [decides_of_applies (hremaining.2 hfits), if_pos hfits]
    rfl
  · have hroom : ledger.capacity + ids.count - ledger.reserve id =
        ledger.roomFor id ids.count :=
      Nat.add_sub_assoc (Nat.le_of_not_le hfits) _
    rw [decides_of_not_applies (hremaining.not.2 hfits), if_neg hfits, hroom]
    exact sound.decides_roomRules id (sound.roomFor_pos id ids.count)

end Sound

end Ledger

namespace Peer

variable {start peer : Peer}

/-- Finalizing in place: the answer, and the peer that is left behind. -/
def attempt (peer : Peer) (range : CreationRange) : Except Fault Unit × Peer :=
  let (answer, ledger) := (Attempt.finalize range).exec peer.ledger
  (answer, { peer with ledger })

theorem Sound.attempt_eq (sound : peer.Sound) (range : CreationRange) :
    peer.attempt range =
      match peer.finalize range with
      | .ok next => (.ok (), next)
      | .error fault => (.error fault, peer) := by
  unfold attempt finalize
  rw [Attempt.exec_finalize sound.ledger]
  cases peer.ledger.finalize range <;> rfl

theorem Sound.decides_attempt (sound : peer.Sound) {range : CreationRange} {ids : Span}
    (hids : range.ids = some ids) :
    Decides (peer.attempt range).1 (peer.ledger.rules range.session ids) := by
  have hanswer : (peer.attempt range).1 = answerOf (peer.ledger.refusal? range.session ids) := by
    rw [sound.attempt_eq]
    simp only [finalize, Ledger.finalize, hids]
    cases peer.ledger.refusal? range.session ids <;> rfl
  rw [hanswer]
  exact sound.ledger.decides_rules range.session ids

theorem attempt_replay (origin : start.Origin) (actions : List Action) (range : CreationRange) :
    let peer := start.replay actions
    let answer := (peer.attempt range).1
    let after := (peer.attempt range).2
    (range.ids = none → answer = .ok () ∧ after = peer) ∧
    (∀ ids, range.ids = some ids → Decides answer (peer.ledger.rules range.session ids)) ∧
    (∀ fault, answer = .error fault → after = peer) ∧
    peer.finalize range = answer.map fun _ => after := by
  intro peer answer after
  have sound : peer.Sound := origin.sound.replay actions
  have hattempt := sound.attempt_eq range
  refine ⟨fun hids => ?_, fun ids => sound.decides_attempt, fun fault hfault => ?_, ?_⟩
  · have hfinalize : peer.finalize range = .ok peer := by
      simp only [finalize, Ledger.finalize, hids]
    rw [hfinalize] at hattempt
    exact ⟨congrArg Prod.fst hattempt, congrArg Prod.snd hattempt⟩
  · cases hfinalize : peer.finalize range with
    | ok next =>
        rw [hfinalize] at hattempt
        cases hfault.symm.trans (congrArg Prod.fst hattempt)
    | error fault =>
        rw [hfinalize] at hattempt
        exact congrArg Prod.snd hattempt
  · simp only [answer, after, hattempt]
    cases peer.finalize range <;> rfl

/-- A first range that would lie in the span of another session is refused, and
its session is as unknown as before. -/
theorem attempt_replay_nested :
    let own : SessionId := Position.toStableId ⟨600, by decide⟩
    let first : SessionId := Position.toStableId ⟨5, by decide⟩
    let nested : SessionId := Position.toStableId ⟨100, by decide⟩
    let peer := (ofSession own).replay [.finalize (.ofSpan first 1 1)]
    let after := (peer.attempt (.ofSpan nested 1 1)).2
    (ofSession own).Origin ∧
      (peer.attempt (.ofSpan nested 1 1)).1 = .error (.collision nested first) ∧
      after = peer ∧ after.ledger.registry.find? nested = none ∧
      Decides (.error (.collision nested first)) (peer.ledger.rules nested ⟨1, 1⟩) := by
  intro own first nested peer after
  have origin : (ofSession own).Origin := .created (.standard own)
  have hanswer : (peer.attempt (.ofSpan nested 1 1)).1 = .error (.collision nested first) := by
    decide +kernel
  obtain ⟨-, hdecides, hafter, -⟩ :=
    attempt_replay origin [.finalize (.ofSpan first 1 1)] (.ofSpan nested 1 1)
  have hsame : after = peer := hafter _ hanswer
  refine ⟨origin, hanswer, hsame, ?_, hanswer ▸ hdecides ⟨1, 1⟩ rfl⟩
  rw [hsame]
  decide +kernel

end Peer

end CompactIds
