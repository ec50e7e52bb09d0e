import CompactIds.Proofs.Blocks
import CompactIds.Proofs.History

/-!
# Peers converge

What a peer answers to the common sequence of ranges and capacities, and the
clusters that it has after each of them, do not depend on whose peer it is or
on what it generates, takes and reloads in between.
-/

namespace CompactIds

namespace Block

def fill (b : Block) (count : Nat) : Block :=
  { b with count := b.count + count }

def grow (b : Block) (room count : Nat) : Block :=
  { b with capacity := b.capacity + room, count := b.count + count }

def fillUp (b : Block) : Block :=
  { b with count := b.capacity }

end Block

namespace Ledger

variable {ledger other : Ledger} {id : SessionId} {i room count : Nat}

section Judging

variable (agree : ledger.Agree other) (sound : ledger.Sound) (sound' : other.Sound)

include agree sound sound'

theorem Agree.roomFor_eq (id : SessionId) (count : Nat) :
    ledger.roomFor id count = other.roomFor id count := by
  rw [roomFor, roomFor, agree.capacity, agree.reserve_eq sound.linked sound'.linked]

theorem Agree.roomRefusal?_eq (id : SessionId) (room : Nat) :
    ledger.roomRefusal? id room = other.roomRefusal? id room := by
  simp only [roomRefusal?, agree.endOf_eq sound.linked sound'.linked, agree.nextBase_eq,
    agree.collision?_eq sound sound']

theorem Agree.refusal?_eq (id : SessionId) (ids : Span) :
    ledger.refusal? id ids = other.refusal? id ids := by
  simp only [refusal?, agree.endOf_eq sound.linked sound'.linked,
    agree.reserve_eq sound.linked sound'.linked, agree.roomRefusal?_eq sound sound',
    agree.roomFor_eq sound sound']

end Judging

private theorem blocks_surplus {filled : Ledger} (linked : filled.Linked)
    (base room count : Nat) :
    ((filled.register id).append (filled.registry.register id).2 base room count).blocks =
      filled.blocks ++ [⟨some id, filled.tiling.nextBase, base, room, count⟩] := by
  obtain ⟨s, hs, hid⟩ := (linked.register id).indexed.session?_of_find?
    (linked.indexed.find?_register id)
  rw [blocks_append, blocks_register linked]
  change (filled.register id).registry.session? _ = some s at hs
  rw [hs, Option.map_some, hid]
  rfl

private def filled (ledger : Ledger) (id : SessionId) : Ledger :=
  match ledger.tailPlace? id with
  | some i => ledger.modifyCluster i .fillUp
  | none => ledger

private theorem linked_filled (linked : ledger.Linked) (id : SessionId) :
    (ledger.filled id).Linked := by
  unfold filled
  cases hplace : ledger.tailPlace? id with
  | none => exact linked
  | some i =>
      obtain ⟨c, tail⟩ := linked.tailPlace?_eq_some_iff.1 hplace
      exact linked.modifyCluster tail.cluster rfl

private theorem appendSurplus_eq (ledger : Ledger) (id : SessionId) (count : Nat) :
    ledger.appendSurplus id count =
      ((ledger.filled id).register id).append ((ledger.filled id).registry.register id).2
        (ledger.endOf id .reserved) (ledger.roomFor id count) (count - ledger.reserve id) :=
  rfl

theorem Agree.modifyCluster (agree : ledger.Agree other) {f : Cluster → Cluster}
    {g : Block → Block} (h : ∀ c, ledger.block (f c) = g (ledger.block c))
    (h' : ∀ c, other.block (f c) = g (other.block c)) (i : Nat) :
    (ledger.modifyCluster i f).Agree (other.modifyCluster i f) where
  capacity := agree.capacity
  blocks := by
    rw [blocks_modifyCluster h, blocks_modifyCluster h', agree.blocks]

section Applying

variable (agree : ledger.Agree other) (sound : ledger.Sound) (sound' : other.Sound)

include agree sound sound'

private theorem Agree.filled (id : SessionId) : (ledger.filled id).Agree (other.filled id) := by
  unfold Ledger.filled
  rw [← agree.tailPlace?_eq sound.linked sound'.linked id]
  cases ledger.tailPlace? id with
  | none => exact agree
  | some i =>
      exact agree.modifyCluster (g := .fillUp) (fun _ => rfl) (fun _ => rfl) i

theorem Agree.appendSurplus (id : SessionId) (count : Nat) :
    (ledger.appendSurplus id count).Agree (other.appendSurplus id count) := by
  have filled := Agree.filled agree sound sound' id
  rw [appendSurplus_eq, appendSurplus_eq]
  constructor
  · exact filled.capacity
  · rw [blocks_surplus (linked_filled sound.linked id),
      blocks_surplus (linked_filled sound'.linked id), filled.blocks, filled.nextBase_eq,
      agree.endOf_eq sound.linked sound'.linked, agree.roomFor_eq sound sound',
      agree.reserve_eq sound.linked sound'.linked]

theorem Agree.apply (id : SessionId) (count : Nat) :
    (ledger.apply id count).Agree (other.apply id count) := by
  have surplus := agree.appendSurplus sound sound' id count
  unfold Ledger.apply
  simp only [← agree.tailPlace?_eq sound.linked sound'.linked id,
    ← agree.reserve_eq sound.linked sound'.linked id, ← agree.canGrow_eq,
    ← agree.roomFor_eq sound sound' id count]
  cases ledger.tailPlace? id with
  | none => exact surplus
  | some i =>
      simp only
      by_cases hfits : count ≤ ledger.reserve id
      · rw [if_pos hfits, if_pos hfits]
        exact agree.modifyCluster (g := fun b => b.fill count) (fun _ => rfl) (fun _ => rfl) i
      · rw [if_neg hfits, if_neg hfits]
        by_cases hlast : ledger.tiling.canGrow i = true
        · rw [if_pos hlast, if_pos hlast]
          exact agree.modifyCluster (g := fun b => b.grow (ledger.roomFor id count) count)
            (fun _ => rfl) (fun _ => rfl) i
        · rw [if_neg hlast, if_neg hlast]
          exact surplus

theorem Agree.finalize (range : CreationRange) :
    (∃ fault, ledger.finalize range = .error fault ∧ other.finalize range = .error fault) ∨
      ∃ next next', ledger.finalize range = .ok next ∧ other.finalize range = .ok next' ∧
        next.Agree next' := by
  unfold Ledger.finalize
  cases range.ids with
  | none => exact .inr ⟨ledger, other, rfl, rfl, agree⟩
  | some ids =>
      simp only [← agree.refusal?_eq sound sound']
      cases ledger.refusal? range.session ids with
      | some fault => exact .inl ⟨fault, rfl, rfl⟩
      | none => exact .inr ⟨_, _, rfl, rfl, agree.apply sound sound' _ _⟩

end Applying

end Ledger

/-- Whether an action is part of the common sequence. -/
def Action.isShared : Action → Bool
  | .setCapacity _ => true
  | .finalize _ => true
  | _ => false

structure Observation where
  answer : Except Fault Unit
  blocks : List Block
  nextBase : Nat
  limit : Nat
  deriving DecidableEq, Repr

namespace Peer

variable {session session' : SessionId} {capacity : Nat} {peer other : Peer}

def answer (peer : Peer) : Action → Except Fault Unit
  | .setCapacity capacity => (peer.setCapacity capacity).map fun _ => ()
  | .finalize range => (peer.finalize range).map fun _ => ()
  | _ => .ok ()

def observe (peer : Peer) (action : Action) : Observation where
  answer := peer.answer action
  blocks := (peer.perform action).ledger.blocks
  nextBase := (peer.perform action).ledger.tiling.nextBase
  limit := (peer.perform action).ledger.tiling.limit

def observations : Peer → List Action → List Observation
  | _, [] => []
  | peer, action :: actions =>
      if action.isShared then peer.observe action :: observations (peer.perform action) actions
      else observations (peer.perform action) actions

theorem Step.ledger_eq {action : Action} {next : Peer} (step : peer.Step action next)
    (h : action.isShared = false) : next.ledger = peer.ledger := by
  cases step with
  | idle => rfl
  | generateFinal => rfl
  | generateLocal => rfl
  | take => rfl
  | setCapacity => cases h
  | finalize => cases h

section Shared

variable (agree : peer.ledger.Agree other.ledger) (sound : peer.Sound) (sound' : other.Sound)

include agree sound sound'

theorem perform_agree {action : Action} (h : action.isShared = true) :
    peer.answer action = other.answer action ∧
      (peer.perform action).ledger.Agree (other.perform action).ledger := by
  cases action with
  | generate => cases h
  | take => cases h
  | copy => cases h
  | reload => cases h
  | setCapacity capacity =>
      simp only [answer, perform, setCapacity]
      cases checkCapacity capacity with
      | error fault => exact ⟨rfl, agree⟩
      | ok _ => exact ⟨rfl, rfl, agree.blocks⟩
  | finalize range =>
      simp only [answer, perform, finalize]
      rcases agree.finalize sound.ledger sound'.ledger range with
        ⟨fault, h, h'⟩ | ⟨next, next', h, h', hnext⟩
      · rw [h, h']
        exact ⟨rfl, agree⟩
      · rw [h, h']
        exact ⟨rfl, hnext⟩

theorem observe_eq {action : Action} (h : action.isShared = true) :
    peer.observe action = other.observe action := by
  obtain ⟨hanswer, hledger⟩ := perform_agree agree sound sound' h
  simp only [observe, hanswer, hledger.blocks, hledger.nextBase_eq, hledger.limit_eq]

theorem replay_agree (actions : List Action) :
    (peer.replay actions).ledger.Agree
      (other.replay (actions.filter Action.isShared)).ledger := by
  induction actions generalizing peer other with
  | nil => exact agree
  | cons action actions ih =>
      have next := sound.perform action
      cases h : action.isShared with
      | true =>
          rw [List.filter_cons_of_pos h]
          exact ih (perform_agree agree sound sound' h).2 next (sound'.perform action)
      | false =>
          rw [← (sound.step action).ledger_eq h] at agree
          rw [List.filter_cons_of_neg (by simp [h])]
          exact ih agree next sound'

theorem observations_filter (actions : List Action) :
    peer.observations actions = other.observations (actions.filter Action.isShared) := by
  induction actions generalizing peer other with
  | nil => rfl
  | cons action actions ih =>
      have next := sound.perform action
      cases h : action.isShared with
      | true =>
          have hledger := (perform_agree agree sound sound' h).2
          have hrest := ih hledger next (sound'.perform action)
          simp only [List.filter_cons, h, if_true, observations,
            observe_eq agree sound sound' h, hrest]
      | false =>
          rw [← (sound.step action).ledger_eq h] at agree
          have hrest := ih agree next sound'
          simpa [List.filter_cons, h, observations] using hrest

end Shared

theorem Created.agree (created : Created session capacity peer)
    (created' : Created session' capacity other) : peer.ledger.Agree other.ledger := by
  rw [created.eq, created'.eq]
  exact ⟨rfl, rfl⟩

theorem observations_eq (created : Created session capacity peer)
    (created' : Created session' capacity other) {actions actions' : List Action}
    (hshared : actions.filter Action.isShared = actions'.filter Action.isShared) :
    peer.observations actions = other.observations actions' := by
  have agree := created.agree created'
  rw [observations_filter (.refl _) created.sound created.sound,
    observations_filter agree.symm created'.sound created.sound, hshared]

theorem observations_eq_two :
    let first : SessionId := Position.toStableId ⟨5, by decide⟩
    let second : SessionId := Position.toStableId ⟨6, by decide⟩
    let range : CreationRange := .ofSpan first 1 1
    Created first defaultCapacity (ofSession first) ∧
      Created second defaultCapacity (ofSession second) ∧
      (ofSession first).observations [.generate, .finalize range] =
        (ofSession second).observations [.finalize range, .take, .reload] := by
  intro first second range
  exact ⟨.standard first, .standard second,
    observations_eq (.standard first) (.standard second) rfl⟩

end Peer

end CompactIds
