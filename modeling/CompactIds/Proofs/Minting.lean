import CompactIds.Proofs.Convergence
import CompactIds.Proofs.Generated
import CompactIds.Proofs.HonestRuns

/-!
# Minting beside remote traffic

A peer generates and takes without asking anyone, and what it makes is the same
whether ranges of other sessions arrive before or after.  Whole blocks of such
actions can therefore trade places in a history.
-/

namespace CompactIds

namespace Action

def isMinting : Action → Bool
  | .generate => true
  | .take => true
  | _ => false

def isRemote (own : SessionId) : Action → Bool
  | .finalize range => range.session ≠ own
  | _ => false

theorem isShared_of_isMinting {action : Action} (h : action.isMinting = true) :
    action.isShared = false := by
  cases action <;> simp_all [isMinting, isShared]

end Action

namespace Peer

variable {peer start : Peer} {range : CreationRange}

/-- A call and the finalization of a range give the same answers and lead to the
same state in either order. -/
structure Commutes {α : Type} (call : Peer → α × Peer) (range : CreationRange) (peer : Peer) :
    Prop where
  handed : (call (peer.perform (.finalize range))).1 = (call peer).1
  answer : (call peer).2.finalize range = (peer.finalize range).map fun next => (call next).2
  state : (call peer).2.perform (.finalize range) = (call (peer.perform (.finalize range))).2

theorem commutes_of_ledger {α : Type} {call : Peer → α × Peer}
    (keeps : (call peer).2.ledger = peer.ledger)
    (moves : ∀ ledger, peer.ledger.finalize range = .ok ledger →
      call { peer with ledger } = ((call peer).1, { (call peer).2 with ledger })) :
    Commutes call range peer := by
  cases h : peer.ledger.finalize range with
  | error fault => constructor <;> simp [perform, finalize, keeps, h, Except.map, Except.toOption]
  | ok ledger =>
      have hmoves := moves ledger h
      constructor <;>
        simp [perform, finalize, keeps, h, hmoves, Except.map, Except.toOption]

theorem generate_ledger (peer : Peer) : peer.generate.2.ledger = peer.ledger := by
  cases h : peer.ownTail?.bind (·.finalOf? (peer.generated + 1)) with
  | none => simp [generate_of_none h]
  | some final => simp [generate_of_some h]

theorem perform_generate (peer : Peer) :
    peer.perform .generate = if peer.generated < idLimit then peer.generate.2 else peer :=
  rfl

theorem generated_finalize (peer : Peer) (range : CreationRange) :
    (peer.perform (.finalize range)).generated = peer.generated := by
  cases h : peer.ledger.finalize range <;> simp [perform, finalize, h, Except.toOption]

theorem generate_withLedger {ledger : Ledger}
    (h : { peer with ledger }.ownTail? = peer.ownTail?) :
    { peer with ledger }.generate = (peer.generate.1, { peer.generate.2 with ledger }) := by
  simp only [generate, h]
  cases peer.ownTail?.bind (·.finalOf? (peer.generated + 1)) <;> rfl

theorem take_ledger (peer : Peer) : peer.take.2.ledger = peer.ledger := by
  unfold take
  split <;> rfl

theorem take_withLedger (peer : Peer) (ledger : Ledger) :
    { peer with ledger }.take = (peer.take.1, { peer.take.2 with ledger }) := by
  unfold take
  split <;> rfl

theorem commutes_take (peer : Peer) (range : CreationRange) : Commutes take range peer :=
  commutes_of_ledger peer.take_ledger fun ledger _ => peer.take_withLedger ledger

theorem Sound.commutes_generate (sound : peer.Sound) (other : range.session ≠ peer.session) :
    Commutes generate range peer := by
  refine commutes_of_ledger peer.generate_ledger fun ledger accepted => generate_withLedger ?_
  have sound' := sound.withLedger accepted
  calc { peer with ledger }.ownTail?
      = ledger.tail? peer.session := sound'.ownTail?_eq
    _ = peer.ledger.tail? peer.session := sound.ledger.tail?_finalize accepted other
    _ = peer.ownTail? := sound.ownTail?_eq.symm

/-- Two histories that hand out the same ids and ranges, answer the common sequence
alike and end in the same state. -/
structure SameCourse (start : Peer) (actions actions' : List Action) : Prop where
  replay : start.replay actions = start.replay actions'
  ids : start.ids actions = start.ids actions'
  issued : start.issued actions = start.issued actions'
  observations : start.observations actions = start.observations actions'

theorem observations_append (start : Peer) (before after : List Action) :
    start.observations (before ++ after) =
      start.observations before ++ (start.replay before).observations after := by
  induction before generalizing start with
  | nil => rfl
  | cons action before ih =>
      simp only [List.cons_append, observations, ih]
      split <;> rfl

theorem Sound.observations_congr (sound : peer.Sound) {xs ys : List Action}
    (h : xs.filter Action.isShared = ys.filter Action.isShared) :
    peer.observations xs = peer.observations ys := by
  rw [observations_filter (.refl _) sound sound xs, observations_filter (.refl _) sound sound ys, h]

namespace SameCourse

variable {xs ys zs : List Action}

theorem refl (start : Peer) (xs : List Action) : start.SameCourse xs xs :=
  ⟨rfl, rfl, rfl, rfl⟩

theorem trans (h : start.SameCourse xs ys) (h' : start.SameCourse ys zs) :
    start.SameCourse xs zs :=
  ⟨h.replay.trans h'.replay, h.ids.trans h'.ids, h.issued.trans h'.issued,
    h.observations.trans h'.observations⟩

theorem append_left (before : List Action) (h : (start.replay before).SameCourse xs ys) :
    start.SameCourse (before ++ xs) (before ++ ys) where
  replay := by simp only [replay_append, h.replay]
  ids := by simp only [ids_append, h.ids]
  issued := by simp only [issued_append, h.issued]
  observations := by simp only [observations_append, h.observations]

theorem append_right (after : List Action) (h : start.SameCourse xs ys) :
    start.SameCourse (xs ++ after) (ys ++ after) where
  replay := by simp only [replay_append, h.replay]
  ids := by simp only [ids_append, h.replay, h.ids]
  issued := by simp only [issued_append, h.replay, h.issued]
  observations := by simp only [observations_append, h.replay, h.observations]

end SameCourse

section Moving

variable {mint remote : Action} {block remotes : List Action}

theorem Sound.sameCourse_swap (sound : peer.Sound) (hmint : mint.isMinting = true)
    (hremote : remote.isRemote peer.session = true) :
    peer.SameCourse [mint, remote] [remote, mint] := by
  have hobservations : peer.observations [mint, remote] = peer.observations [remote, mint] :=
    sound.observations_congr (by simp [List.filter_cons, Action.isShared_of_isMinting hmint])
  cases remote with
  | finalize range =>
      have hgenerated := peer.generated_finalize range
      cases mint with
      | generate =>
          have commutes := sound.commutes_generate (by simpa [Action.isRemote] using hremote)
          refine ⟨?_, ?_, rfl, hobservations⟩
          · simp only [Peer.replay, List.foldl_cons, List.foldl_nil, perform_generate, hgenerated]
            split
            · exact commutes.state
            · rfl
          · simp [ids, given, hgenerated, commutes.handed]
      | take =>
          have commutes := peer.commutes_take range
          refine ⟨commutes.state, rfl, ?_, hobservations⟩
          simp [issued, handed, commutes.handed]
      | setCapacity => cases hmint
      | finalize => cases hmint
      | copy => cases hmint
      | reload => cases hmint
  | generate => cases hremote
  | take => cases hremote
  | setCapacity => cases hremote
  | copy => cases hremote
  | reload => cases hremote

theorem Sound.sameCourse_move (sound : peer.Sound) (hmint : mint.isMinting = true)
    (hremotes : ∀ remote ∈ remotes, remote.isRemote peer.session = true) :
    peer.SameCourse (mint :: remotes) (remotes ++ [mint]) := by
  induction remotes generalizing peer with
  | nil => exact .refl _ _
  | cons remote remotes ih =>
      obtain ⟨hremote, hrest⟩ := List.forall_mem_cons.1 hremotes
      have hsession := (sound.step remote).session_eq
      have first : peer.SameCourse ([mint, remote] ++ remotes) ([remote, mint] ++ remotes) :=
        (sound.sameCourse_swap hmint hremote).append_right remotes
      have rest : peer.SameCourse ([remote] ++ mint :: remotes) ([remote] ++ (remotes ++ [mint])) :=
        .append_left [remote] (ih (sound.perform remote) (hsession ▸ hrest))
      exact first.trans rest

theorem Sound.sameCourse_block (sound : peer.Sound)
    (hblock : ∀ mint ∈ block, mint.isMinting = true)
    (hremotes : ∀ remote ∈ remotes, remote.isRemote peer.session = true) :
    peer.SameCourse (block ++ remotes) (remotes ++ block) := by
  induction block generalizing peer with
  | nil => simpa using SameCourse.refl peer remotes
  | cons mint block ih =>
      obtain ⟨hmint, hrest⟩ := List.forall_mem_cons.1 hblock
      have hsession := (sound.step mint).session_eq
      have rest : peer.SameCourse ([mint] ++ (block ++ remotes)) ([mint] ++ (remotes ++ block)) :=
        .append_left [mint] (ih (sound.perform mint) hrest (hsession ▸ hremotes))
      have first : peer.SameCourse ((mint :: remotes) ++ block) ((remotes ++ [mint]) ++ block) :=
        (sound.sameCourse_move hmint hremotes).append_right block
      simpa using rest.trans first

end Moving

theorem minting_commutes (origin : start.Origin) (actions : List Action) :
    let peer := start.replay actions
    (∀ range, range.session ≠ peer.session → Commutes generate range peer) ∧
    (∀ range, Commutes take range peer) ∧
    ∀ block remotes after, (∀ mint ∈ block, mint.isMinting = true) →
      (∀ remote ∈ remotes, remote.isRemote peer.session = true) →
      start.SameCourse (actions ++ (block ++ remotes) ++ after)
        (actions ++ (remotes ++ block) ++ after) := by
  intro peer
  have sound : peer.Sound := origin.sound.replay actions
  refine ⟨fun range other => sound.commutes_generate other, peer.commutes_take, ?_⟩
  intro block remotes after hblock hremotes
  exact ((sound.sameCourse_block hblock hremotes).append_left actions).append_right after

theorem minting_commutes_reserve :
    let own : SessionId := Position.toStableId ⟨5, by decide⟩
    let other : SessionId := Position.toStableId ⟨900, by decide⟩
    let start := ofSession own
    let before : List Action := [.generate, .take, .finalize (.ofSpan own 1 1)]
    let block : List Action := [.generate, .take]
    let remotes : List Action := [.finalize (.ofSpan other 1 7)]
    start.Origin ∧
      start.SameCourse (before ++ (block ++ remotes) ++ [.generate])
        (before ++ (remotes ++ block) ++ [.generate]) := by
  intro own other start before block remotes
  have origin : start.Origin := .created (.standard own)
  obtain ⟨-, -, moved⟩ := minting_commutes origin before
  exact ⟨origin, moved block remotes [.generate] (by decide) (by decide +kernel)⟩

/-- A range of the own session does not commute with generating: the next id is final only
once the range has left a reserve behind. -/
example :
    let own : SessionId := Position.toStableId ⟨5, by decide⟩
    let range : CreationRange := .ofSpan own 1 1
    ((ofSession own).replay [.generate, .take, .generate, .finalize range]).locals ≠
      ((ofSession own).replay [.generate, .take, .finalize range, .generate]).locals := by
  decide +kernel

end Peer

end CompactIds
