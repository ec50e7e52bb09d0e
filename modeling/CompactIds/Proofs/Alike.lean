import CompactIds.Proofs.Compression
import CompactIds.Proofs.Resolution
import CompactIds.Proofs.Shares
import Mathlib.Data.List.Perm.Subperm

/-!
# Peers that cannot be told apart

Two peers of one session with the same counters and the same clusters give the
same answers, whatever places they give to the other sessions, and go on to do
so whatever both are asked to do.
-/

namespace CompactIds

namespace Ledger

variable {ledger other : Ledger}

theorem Agree.finalOf?_eq (agree : ledger.Agree other) (sound : ledger.Sound)
    (sound' : other.Sound) (id : SessionId) (extent : Extent) (g : Nat) :
    ledger.finalOf? id extent g = other.finalOf? id extent g := by
  apply Option.ext
  intro final
  rw [sound.finalOf?_eq_some_iff, sound'.finalOf?_eq_some_iff, agree.blocks]

theorem finalOf?_of_block_eq {c d : Cluster} (h : ledger.block c = other.block d) (g : Nat) :
    c.finalOf? g = d.finalOf? g := by
  have hbase : c.baseFinal = d.baseFinal := congrArg Block.baseFinal h
  have hgeneration : c.baseGeneration = d.baseGeneration := congrArg Block.baseGeneration h
  have hcapacity : c.capacity = d.capacity := congrArg Block.capacity h
  have hcovers : c.covers .reserved g = d.covers .reserved g := by
    rw [Bool.eq_iff_iff, Cluster.covers_iff, Cluster.covers_iff, Cluster.endOf, Cluster.endOf,
      hgeneration, hcapacity]
  rw [Cluster.finalOf?, Cluster.finalOf?, hcovers, hbase, hgeneration]

end Ledger

namespace Peer

variable {peer other : Peer} {id : SessionSpaceId} {op : OpSpaceId} {origin : SessionId}
  {stable : StableId} {g : Nat}

/-- All that can be asked of a peer, apart from the order of its sessions. -/
structure SameAnswers (peer other : Peer) : Prop where
  session : peer.session = other.session
  generated : peer.generated = other.generated
  capacity : peer.ledger.capacity = other.ledger.capacity
  sessions : (peer.ledger.registry.sessions.toList.map Session.id).Perm
    (other.ledger.registry.sessions.toList.map Session.id)
  sessionCount : peer.ledger.registry.size = other.ledger.registry.size
  blocks : peer.ledger.blocks = other.ledger.blocks
  clusterCount : peer.ledger.tiling.size = other.ledger.tiling.size
  limit : peer.ledger.tiling.limit = other.ledger.tiling.limit
  generate : peer.generate.1 = other.generate.1
  take : peer.take.1 = other.take.1
  answer : ∀ action, peer.answer action = other.answer action
  toOp : ∀ id, peer.toOp id = other.toOp id
  toSession : ∀ op origin, peer.toSession op origin = other.toSession op origin
  expand : ∀ id, peer.expand id = other.expand id
  compress : ∀ stable, peer.compress stable = other.compress stable

def Indistinguishable (peer other : Peer) : Prop :=
  ∀ later : List Action, (peer.replay later).SameAnswers (other.replay later)

/-- The same peer, but for the order of its sessions. -/
structure Alike (peer other : Peer) : Prop where
  session : peer.session = other.session
  generated : peer.generated = other.generated
  taken : peer.taken = other.taken
  locals : peer.locals = other.locals
  ledger : peer.ledger.Agree other.ledger

namespace Alike

theorem symm (alike : peer.Alike other) : other.Alike peer :=
  ⟨alike.session.symm, alike.generated.symm, alike.taken.symm, alike.locals.symm,
    alike.ledger.symm⟩

theorem holds_iff (alike : peer.Alike other) (g : Nat) :
    peer.locals.Holds g ↔ other.locals.Holds g := by
  rw [alike.locals]

section Answers

variable (alike : peer.Alike other) (sound : peer.Sound) (sound' : other.Sound)

include alike sound sound'

theorem ownFinal?_eq (g : Nat) : peer.ownFinal? g = other.ownFinal? g := by
  rw [sound.ownFinal?_eq, sound'.ownFinal?_eq, alike.session,
    alike.ledger.finalOf?_eq sound.ledger sound'.ledger]

private theorem handedOut (h : peer.HandedOut g id) : other.HandedOut g id := by
  cases h with
  | asGeneration held => exact .asGeneration ((alike.holds_iff g).1 held)
  | asFinal free reserved =>
      rw [alike.ownFinal?_eq sound sound'] at reserved
      exact .asFinal (fun held => free ((alike.holds_iff g).2 held)) reserved

private theorem means (h : peer.Means id stable) : other.Means id stable := by
  cases h with
  | generation held =>
      rw [alike.session]
      exact .generation ((alike.holds_iff _).1 held)
  | finalized finalized =>
      rw [alike.ledger.finalOf?_eq sound.ledger sound'.ledger] at finalized
      exact .finalized finalized
  | eager free generated reserved =>
      rw [alike.ownFinal?_eq sound sound'] at reserved
      rw [alike.session]
      exact .eager (fun held => free ((alike.holds_iff _).2 held))
        (alike.generated ▸ generated) reserved

private theorem compresses (h : peer.Compresses stable id) : other.Compresses stable id := by
  cases h with
  | own positive generated handed lies =>
      exact .own positive (alike.generated ▸ generated) (alike.handedOut sound sound' handed)
        (alike.session ▸ lies)
  | other foreign finalized lies unshadowed =>
      rw [alike.ledger.finalOf?_eq sound.ledger sound'.ledger] at finalized
      rw [alike.locals, alike.session] at unshadowed
      exact .other (alike.session ▸ foreign) finalized lies unshadowed

private theorem sends (h : peer.Sends id op) : other.Sends id op := by
  cases h with
  | final final => exact .final final
  | reserved held reserved =>
      rw [alike.ownFinal?_eq sound sound'] at reserved
      exact .reserved ((alike.holds_iff _).1 held) reserved
  | generation held unreserved =>
      rw [alike.ownFinal?_eq sound sound'] at unreserved
      exact .generation ((alike.holds_iff _).1 held) unreserved

private theorem resolves (h : peer.Resolves op origin id) : other.Resolves op origin id := by
  cases h with
  | own positive generated handed sent =>
      refine .own positive (alike.generated ▸ generated) (alike.handedOut sound sound' handed) ?_
      rcases sent with ⟨horigin, hform⟩ | ⟨final, hfinal, hform⟩
      · exact .inl ⟨horigin.trans alike.session, hform⟩
      · rw [alike.ownFinal?_eq sound sound'] at hfinal
        exact .inr ⟨final, hfinal, hform⟩
  | finalized positive foreign finalized =>
      rw [alike.ledger.finalOf?_eq sound.ledger sound'.ledger] at finalized
      exact .finalized positive (alike.session ▸ foreign) finalized
  | below unowned below =>
      rw [alike.ledger.limit_eq] at below
      refine .below (fun g => ?_) below
      rw [← alike.ownFinal?_eq sound sound']
      exact unowned g

theorem expand?_eq (id : SessionSpaceId) : peer.expand? id = other.expand? id := by
  apply Option.ext
  intro stable
  rw [sound.expand?_eq_some_iff, sound'.expand?_eq_some_iff]
  exact ⟨alike.means sound sound', alike.symm.means sound' sound⟩

theorem compress?_eq (stable : StableId) : peer.compress? stable = other.compress? stable := by
  apply Option.ext
  intro id
  rw [sound.compress?_eq_some_iff, sound'.compress?_eq_some_iff]
  exact ⟨alike.compresses sound sound', alike.symm.compresses sound' sound⟩

theorem toOp?_eq (id : SessionSpaceId) : peer.toOp? id = other.toOp? id := by
  apply Option.ext
  intro op
  rw [sound.toOp?_eq_some_iff, sound'.toOp?_eq_some_iff]
  exact ⟨alike.sends sound sound', alike.symm.sends sound' sound⟩

theorem toSession?_eq (op : OpSpaceId) (origin : SessionId) :
    peer.toSession? op origin = other.toSession? op origin := by
  apply Option.ext
  intro id
  rw [sound.toSession?_eq_some_iff, sound'.toSession?_eq_some_iff]
  exact ⟨alike.resolves sound sound', alike.symm.resolves sound' sound⟩

theorem nextFinal?_eq :
    peer.ownTail?.bind (·.finalOf? (peer.generated + 1)) =
      other.ownTail?.bind (·.finalOf? (other.generated + 1)) := by
  have htail := alike.ledger.tail?_eq sound.ledger.linked sound'.ledger.linked peer.session
  rw [← sound.ownTail?_eq, alike.session, ← sound'.ownTail?_eq] at htail
  rw [alike.generated]
  cases hc : peer.ownTail? with
  | none =>
      rw [hc] at htail
      rw [Option.map_eq_none_iff.1 htail.symm]
  | some c =>
      rw [hc] at htail
      obtain ⟨d, hd, hblock⟩ := Option.map_eq_some_iff.1 htail.symm
      rw [hd]
      exact Ledger.finalOf?_of_block_eq hblock.symm _

theorem generate : peer.generate.1 = other.generate.1 ∧
    peer.generate.2.Alike other.generate.2 := by
  have hnext := alike.nextFinal?_eq sound sound'
  cases hfinal : peer.ownTail?.bind (·.finalOf? (peer.generated + 1)) with
  | none =>
      rw [generate_of_none hfinal, generate_of_none (hnext ▸ hfinal), alike.generated]
      refine ⟨rfl, alike.session, rfl, alike.taken, ?_, alike.ledger⟩
      simp only [alike.locals]
  | some final =>
      rw [generate_of_some hfinal, generate_of_some (hnext ▸ hfinal), alike.generated]
      exact ⟨rfl, alike.session, rfl, alike.taken, alike.locals, alike.ledger⟩

end Answers

theorem take (alike : peer.Alike other) :
    peer.take.1 = other.take.1 ∧ peer.take.2.Alike other.take.2 := by
  unfold Peer.take
  rw [alike.generated, alike.taken, alike.session]
  split
  · exact ⟨rfl, rfl, rfl, rfl, alike.locals, alike.ledger⟩
  · exact ⟨rfl, alike⟩

end Alike

theorem Step.eq_of_isShared {action : Action} {next : Peer} (step : peer.Step action next)
    (h : action.isShared = true) : next = { peer with ledger := next.ledger } := by
  cases step with
  | idle => rfl
  | generateFinal => cases h
  | generateLocal => cases h
  | take => cases h
  | setCapacity => rfl
  | finalize => rfl

namespace Alike

variable (alike : peer.Alike other) (sound : peer.Sound) (sound' : other.Sound)

include alike sound sound'

theorem answer_eq (action : Action) : peer.answer action = other.answer action := by
  cases action with
  | setCapacity capacity => exact (perform_agree alike.ledger sound sound' rfl).1
  | finalize range => exact (perform_agree alike.ledger sound sound' rfl).1
  | generate => rfl
  | take => rfl
  | copy => rfl
  | reload => rfl

private theorem perform_of_isShared {action : Action} (h : action.isShared = true) :
    (peer.perform action).Alike (other.perform action) := by
  have agree := (perform_agree alike.ledger sound sound' h).2
  rw [(sound.step action).eq_of_isShared h, (sound'.step action).eq_of_isShared h]
  exact ⟨alike.session, alike.generated, alike.taken, alike.locals, agree⟩

theorem perform (action : Action) : (peer.perform action).Alike (other.perform action) := by
  cases action with
  | generate =>
      simp only [Peer.perform, alike.generated]
      split
      · exact (alike.generate sound sound').2
      · exact alike
  | take => exact alike.take.2
  | setCapacity capacity => exact alike.perform_of_isShared sound sound' rfl
  | finalize range => exact alike.perform_of_isShared sound sound' rfl
  | copy => simpa only [Peer.perform, Sound.copy_eq] using alike
  | reload => rwa [sound.perform_reload, sound'.perform_reload]

theorem replay (actions : List Action) : (peer.replay actions).Alike (other.replay actions) := by
  induction actions generalizing peer other with
  | nil => exact alike
  | cons action actions ih =>
      exact ih (alike.perform sound sound' action) (sound.perform action) (sound'.perform action)

end Alike

theorem Sound.mem_ids_iff (sound : peer.Sound) {session : SessionId} :
    session ∈ peer.ledger.registry.sessions.toList.map Session.id ↔
      session = peer.session ∨ Owns session peer.ledger.shares := by
  have linked := sound.ledger.linked
  constructor
  · intro h
    obtain ⟨place, s, hs, rfl⟩ := Registry.mem_ids_iff.1 h
    by_cases hplace : place = ownPlace
    · obtain ⟨own, hown, hid⟩ := sound.own
      subst hplace
      rw [own?, hs, Option.some.injEq] at hown
      exact .inl (hown ▸ hid)
    · exact .inr ((linked.owns_session hs).2 (sound.populated hs hplace))
  · rintro (rfl | h)
    · obtain ⟨own, hown, hid⟩ := sound.own
      exact Registry.mem_ids_iff.2 ⟨ownPlace, own, hown, hid⟩
    · obtain ⟨place, s, hs, hid, -⟩ := linked.exists_session_of_owns h
      exact Registry.mem_ids_iff.2 ⟨place, s, hs, hid⟩

namespace Alike

variable (alike : peer.Alike other) (sound : peer.Sound) (sound' : other.Sound)

include alike sound sound'

theorem perm_ids : (peer.ledger.registry.sessions.toList.map Session.id).Perm
    (other.ledger.registry.sessions.toList.map Session.id) := by
  rw [List.perm_ext_iff_of_nodup sound.ledger.linked.indexed.nodup_ids
    sound'.ledger.linked.indexed.nodup_ids]
  intro session
  rw [sound.mem_ids_iff, sound'.mem_ids_iff, alike.session, alike.ledger.shares_eq]

theorem sameAnswers : peer.SameAnswers other where
  session := alike.session
  generated := alike.generated
  capacity := alike.ledger.capacity
  sessions := alike.perm_ids sound sound'
  sessionCount := by
    have hlength := (alike.perm_ids sound sound').length_eq
    rwa [List.length_map, List.length_map, Array.length_toList, Array.length_toList] at hlength
  blocks := alike.ledger.blocks
  clusterCount := alike.ledger.size_eq
  limit := alike.ledger.limit_eq
  generate := (alike.generate sound sound').1
  take := alike.take.1
  answer := alike.answer_eq sound sound'
  toOp := fun id => by rw [toOp, toOp, alike.toOp?_eq sound sound']
  toSession := fun op origin => by rw [toSession, toSession, alike.toSession?_eq sound sound']
  expand := fun id => by rw [expand, expand, alike.expand?_eq sound sound']
  compress := fun stable => by rw [compress, compress, alike.compress?_eq sound sound']

/-- Alike peers cannot be told apart, however long both are used. -/
theorem indistinguishable : peer.Indistinguishable other :=
  fun later => (alike.replay sound sound' later).sameAnswers (sound.replay later)
    (sound'.replay later)

end Alike

end Peer

end CompactIds
