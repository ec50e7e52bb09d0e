import CompactIds.Proofs.Alike
import CompactIds.Proofs.Restore
import CompactIds.Proofs.Tables

/-!
# Joining from a shared snapshot

A snapshot without local state keeps what the common sequence made of the
clusters, and nothing of the peer that wrote it.  Who joins from it cannot be
told from a peer that followed the sequence from the start.
-/

namespace CompactIds

private theorem getElem?_filter_countP {α : Type} {p : α → Bool} {l : List α} {i : Nat} {a : α}
    (h : l[i]? = some a) (hp : p a = true) : (l.filter p)[(l.take i).countP p]? = some a := by
  induction l generalizing i with
  | nil => simp at h
  | cons b l ih =>
      cases i with
      | zero =>
          rw [List.getElem?_cons_zero, Option.some.injEq] at h
          subst h
          simp [hp]
      | succ i =>
          rw [List.getElem?_cons_succ] at h
          have ih := ih h
          cases hb : p b with
          | true => simpa [hb] using ih
          | false => simpa [hb] using ih

theorem Registry.populated_tablePlace {registry : Registry} {place : Nat} {s : Session}
    (hs : registry.session? place = some s) (hpop : s.isPopulated = true) :
    registry.populated[registry.tablePlace place]? = some s.id := by
  rw [Registry.session?, ← Array.getElem?_toList] at hs
  rw [populated, tablePlace, List.getElem?_map, getElem?_filter_countP hs hpop]
  rfl

namespace Ledger

variable {ledger : Ledger} {id : SessionId}

theorem Linked.mem_populated_iff (linked : ledger.Linked) :
    id ∈ ledger.registry.populated ↔ Owns id ledger.shares := by
  constructor
  · intro h
    obtain ⟨place, s, hs, rfl, hpop⟩ := Registry.mem_populated_iff.1 h
    exact (linked.owns_session hs).2 hpop
  · intro h
    exact Registry.mem_populated_iff.2 (linked.exists_session_of_owns h)

end Ledger

namespace Peer

variable {peer donor start : Peer} {session joiner : SessionId}

theorem Sound.shares_snapshot (sound : peer.Sound) (withLocal : Bool) :
    (peer.snapshot withLocal).shares = peer.ledger.shares := by
  have linked := sound.ledger.linked
  change peer.ledger.entries.map _ = _
  rw [Ledger.entries, List.map_map, Ledger.shares]
  apply List.map_congr_left
  intro c hc
  obtain ⟨i, hi⟩ := Tiling.mem_clusters_iff.1 hc
  obtain ⟨s, hs⟩ := Registry.exists_session (linked.owner hi)
  have hpop := (linked.isPopulated_iff hs).2 (linked.exists_isTail hi)
  have howner : peer.ledger.ownerOf? c = some s.id := Ledger.ownerOf?_eq_some_iff.2 ⟨s, hs, rfl⟩
  rw [Ledger.share, howner, ← Registry.populated_tablePlace hs hpop]
  rfl

section Loading

variable (sound : donor.Sound)

include sound

private theorem load_eq_restore (joiner : SessionId) :
    load (some joiner) (donor.save false) = (donor.snapshot false).restore (.join joiner) :=
  load_encode (sound.fits_snapshot false) (readStart_of_starts (.join joiner))

theorem load_save_conflict (h : Owns joiner donor.ledger.shares) :
    load (some joiner) (donor.save false) = .error (.sessionIdConflict joiner) := by
  have linked := sound.ledger.linked
  have hconflict := Loading.sessions_conflict sound.ledger.capacity linked.nodup_populated
    (linked.mem_populated_iff.2 h)
  rw [load_eq_restore sound, Snapshot.restore]
  change ((donor.ledger.registry.populated.map StableId.bits).foldlM
    (Loading.acceptSession (.join joiner))
    (.ofStart (.join joiner) donor.ledger.capacity) >>= _) = _
  rw [hconflict]
  rfl

theorem exists_load_save (h : ¬ Owns joiner donor.ledger.shares) :
    ∃ ledger : Ledger, load (some joiner) (donor.save false) =
      .ok { ofSession joiner with ledger } ∧ ledger.Agree donor.ledger := by
  have linked := sound.ledger.linked
  have hshares := sound.shares_snapshot false
  have admits : (Start.join joiner).Admits donor.ledger.registry.populated := by
    refine ⟨linked.nodup_populated, fun id hid hjoin => ?_⟩
    rw [Start.join.injEq] at hjoin
    exact h (hjoin ▸ linked.mem_populated_iff.1 hid)
  have tenable : Tenable (donor.snapshot false).shares := hshares ▸ sound.ledger.tenable
  have owns : ∀ id ∈ donor.ledger.registry.populated, Owns id (donor.snapshot false).shares := by
    intro id hid
    rw [hshares]
    exact linked.mem_populated_iff.1 hid
  obtain ⟨joined, hjoined⟩ : ∃ joined, (donor.snapshot false).restore (.join joiner) =
      .ok joined :=
    (Snapshot.exists_restore_iff sound.ledger.capacity).2 ⟨admits, tenable, owns, by simp⟩
  obtain ⟨loading, holds, hfinish⟩ := Snapshot.restore_eq_ok sound.ledger.capacity hjoined
  have hpeer : joined = { ofSession joiner with ledger := loading.ledger } := by
    unfold Loading.finish at hfinish
    split at hfinish
    · cases hfinish
    · cases hfinish
      rfl
  refine ⟨loading.ledger, by rw [load_eq_restore sound, hjoined, hpeer], holds.capacity, ?_⟩
  exact holds.sound.ledger.blocks_eq_of_shares sound.ledger (holds.shares.trans hshares)

end Loading

theorem Sound.exists_replay_eq (sound : peer.Sound) {log : List Action}
    (h : ∀ action ∈ log, action.isShared = true) :
    ∃ ledger, peer.replay log = { peer with ledger } := by
  induction log generalizing peer with
  | nil => exact ⟨peer.ledger, rfl⟩
  | cons action log ih =>
      rw [List.forall_mem_cons] at h
      have hstep := (sound.step action).eq_of_isShared h.1
      obtain ⟨ledger, hrest⟩ := ih (sound.perform action) h.2
      refine ⟨ledger, ?_⟩
      change (peer.perform action).replay log = _
      rw [hrest, hstep]

/-- What comes of loading: the same fault, or peers that cannot be told apart. -/
inductive SameOutcome : Except Fault Peer → Except Fault Peer → Prop
  | refused (fault : Fault) : SameOutcome (.error fault) (.error fault)
  | loaded {peer other : Peer} (h : peer.Indistinguishable other) :
      SameOutcome (.ok peer) (.ok other)

theorem sameOutcome_load_save {other : Peer} (sound : donor.Sound) (sound' : other.Sound)
    (agree : donor.ledger.Agree other.ledger) (joiner : SessionId) :
    SameOutcome (load (some joiner) (donor.save false))
      (load (some joiner) (other.save false)) := by
  by_cases h : Owns joiner donor.ledger.shares
  · rw [load_save_conflict sound h, load_save_conflict sound' (agree.shares_eq ▸ h)]
    exact .refused _
  · obtain ⟨ledger, hload, hledger⟩ := exists_load_save sound h
    obtain ⟨ledger', hload', hledger'⟩ := exists_load_save sound' (agree.shares_eq ▸ h)
    have alike : Alike { ofSession joiner with ledger }
        { ofSession joiner with ledger := ledger' } :=
      ⟨rfl, rfl, rfl, rfl, (hledger.trans agree).trans hledger'.symm⟩
    rw [hload, hload']
    exact .loaded (alike.indistinguishable (sound_of_load hload) (sound_of_load hload'))

theorem exists_ofSettings {settings : Settings} (h : ofSettings session settings = .ok start)
    (other : SessionId) : ∃ fresh, ofSettings other settings = .ok fresh := by
  have hcapacity := checkCapacity_eq_ok_iff.2 (setCapacity_eq_ok h).1
  exact ⟨_, by rw [ofSettings, setCapacity, hcapacity]⟩

theorem Created.alike_replay {capacity : Nat} {fresh : Peer} {ledger : Ledger} {log : List Action}
    (created : Created joiner capacity fresh) (hlog : ∀ action ∈ log, action.isShared = true)
    (agree : ledger.Agree (fresh.replay log).ledger) :
    Alike { ofSession joiner with ledger } (fresh.replay log) := by
  obtain ⟨later, hreplay⟩ := created.sound.exists_replay_eq hlog
  rw [hreplay] at agree ⊢
  rw [created.eq]
  exact ⟨rfl, rfl, rfl, rfl, agree⟩

theorem load_save_shared {settings : Settings} (h : ofSettings session settings = .ok start)
    (actions : List Action) (joiner : SessionId) :
    let donor := start.replay actions
    (Owns joiner donor.ledger.shares →
      load (some joiner) (donor.save false) = .error (.sessionIdConflict joiner)) ∧
    (¬ Owns joiner donor.ledger.shares →
      ∃ joined fresh, load (some joiner) (donor.save false) = .ok joined ∧
        ofSettings joiner settings = .ok fresh ∧
        joined.Indistinguishable (fresh.replay (actions.filter Action.isShared))) ∧
    ∀ session' start' actions', ofSettings session' settings = .ok start' →
      actions'.filter Action.isShared = actions.filter Action.isShared →
      SameOutcome (load (some joiner) (donor.save false))
        (load (some joiner) ((start'.replay actions').save false)) := by
  intro donor
  have created : Created session settings.clusterCapacity start := .configured h
  have sound : donor.Sound := created.sound.replay actions
  refine ⟨load_save_conflict sound, fun hfree => ?_, fun session' start' actions' h' hlog => ?_⟩
  · obtain ⟨ledger, hload, hledger⟩ := exists_load_save sound hfree
    obtain ⟨fresh, hfresh⟩ := exists_ofSettings h joiner
    have created' : Created joiner settings.clusterCapacity fresh := .configured hfresh
    have agree := replay_agree (created.agree created') created.sound created'.sound actions
    have alike := created'.alike_replay (fun _ => List.of_mem_filter) (hledger.trans agree)
    exact ⟨_, fresh, hload, hfresh,
      alike.indistinguishable (sound_of_load hload) (created'.sound.replay _)⟩
  · have created' : Created session' settings.clusterCapacity start' := .configured h'
    have agree := replay_agree (created.agree created') created.sound created'.sound actions
    have agree' := replay_agree (.refl _) created'.sound created'.sound actions'
    rw [hlog] at agree'
    exact sameOutcome_load_save sound (created'.sound.replay actions') (agree.trans agree'.symm)
      joiner

/-- The writer of the snapshot comes first in its own registry and second in that
of a peer that follows the sequence. -/
theorem load_save_shared_two :
    let first : SessionId := Position.toStableId ⟨5, by decide⟩
    let second : SessionId := Position.toStableId ⟨100, by decide⟩
    let joiner : SessionId := Position.toStableId ⟨200, by decide⟩
    let start : Peer :=
      { ofSession first with ledger := { (ofSession first).ledger with capacity := 4 } }
    let actions : List Action := [.generate, .take, .finalize (.ofSpan second 1 2),
      .setCapacity 3, .finalize (.ofSpan first 1 1)]
    ofSettings first ⟨4⟩ = .ok start ∧
      load (some second) ((start.replay actions).save false) =
        .error (.sessionIdConflict second) ∧
      ∃ joined fresh, load (some joiner) ((start.replay actions).save false) = .ok joined ∧
        ofSettings joiner ⟨4⟩ = .ok fresh ∧
        joined.Indistinguishable (fresh.replay (actions.filter Action.isShared)) := by
  intro first second joiner start actions
  have hstart : ofSettings first ⟨4⟩ = .ok start := rfl
  have howns : Owns second (start.replay actions).ledger.shares := by decide +kernel
  have hfree : ¬ Owns joiner (start.replay actions).ledger.shares := by decide +kernel
  obtain ⟨hconflict, -, -⟩ := load_save_shared hstart actions second
  obtain ⟨-, hjoin, -⟩ := load_save_shared hstart actions joiner
  exact ⟨hstart, hconflict howns, hjoin hfree⟩

end Peer

end CompactIds
