import CompactIds.Proofs.Eager
import CompactIds.Proofs.Resolution
import CompactIds.Proofs.Saving

/-!
# Generations without an id

The loader compares the counters with the end of the runs and with what was
finalized, but does not ask whether runs and clusters together hold all
generations that were counted.  A snapshot that lost a run loads, and the
generations of that run have no id.  All others have one, and what a peer saves
of its own history holds them all.
-/

namespace CompactIds

/-- The local state of a snapshot has a generation in a run, or the clusters of its
session reserve so many. -/
def Snapshot.Accounts (snapshot : Snapshot) (g : Nat) : Prop :=
  ∃ state, snapshot.localState = some state ∧
    (state.locals.contains g = true ∨
      g ≤ sumOf Share.capacity state.session snapshot.shares)

namespace Peer

variable {session : SessionId} {capacity g : Nat} {peer start : Peer} {id : SessionSpaceId}
  {bytes : List UInt8}

theorem Sound.exists_handedOut_iff (sound : peer.Sound) :
    (∃ id, peer.HandedOut g id) ↔ peer.locals.contains g = true ∨ peer.Covers g := by
  rw [sound.locals.contains_iff, sound.covers_iff]
  constructor
  · rintro ⟨id, held | ⟨-, reserved⟩⟩
    · exact .inl held
    · exact .inr ⟨_, reserved⟩
  · intro h
    by_cases held : peer.locals.Holds g
    · exact ⟨_, .asGeneration held⟩
    · obtain ⟨final, reserved⟩ := h.resolve_left held
      exact ⟨_, .asFinal held reserved⟩

theorem Sound.toSession_own_iff (sound : peer.Sound) (hpos : 0 < g) :
    peer.toSession (.ofGeneration g) peer.session = .ok id ↔
      g ≤ peer.generated ∧ peer.HandedOut g id := by
  constructor
  · rw [toSession_eq_ok_iff, sound.toSession?_eq_some_iff]
    generalize hop : SpaceId.ofGeneration g = op
    intro resolves
    cases resolves with
    | own _ hle handed sent =>
        rcases sent with ⟨-, rfl⟩ | ⟨final, -, rfl⟩
        · exact SpaceId.ofGeneration_inj.1 hop ▸ ⟨hle, handed⟩
        · exact absurd hop (SpaceId.ofGeneration_ne_ofFinal hpos final)
    | finalized _ foreign => exact absurd rfl foreign
    | below => exact absurd hop (SpaceId.ofGeneration_ne_ofFinal hpos _)
  · rintro ⟨hle, handed⟩
    exact handed.toSession sound hpos hle (.inl rfl)

theorem Sound.covers_iff_le (sound : peer.Sound) (hpos : 0 < g) :
    peer.Covers g ↔ g ≤ sumOf Share.capacity peer.session peer.ledger.shares := by
  have linked := sound.ledger.linked
  have laid := sound.ledger.laid
  obtain ⟨s, hs, hid⟩ := sound.own
  have hend := linked.endOf_session hs .reserved
  rw [linked.endOf_eq_sumOf_capacity laid hs, hid] at hend
  rw [sound.covers_iff]
  simp only [sound.ownFinal?_eq]
  constructor
  · rintro ⟨final, hfinal⟩
    have := Ledger.lt_endOf_of_finalOf? linked laid hfinal
    omega
  · intro hle
    exact Ledger.exists_finalOf? linked laid hpos (by omega)

/-- An id resolves a generation if the peer takes the generation for it, and it
stands for the stable id that lies there. -/
def ResolvedBy (peer : Peer) (g : Nat) (id : SessionSpaceId) : Prop :=
  peer.toSession (.ofGeneration g) peer.session = .ok id ∧
    peer.expand? id = some ((Session.ofId peer.session).stableIdOf g)

theorem Sound.resolvedBy_iff (sound : peer.Sound) (hpos : 0 < g) (hle : g ≤ peer.generated) :
    peer.ResolvedBy g id ↔ peer.HandedOut g id := by
  constructor
  · exact fun resolved => ((sound.toSession_own_iff hpos).1 resolved.1).2
  · exact fun handed =>
      ⟨(sound.toSession_own_iff hpos).2 ⟨hle, handed⟩, handed.expand? sound hpos hle⟩

theorem exists_accounts_of_load (h : load none bytes = .ok peer) :
    ∃ snapshot : Snapshot, bytes = snapshot.encode ∧
      ∀ g, 0 < g → (snapshot.Accounts g ↔ peer.locals.contains g = true ∨ peer.Covers g) := by
  have sound := sound_of_load h
  obtain ⟨snapshot, start, -, -, hbytes, -, reordered⟩ := exists_reordered h
  refine ⟨snapshot, hbytes, fun g hpos => ?_⟩
  have hlocal : snapshot.localState = some peer.localState := reordered.localState.symm
  have hshares : (peer.snapshot true).shares = snapshot.shares := reordered.shares
  rw [sound.covers_iff_le hpos, ← sound.shares_snapshot true, hshares]
  simp only [Snapshot.Accounts, hlocal, Option.some.injEq, exists_eq_left']
  rfl

/-- Of the generations that a loaded session counts, it resolves those that the
snapshot accounts for.  A session that saves its own history accounts for all. -/
theorem load_resolves_iff (h : load none bytes = .ok peer) :
    ∃ snapshot : Snapshot, bytes = snapshot.encode ∧
      (∀ g, 0 < g → (snapshot.Accounts g ↔ peer.locals.contains g = true ∨ peer.Covers g)) ∧
      (∀ g, 0 < g → g ≤ peer.generated →
        ((∃ id, peer.ResolvedBy g id) ↔ snapshot.Accounts g)) ∧
      ∀ session capacity start actions, Created session capacity start →
        bytes = (start.replay actions).save true →
        ∀ g, 0 < g → g ≤ peer.generated → snapshot.Accounts g := by
  have sound := sound_of_load h
  obtain ⟨snapshot, hbytes, accounts⟩ := exists_accounts_of_load h
  refine ⟨snapshot, hbytes, accounts, fun g hpos hle => ?_, ?_⟩
  · rw [accounts g hpos, ← sound.exists_handedOut_iff]
    exact exists_congr fun id => sound.resolvedBy_iff hpos hle
  · intro session capacity start actions created hsave g hpos hle
    have hreload := (created.sound.replay actions).perform_reload
    rw [perform, ← hsave, h] at hreload
    obtain rfl : peer = start.replay actions := hreload
    exact (accounts g hpos).2 (sound.exists_handedOut_iff.1 (created.exists_handedOut hpos hle))

/-- The first generation lies in a cluster and the third in a run. -/
theorem load_resolves_iff_between :
    let own : SessionId := Position.toStableId ⟨5, by decide⟩
    let snapshot : Snapshot := ⟨some ⟨own, 3, 1, ⟨#[⟨3, 1⟩]⟩⟩, 512, [own], [⟨0, 1, 1⟩]⟩
    let peer : Peer := ⟨own, 3, 1, ⟨#[⟨3, 1⟩]⟩, (ofSession own).ledger.append 0 1 1 1⟩
    load none snapshot.encode = .ok peer ∧ (∃ id, peer.ResolvedBy 1 id) ∧
      (¬ ∃ id, peer.ResolvedBy 2 id) ∧ ∃ id, peer.ResolvedBy 3 id := by
  intro own snapshot peer
  have hload : load none snapshot.encode = .ok peer := by decide +kernel
  have sound := sound_of_load hload
  obtain ⟨found, -, accounts, resolves, -⟩ := load_resolves_iff hload
  have hsum : sumOf Share.capacity peer.session peer.ledger.shares = 1 := by decide +kernel
  have hruns : peer.locals.contains 2 = false ∧ peer.locals.contains 3 = true := by
    decide +kernel
  have hcovers : ∀ g, 0 < g → (peer.Covers g ↔ g ≤ 1) := fun g hpos =>
    hsum ▸ sound.covers_iff_le hpos
  refine ⟨hload, ?_, fun h => ?_, ?_⟩
  · exact (resolves 1 (by decide) (by decide)).2
      ((accounts 1 (by decide)).2 (.inr ((hcovers 1 (by decide)).2 (by decide))))
  · rcases (accounts 2 (by decide)).1 ((resolves 2 (by decide) (by decide)).1 h) with hrun | hcover
    · rw [hruns.1] at hrun
      cases hrun
    · exact absurd ((hcovers 2 (by decide)).1 hcover) (by decide)
  · exact (resolves 3 (by decide) (by decide)).2 ((accounts 3 (by decide)).2 (.inl hruns.2))

/-- What a session saves after its first id loads also without the run of that id,
and then nothing stands for the id. -/
theorem load_lost_run :
    let own : SessionId := Position.toStableId ⟨5, by decide⟩
    let saved : Snapshot := ⟨some ⟨own, 1, 0, ⟨#[⟨1, 1⟩]⟩⟩, 512, [], []⟩
    let lost : Snapshot := ⟨some ⟨own, 1, 0, .empty⟩, 512, [], []⟩
    let peer : Peer := { ofSession own with generated := 1 }
    ((ofSession own).replay [.generate]).save true = saved.encode ∧
      load none lost.encode = .ok peer ∧ peer.locals.contains 1 = false ∧ ¬ peer.Covers 1 ∧
      ∀ id, peer.expand? id ≠ some ((Session.ofId own).stableIdOf 1) := by
  intro own saved lost peer
  have hload : load none lost.encode = .ok peer := by decide +kernel
  have sound := sound_of_load hload
  have hsum : sumOf Share.capacity peer.session peer.ledger.shares = 0 := by decide +kernel
  refine ⟨by decide +kernel, hload, by decide +kernel, fun hcovers => ?_, fun id h => ?_⟩
  · have := (sound.covers_iff_le (by decide)).1 hcovers
    omega
  · rcases id.eq_ofGeneration_or_eq_ofFinal with ⟨g, hpos, rfl⟩ | ⟨final, rfl⟩
    · have hnone : peer.locals.contains g = false := by
        simp [peer, ofSession, LocalRuns.contains, LocalRuns.empty, Search.lastIndex?,
          Search.last?, Search.boundary]
      simp [expand?, SpaceId.form_ofGeneration hpos, hnone] at h
    · have hnone : peer.ledger.tiling.clusterOfFinal? final = none := by
        simp [peer, ofSession, Ledger.empty, Tiling.empty, Tiling.clusterOfFinal?,
          Search.lastIndex?, Search.last?, Search.boundary]
      simp [expand?, hnone] at h

end Peer

end CompactIds
