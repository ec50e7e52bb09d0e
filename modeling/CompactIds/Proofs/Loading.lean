import CompactIds.Proofs.Peer
import CompactIds.Snapshot.Load

/-!
# Loaded peers are sound

Whatever bytes are loaded, each session and cluster that is accepted keeps the
invariant of the ledger.  Only the counters and the record of local ids are
taken from the snapshot as they stand, after a check.
-/

namespace CompactIds

variable {given : Option SessionId} {bytes rest : List UInt8}

theorem bind_eq_ok {ε α β : Type} {x : Except ε α} {f : α → Except ε β} {b : β}
    (h : (x >>= f) = .ok b) : ∃ a, x = .ok a ∧ f a = .ok b := by
  cases x with
  | error fault => cases h
  | ok a => exact ⟨a, rfl, h⟩

theorem readItems_invariant {σ α : Type} {item : List UInt8 → Except Fault (α × List UInt8)}
    {accept : σ → α → Except Fault σ} {P : σ → Prop}
    (step : ∀ state a next, P state → accept state a = .ok next → P next)
    {n : Nat} {state last : σ} (start : P state)
    (h : readItems item accept n state bytes = .ok (last, rest)) : P last := by
  induction n generalizing state bytes with
  | zero =>
      simp only [readItems, Except.ok.injEq, Prod.mk.injEq] at h
      rw [← h.1]
      exact start
  | succ n ih =>
      simp only [readItems] at h
      split at h
      · cases h
      · split at h
        · cases h
        · rename_i next hnext
          exact ih (step _ _ _ start hnext) h

theorem readList_invariant {σ α : Type} {item : List UInt8 → Except Fault (α × List UInt8)}
    {accept : σ → α → Except Fault σ} {P : σ → Prop}
    (step : ∀ state a next, P state → accept state a = .ok next → P next)
    {state last : σ} (start : P state)
    (h : readList item accept state bytes = .ok (last, rest)) : P last := by
  obtain ⟨⟨n, bytes'⟩, -, h⟩ := bind_eq_ok h
  exact readItems_invariant step start h

structure LocalState.Sound (state : LocalState) : Prop where
  generated_lt : state.generated < idLimit
  taken_le : state.taken ≤ state.generated
  locals : state.locals.Within (state.generated + 1)

theorem checkCounters_eq_ok {generated next taken : Nat}
    (h : checkCounters generated next = .ok taken) :
    generated < idLimit ∧ next = taken + 1 ∧ taken ≤ generated := by
  unfold checkCounters at h
  split at h
  · cases h
  · cases h
    omega

theorem checkRuns_eq_ok {generated : Nat} {runs : Array Run} {locals : LocalRuns}
    (h : checkRuns generated runs = .ok locals) : locals.Within (generated + 1) := by
  unfold checkRuns at h
  split at h
  · cases h
  · rename_i hback
    split at h
    · rename_i hlocals
      cases h
      exact LocalRuns.within_of_ofList? hlocals (by simpa using hback)
    · cases h

theorem readLocalState_sound {state : LocalState} (h : readLocalState bytes = .ok (state, rest)) :
    state.Sound := by
  unfold readLocalState at h
  obtain ⟨⟨bits, bytes₁⟩, -, h⟩ := bind_eq_ok h
  obtain ⟨session, -, h⟩ := bind_eq_ok h
  obtain ⟨⟨generated, bytes₂⟩, -, h⟩ := bind_eq_ok h
  obtain ⟨⟨next, bytes₃⟩, -, h⟩ := bind_eq_ok h
  obtain ⟨taken, hcounters, h⟩ := bind_eq_ok h
  obtain ⟨⟨runs, bytes₄⟩, -, h⟩ := bind_eq_ok h
  obtain ⟨locals, hruns, h⟩ := bind_eq_ok h
  cases h
  obtain ⟨hgenerated, -, htaken⟩ := checkCounters_eq_ok hcounters
  exact ⟨hgenerated, htaken, checkRuns_eq_ok hruns⟩

def Start.Sound : Start → Prop
  | resume state => state.Sound
  | join _ => True

theorem readStart_sound {start : Start} (h : readStart given bytes = .ok (start, rest)) :
    start.Sound := by
  unfold readStart at h
  obtain ⟨⟨version, bytes₁⟩, -, h⟩ := bind_eq_ok h
  simp only at h
  split at h
  · cases h
  · obtain ⟨⟨flag, bytes₂⟩, -, h⟩ := bind_eq_ok h
    simp only at h
    split at h
    · cases h
      trivial
    · cases h
    · cases h
    · obtain ⟨⟨state, bytes₃⟩, hstate, h⟩ := bind_eq_ok h
      cases h
      exact readLocalState_sound hstate
    · cases h

theorem readCapacity_bounds {capacity : Nat} (h : readCapacity bytes = .ok (capacity, rest)) :
    1 ≤ capacity ∧ capacity ≤ largestCapacity := by
  unfold readCapacity at h
  obtain ⟨⟨n, bytes₁⟩, -, h⟩ := bind_eq_ok h
  simp only at h
  split at h
  · rename_i hcheck
    cases h
    exact Peer.checkCapacity_eq_ok_iff.1 hcheck
  · cases h

/-- A cluster of this size can follow the last one of a session. -/
structure Ledger.Fits (ledger : Ledger) (s : Session) (capacity count : Nat) : Prop where
  count_pos : 0 < count
  count_le : count ≤ capacity
  full : ∀ c, s.tail? ledger.tiling = some c → c.count = c.capacity
  generations : s.endOf .reserved ledger.tiling + capacity ≤ idLimit
  finals : ledger.tiling.nextBase + capacity ≤ idLimit
  clear : ledger.Clear s.id s.position (s.endOf .reserved ledger.tiling - 1 + capacity)

namespace Ledger.Sound

variable {ledger : Ledger} {place capacity count : Nat} {s : Session}

theorem clusterDefect?_eq_none_iff (sound : ledger.Sound) :
    Loading.clusterDefect? ledger s capacity count = none ↔ ledger.Fits s capacity count := by
  unfold Loading.clusterDefect?
  have hlength : 0 < capacity → 0 < s.endOf .reserved ledger.tiling - 1 + capacity := by omega
  constructor
  · intro h
    simp only at h
    split_ifs at h with hsize htail hroom hclear
    rw [Bool.not_eq_true, Option.isSome_eq_false_iff, Option.isNone_iff_eq_none,
      sound.collision?_eq_none_iff (hlength (by omega))] at hclear
    refine ⟨by omega, by omega, fun c hc => ?_, by omega, by omega, hclear⟩
    simpa [hc] using htail
  · rintro ⟨hpos, hle, hfull, hgenerations, hfinals, hclear⟩
    have htail : ¬ (s.tail? ledger.tiling).any (fun c => c.count ≠ c.capacity) = true := by
      cases hc : s.tail? ledger.tiling with
      | none => simp
      | some c => simp [hfull c hc]
    rw [if_neg (by omega), if_neg htail, if_neg (by omega),
      (sound.collision?_eq_none_iff (hlength (by omega))).2 hclear]
    rfl

theorem append_of_fits (sound : ledger.Sound)
    (hs : ledger.registry.session? place = some s) (fits : ledger.Fits s capacity count) :
    (ledger.append place (s.endOf .reserved ledger.tiling) capacity count).Sound := by
  apply sound.append hs fits.count_pos fits.count_le ?_ fits.generations fits.finals fits.clear
  intro i c htail hc
  exact fits.full c (by rw [sound.linked.tail?_of_isTail hs htail, hc])

end Ledger.Sound

namespace Loading

variable {start : Start} {loading loading' : Loading}

/-- All sessions but the own one are in the table. -/
structure Sound (start : Start) (loading : Loading) : Prop where
  ledger : loading.ledger.Sound
  own : ∃ s, loading.ledger.registry.session? Peer.ownPlace = some s ∧ s.id = start.session
  listed : ∀ {place s}, loading.ledger.registry.session? place = some s →
    place ≠ Peer.ownPlace → place ∈ loading.table

theorem sound_ofStart {capacity : Nat} (start : Start)
    (h : 1 ≤ capacity ∧ capacity ≤ largestCapacity) : (ofStart start capacity).Sound start where
  ledger := (Peer.ledger_sound_ofSession start.session).withCapacity h
  own := (Peer.sound_ofSession start.session).own
  listed := by
    intro place s hs hplace
    change (Peer.ofSession start.session).ledger.registry.session? place = some s at hs
    rw [Peer.registry_ofSession, if_neg hplace] at hs
    cases hs

theorem Sound.acceptSession (sound : loading.Sound start) {bits : Nat}
    (h : loading.acceptSession start bits = .ok loading') : loading'.Sound start := by
  unfold Loading.acceptSession at h
  obtain ⟨id, -, h⟩ := bind_eq_ok h
  simp only at h
  split at h
  · rename_i hfind
    cases h
    refine ⟨sound.ledger.register id, ?_, ?_⟩
    · obtain ⟨own, hown, hid⟩ := sound.own
      exact ⟨own, Registry.session?_register hown, hid⟩
    · intro place s hs hplace
      rw [Array.mem_push]
      rcases Registry.session?_of_register hs with hs | ⟨-, rfl, -⟩
      · exact .inl (sound.listed hs hplace)
      · exact .inr (by rw [Registry.register_of_find?_none hfind])
  · rename_i place hfind
    split at h
    · split at h
      · cases h
      · split at h
        · cases h
        · cases h
          refine ⟨sound.ledger, sound.own, fun hs hplace => ?_⟩
          exact Array.mem_push.2 (.inl (sound.listed hs hplace))
    · cases h

theorem acceptCluster_eq_ok {entry : ClusterEntry}
    (h : loading.acceptCluster entry = .ok loading') :
    ∃ place s, loading.table[entry.owner]? = some place ∧
      loading.ledger.registry.session? place = some s ∧
      clusterDefect? loading.ledger s entry.capacity entry.count = none ∧
      loading' = { loading with
        ledger := loading.ledger.append place (s.endOf .reserved loading.ledger.tiling)
          entry.capacity entry.count } := by
  unfold Loading.acceptCluster at h
  split at h
  · cases h
  · rename_i place hplace
    split at h
    · cases h
    · rename_i s hs
      split at h
      · cases h
      · rename_i hdefect
        cases h
        exact ⟨place, s, hplace, hs, hdefect, rfl⟩

theorem Sound.acceptCluster (sound : loading.Sound start) {entry : ClusterEntry}
    (h : loading.acceptCluster entry = .ok loading') : loading'.Sound start := by
  obtain ⟨place, s, -, hs, hdefect, rfl⟩ := acceptCluster_eq_ok h
  have fits := sound.ledger.clusterDefect?_eq_none_iff.1 hdefect
  refine ⟨sound.ledger.append_of_fits hs fits, ?_, ?_⟩
  · obtain ⟨own, hown, hid⟩ := sound.own
    obtain ⟨own', hown', hid', -⟩ := (Registry.grows_link _ place _).keeps hown
    exact ⟨own', hown', hid'.trans hid⟩
  · intro q t' ht' hq
    obtain ⟨t, ht, -⟩ := Ledger.session?_of_append ht'
    exact sound.listed ht hq

theorem Sound.finish (sound : loading.Sound start) (hstart : start.Sound) {peer : Peer}
    (h : loading.finish start = .ok peer) : peer.Sound := by
  unfold Loading.finish at h
  split at h
  · cases h
  · rename_i hsettled
    have hpopulated : ∀ {place s}, loading.ledger.registry.session? place = some s →
        place ≠ Peer.ownPlace → s.isPopulated = true := by
      intro place s hs hplace
      have hall : loading.isSettled = true := by simpa using hsettled
      have := Array.all_eq_true'.1 hall place (sound.listed hs hplace)
      simpa [hs] using this
    split at h
    · rename_i session
      cases h
      have fresh := Peer.sound_ofSession session
      exact ⟨sound.ledger, sound.own, hpopulated, fresh.generated_le, fresh.taken_le, fresh.locals⟩
    · rename_i state
      split at h
      · cases h
      · cases h
        exact ⟨sound.ledger, sound.own, hpopulated, Nat.le_of_lt hstart.generated_lt,
          hstart.taken_le, hstart.locals⟩

end Loading

theorem Peer.sound_of_load {peer : Peer} (h : Peer.load given bytes = .ok peer) :
    peer.Sound := by
  unfold Peer.load at h
  obtain ⟨⟨start, bytes₁⟩, hstart, h⟩ := bind_eq_ok h
  obtain ⟨⟨capacity, bytes₂⟩, hcapacity, h⟩ := bind_eq_ok h
  obtain ⟨⟨registered, bytes₃⟩, hsessions, h⟩ := bind_eq_ok h
  obtain ⟨⟨loading, bytes₄⟩, hclusters, h⟩ := bind_eq_ok h
  simp only at h
  have sound := Loading.sound_ofStart start (readCapacity_bounds hcapacity)
  have sound' : registered.Sound start := by
    apply readList_invariant ?_ sound hsessions
    intro state bits next hstate hnext
    exact hstate.acceptSession hnext
  have sound'' : loading.Sound start := by
    apply readList_invariant ?_ sound' hclusters
    intro state entry next hstate hnext
    exact hstate.acceptCluster hnext
  split at h
  · exact sound''.finish (readStart_sound hstart) h
  · cases h

end CompactIds
