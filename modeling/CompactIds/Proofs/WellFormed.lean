import CompactIds.Proofs.History

/-!
# Well-formed peers

However a peer starts and whatever it is asked to do, its tables fit together.
The laws are spelled out here entry by entry; the shorter invariant that every
action keeps is `Peer.Sound`.
-/

namespace CompactIds

/-- `i` and `j` are places of clusters; `place`, `p` and `q` are places of sessions. -/
structure Peer.WellFormed (peer : Peer) : Prop where
  baseFinal : ∀ i c, peer.ledger.tiling.cluster? i = some c →
    c.baseFinal = ((peer.ledger.tiling.clusters.toList.take i).map Cluster.capacity).sum
  count : ∀ i c, peer.ledger.tiling.cluster? i = some c → 1 ≤ c.count ∧ c.count ≤ c.capacity
  owner : ∀ i c, peer.ledger.tiling.cluster? i = some c →
    ∃ s, peer.ledger.registry.session? c.session = some s ∧ i ∈ s.chain
  mem_chain : ∀ place s, peer.ledger.registry.session? place = some s → ∀ i, i ∈ s.chain →
    ∃ c, peer.ledger.tiling.cluster? i = some c ∧ c.session = place
  ascending : ∀ place s, peer.ledger.registry.session? place = some s →
    s.chain.toList.Pairwise (· < ·)
  finals : ∀ place s, peer.ledger.registry.session? place = some s →
    s.chain.toList.Pairwise fun i j => ∀ c d, peer.ledger.tiling.cluster? i = some c →
      peer.ledger.tiling.cluster? j = some d → c.baseFinal + c.capacity ≤ d.baseFinal
  firstGeneration : ∀ place s i c, peer.ledger.registry.session? place = some s →
    s.chain[0]? = some i → peer.ledger.tiling.cluster? i = some c → c.baseGeneration = 1
  nextGeneration : ∀ place s k i j c d, peer.ledger.registry.session? place = some s →
    s.chain[k]? = some i → s.chain[k + 1]? = some j →
    peer.ledger.tiling.cluster? i = some c → peer.ledger.tiling.cluster? j = some d →
    d.baseGeneration = c.endOf .reserved ∧ c.count = c.capacity
  endOf : ∀ i c, peer.ledger.tiling.cluster? i = some c → c.endOf .reserved ≤ 2 ^ 63 - 1
  nextBase : peer.ledger.tiling.nextBase ≤ 2 ^ 63 - 1
  own : ∃ s, peer.ledger.registry.session? 0 = some s ∧ s.id = peer.session
  distinct : ∀ p q s t, peer.ledger.registry.session? p = some s →
    peer.ledger.registry.session? q = some t → s.id = t.id → p = q
  indexed : ∀ position place, peer.ledger.registry.index.find? position = some place ↔
    ∃ s, peer.ledger.registry.session? place = some s ∧ s.position = position
  populated : ∀ place s, peer.ledger.registry.session? place = some s → place ≠ 0 →
    s.chain ≠ #[]
  spans : ∀ p q s t, peer.ledger.registry.session? p = some s →
    peer.ledger.registry.session? q = some t → p ≠ q → s.chain ≠ #[] → t.chain ≠ #[] →
    s.position.val + (s.endOf .reserved peer.ledger.tiling - 1) ≤ t.position.val ∨
      t.position.val + (t.endOf .reserved peer.ledger.tiling - 1) ≤ s.position.val
  inside : ∀ place s, peer.ledger.registry.session? place = some s → s.chain ≠ #[] →
    s.position.val + (s.endOf .reserved peer.ledger.tiling - 1) ≤ 2 ^ 122
  capacity : 1 ≤ peer.ledger.capacity ∧ peer.ledger.capacity ≤ 2 ^ 20
  counters : peer.taken ≤ peer.generated ∧ peer.generated ≤ 2 ^ 63 - 1
  runs : ∀ run ∈ peer.locals.runs, 1 ≤ run.first ∧ 1 ≤ run.count ∧
    run.first + run.count ≤ peer.generated + 1
  disjoint : peer.locals.runs.toList.Pairwise fun a b => a.first + a.count ≤ b.first

private theorem le_of_ascending {chain : Array Nat} (ascending : chain.toList.Pairwise (· < ·))
    {k i m : Nat} (hk : chain[k]? = some i) (hm : m ∈ chain)
    (h : ∀ b, b < k → ∀ j, chain[b]? = some j → j < m) : i ≤ m := by
  obtain ⟨b, hb⟩ := Array.mem_iff_getElem?.1 hm
  rcases Nat.lt_trichotomy b k with hlt | rfl | hlt
  · exact absurd (h b hlt m hb) (Nat.lt_irrefl m)
  · rw [hk] at hb
    cases hb
    exact Nat.le_refl _
  · exact Nat.le_of_lt (Ledger.lt_of_ascending ascending hk hb hlt)

namespace Ledger

variable {ledger : Ledger} {place k i j : Nat} {s : Session} {c d : Cluster}

theorem Sound.baseGeneration_first (sound : ledger.Sound)
    (hs : ledger.registry.session? place = some s) (hi : s.chain[0]? = some i)
    (hc : ledger.tiling.cluster? i = some c) : c.baseGeneration = 1 := by
  have hplace := sound.linked.session_of_chain hs hi hc
  have hnone : ∀ m d, 0 ≤ m → m < i → ledger.tiling.cluster? m = some d → d.session ≠ place := by
    intro m d _ hmi hd hds
    have hmem := (sound.linked.mem_chain hs m).2 ⟨d, hd, hds⟩
    have := le_of_ascending (sound.linked.ascending hs) hi hmem (by omega)
    omega
  rw [sound.laid.baseGeneration hc, hplace, Tiling.ownedBy_before_eq (Nat.zero_le i) hnone]
  rfl

theorem Sound.baseGeneration_next (sound : ledger.Sound)
    (hs : ledger.registry.session? place = some s) (hi : s.chain[k]? = some i)
    (hj : s.chain[k + 1]? = some j) (hc : ledger.tiling.cluster? i = some c)
    (hd : ledger.tiling.cluster? j = some d) :
    d.baseGeneration = c.endOf .reserved ∧ c.count = c.capacity := by
  have hcs := sound.linked.session_of_chain hs hi hc
  have hds := sound.linked.session_of_chain hs hj hd
  have ascending := sound.linked.ascending hs
  have hij : i < j := lt_of_ascending ascending hi hj (Nat.lt_succ_self k)
  have hnone : ∀ m e, i + 1 ≤ m → m < j → ledger.tiling.cluster? m = some e →
      e.session ≠ place := by
    intro m e him hmj he hes
    have hmem := (sound.linked.mem_chain hs m).2 ⟨e, he, hes⟩
    have := le_of_ascending ascending hj hmem (by
      intro b hb q hq
      rcases Nat.lt_or_eq_of_le (Nat.le_of_lt_succ hb) with hlt | rfl
      · have := lt_of_ascending ascending hq hi hlt
        omega
      · rw [hi] at hq
        cases hq
        exact him)
    omega
  refine ⟨?_, sound.laid.full hc hd hij (hcs.trans hds.symm)⟩
  rw [sound.laid.baseGeneration hd, hds, Tiling.ownedBy_before_eq hij hnone,
    Tiling.before_succ hc, ownedBy_append, ownedBy_singleton, if_pos hcs, room_append,
    room_singleton, Cluster.endOf, sound.laid.baseGeneration hc, hcs, Nat.add_assoc]

end Ledger

namespace Peer

variable {peer start : Peer}

theorem Sound.wellFormed (sound : peer.Sound) : peer.WellFormed where
  baseFinal := by
    intro i c hc
    rw [sound.ledger.laid.baseFinal hc, room_eq_sum]
    rfl
  count := fun i c hc => ⟨sound.ledger.laid.count_pos hc, sound.ledger.laid.count_le hc⟩
  owner := by
    intro i c hc
    obtain ⟨s, hs⟩ := Registry.exists_session (sound.ledger.linked.owner hc)
    exact ⟨s, hs, (sound.ledger.linked.mem_chain hs i).2 ⟨c, hc, rfl⟩⟩
  mem_chain := fun place s hs i => (sound.ledger.linked.mem_chain hs i).1
  ascending := fun place s hs => sound.ledger.linked.ascending hs
  finals := by
    intro place s hs
    refine (sound.ledger.linked.ascending hs).imp fun {i j} hij c d hc hd => ?_
    exact sound.ledger.laid.final_lt hc hd hij
  firstGeneration := fun place s i c hs => sound.ledger.baseGeneration_first hs
  nextGeneration := fun place s k i j c d hs => sound.ledger.baseGeneration_next hs
  endOf := fun i c hc => sound.ledger.endOf_le hc
  nextBase := sound.ledger.nextBase_le
  own := sound.own
  distinct := fun p q s t => sound.ledger.linked.indexed.place_eq
  indexed := sound.ledger.linked.indexed
  populated := by
    intro place s hs hplace hempty
    have hpop := sound.populated hs hplace
    simp [Session.isPopulated, hempty] at hpop
  spans := by
    intro p q s t hs ht hne hschain htchain
    apply sound.ledger.apart.disjoint hs ht hne
    · simpa [Session.isPopulated] using hschain
    · simpa [Session.isPopulated] using htchain
  inside := by
    intro place s hs hchain
    apply sound.ledger.apart.inside hs
    simpa [Session.isPopulated] using hchain
  capacity := sound.ledger.capacity
  counters := ⟨sound.taken_le, sound.generated_le⟩
  runs := fun run hrun => ⟨sound.locals.positive run hrun, sound.locals.nonempty run hrun,
    sound.locals.bounded run hrun⟩
  disjoint := sound.locals.disjoint

theorem wellFormed_replay (origin : start.Origin) (actions : List Action) :
    (start.replay actions).WellFormed :=
  (origin.sound.replay actions).wellFormed

theorem wellFormed_replay_first :
    let own : SessionId := Position.toStableId ⟨5, by decide⟩
    let start := ofSession own
    let actions : List Action := [.generate, .take, .finalize (.ofSpan own 1 1), .reload]
    start.Origin ∧ (start.replay actions).WellFormed := by
  intro own start actions
  have origin : start.Origin := .created (.standard own)
  exact ⟨origin, wellFormed_replay origin actions⟩

end Peer

end CompactIds
