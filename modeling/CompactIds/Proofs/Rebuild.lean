import CompactIds.Proofs.Loading

/-!
# A ledger from its clusters

Appending the clusters of a ledger in their order, each with the size that it
has in the end, passes through the ledgers with only the first clusters.  All
of them are sound, so every cluster is accepted.
-/

namespace CompactIds

def Session.upTo (s : Session) (k : Nat) : Session :=
  { s with chain := s.chain.filter fun i => i < k }

/-- The ledger with its first `k` clusters only. -/
def Ledger.upTo (ledger : Ledger) (k : Nat) : Ledger where
  capacity := ledger.capacity
  registry := ⟨ledger.registry.sessions.map fun s => s.upTo k, ledger.registry.index⟩
  tiling := ⟨(ledger.tiling.before k).toArray⟩

private theorem filter_lt_succ {chain : List Nat} (ascending : chain.Pairwise (· < ·)) (k : Nat) :
    chain.filter (fun i => i < k + 1) =
      chain.filter (fun i => i < k) ++ if k ∈ chain then [k] else [] := by
  induction chain with
  | nil => simp
  | cons a chain ih =>
      obtain ⟨above, rest⟩ := List.pairwise_cons.1 ascending
      have ih := ih rest
      have hnone : k ≤ a → chain.filter (fun i => i < k) = [] := by
        intro hka
        rw [List.filter_eq_nil_iff]
        intro i hi
        have := above i hi
        simp
        omega
      rcases Nat.lt_trichotomy a k with hak | rfl | hak
      · have hne : k ≠ a := by omega
        have hlt : a < k + 1 := by omega
        simp only [List.filter_cons, hlt, hak, decide_true, if_true, ih, List.mem_cons, hne,
          false_or, List.cons_append]
      · have hmem : a ∉ chain := fun h => Nat.lt_irrefl a (above a h)
        simp only [List.filter_cons, Nat.lt_add_one, Nat.lt_irrefl, decide_true, decide_false,
          if_true, if_false, Bool.false_eq_true, ih, hmem, hnone (Nat.le_refl a), List.mem_cons,
          true_or, List.append_nil, List.nil_append]
      · have hmem : k ∉ chain := fun h => by
          have := above k h
          omega
        have hne : k ≠ a := by omega
        have hle : ¬ a < k + 1 := by omega
        have hle' : ¬ a < k := by omega
        simp only [List.filter_cons, hle, hle', decide_false, if_false, Bool.false_eq_true, ih,
          hmem, hne, hnone (Nat.le_of_lt hak), List.mem_cons, false_or, List.append_nil]

theorem Session.upTo_succ {s : Session} (ascending : s.chain.toList.Pairwise (· < ·)) (k : Nat) :
    s.upTo (k + 1) =
      if k ∈ s.chain then { s.upTo k with chain := (s.upTo k).chain.push k } else s.upTo k := by
  have hchain := filter_lt_succ ascending k
  rw [← Array.toList_filter, ← Array.toList_filter] at hchain
  unfold upTo
  by_cases hk : k ∈ s.chain
  · rw [if_pos (Array.mem_toList_iff.2 hk), ← Array.toList_push] at hchain
    rw [if_pos hk, Array.toList_inj.1 hchain]
  · rw [if_neg (fun h => hk (Array.mem_toList_iff.1 h)), List.append_nil] at hchain
    rw [if_neg hk, Array.toList_inj.1 hchain]

@[simp] theorem Session.upTo_zero (s : Session) : s.upTo 0 = .ofId s.id := by
  simp [upTo, ofId]

namespace Ledger

variable {ledger : Ledger} {place i k : Nat} {s : Session} {c : Cluster}

theorem session?_upTo (ledger : Ledger) (k place : Nat) :
    (ledger.upTo k).registry.session? place =
      (ledger.registry.session? place).map fun s => s.upTo k :=
  Array.getElem?_map ..

theorem cluster?_upTo (ledger : Ledger) (k i : Nat) :
    (ledger.upTo k).tiling.cluster? i = if i < k then ledger.tiling.cluster? i else none := by
  simp only [upTo, Tiling.cluster?, Tiling.before, List.getElem?_toArray, List.getElem?_take,
    Array.getElem?_toList]

theorem size_upTo (hk : k ≤ ledger.tiling.size) : (ledger.upTo k).tiling.size = k := by
  change k ≤ ledger.tiling.clusters.size at hk
  simp [upTo, Tiling.size, Tiling.before, hk]

theorem indexed_upTo (linked : ledger.Linked) (k : Nat) : (ledger.upTo k).registry.Indexed := by
  intro p place
  rw [session?_upTo]
  change ledger.registry.index.find? p = some place ↔ _
  rw [linked.indexed]
  simp only [Option.map_eq_some_iff]
  constructor
  · rintro ⟨s, hs, hp⟩
    exact ⟨s.upTo k, ⟨s, hs, rfl⟩, hp⟩
  · rintro ⟨-, ⟨s, hs, rfl⟩, hp⟩
    exact ⟨s, hs, hp⟩

theorem upTo_size (linked : ledger.Linked) : ledger.upTo ledger.tiling.size = ledger := by
  have hsessions : ledger.registry.sessions.map (fun s => s.upTo ledger.tiling.size) =
      ledger.registry.sessions := by
    apply Array.ext_getElem?
    intro place
    rw [Array.getElem?_map]
    cases hs : ledger.registry.sessions[place]? with
    | none => rfl
    | some s =>
        have hchain : s.chain.filter (fun i => i < ledger.tiling.size) = s.chain := by
          rw [Array.filter_eq_self]
          intro i hi
          obtain ⟨c, hc, -⟩ := (linked.mem_chain hs i).1 hi
          simpa using Tiling.lt_size hc
        simp only [Option.map_some, Session.upTo, hchain]
  unfold upTo
  rw [hsessions, Tiling.before_size, Array.toArray_toList]

private theorem link_upTo (linked : ledger.Linked) (hc : ledger.tiling.cluster? k = some c) :
    (ledger.upTo k).registry.link c.session k = (ledger.upTo (k + 1)).registry := by
  have hsessions : ∀ place, ((ledger.upTo k).registry.link c.session k).session? place =
      (ledger.upTo (k + 1)).registry.session? place := by
    intro place
    rw [Registry.session?_link, session?_upTo, session?_upTo]
    cases hs : ledger.registry.session? place with
    | none => simp
    | some s =>
        have hmem := linked.mem_chain hs k
        simp only [Option.map_some, Session.upTo_succ (linked.ascending hs)]
        by_cases hplace : c.session = place
        · rw [if_pos hplace, if_pos (hmem.2 ⟨c, hc, hplace⟩)]
        · rw [if_neg hplace, if_neg]
          intro hk
          obtain ⟨d, hd, hds⟩ := hmem.1 hk
          rw [hc] at hd
          cases hd
          exact hplace hds
  have harray := Array.ext_getElem? hsessions
  unfold Registry.link at harray ⊢
  simp only at harray
  rw [harray]
  rfl

theorem endOf_upTo (laid : ledger.tiling.Laid) (below : (ledger.upTo k).Sound)
    (hc : ledger.tiling.cluster? k = some c)
    (hs : ledger.registry.session? c.session = some s) :
    (s.upTo k).endOf .reserved (ledger.upTo k).tiling = c.baseGeneration := by
  have hs' : (ledger.upTo k).registry.session? c.session = some (s.upTo k) := by
    rw [session?_upTo, hs]
    rfl
  rw [below.linked.endOf_reserved below.laid hs', laid.baseGeneration hc]
  simp [upTo]

theorem nextBase_upTo (laid : ledger.tiling.Laid) (below : (ledger.upTo k).Sound)
    (hc : ledger.tiling.cluster? k = some c) : (ledger.upTo k).tiling.nextBase = c.baseFinal := by
  rw [below.laid.nextBase_eq, laid.baseFinal hc]
  simp [upTo]

theorem append_upTo (linked : ledger.Linked) (laid : ledger.tiling.Laid)
    (below : (ledger.upTo k).Sound) (hc : ledger.tiling.cluster? k = some c)
    (hs : ledger.registry.session? c.session = some s) :
    (ledger.upTo k).append c.session ((s.upTo k).endOf .reserved (ledger.upTo k).tiling)
      c.capacity c.count = ledger.upTo (k + 1) := by
  have hsize := size_upTo (Nat.le_of_lt (Tiling.lt_size hc))
  unfold append
  rw [endOf_upTo laid below hc hs, nextBase_upTo laid below hc, hsize, link_upTo linked hc]
  have htiling : (ledger.upTo k).tiling.push c = (ledger.upTo (k + 1)).tiling := by
    simp [Tiling.push, upTo, Tiling.before_succ hc]
  rw [htiling]
  rfl

private theorem sound_upTo_zero (sound : ledger.Sound) : (ledger.upTo 0).Sound := by
  apply sound_of_empty ?_ (indexed_upTo sound.linked 0) rfl
  · intro place s hs
    rw [session?_upTo] at hs
    obtain ⟨t, -, rfl⟩ := Option.map_eq_some_iff.1 hs
    simp [Session.ofId]
  · exact sound.capacity

theorem isPopulated_of_upTo (h : (s.upTo k).isPopulated = true) : s.isPopulated = true := by
  cases hpop : s.isPopulated with
  | true => rfl
  | false =>
      have hempty : s.chain = #[] := by simpa [Session.isPopulated] using hpop
      simp [Session.isPopulated, Session.upTo, hempty] at h

theorem Sound.reach_upTo_le (sound : ledger.Sound) (below : (ledger.upTo k).Sound)
    (hs : ledger.registry.session? place = some s) :
    (s.upTo k).reach (ledger.upTo k).tiling ≤ s.reach ledger.tiling := by
  have hs' : (ledger.upTo k).registry.session? place = some (s.upTo k) := by
    rw [session?_upTo, hs]
    rfl
  have hroom : room (ownedBy place (ledger.upTo k).tiling.clusters.toList) ≤
      room (ownedBy place ledger.tiling.clusters.toList) :=
    room_mono (ownedBy_mono place (by simpa [upTo] using Tiling.before_isPrefix))
  change s.position.val + ((s.upTo k).endOf .reserved (ledger.upTo k).tiling - 1) ≤
    s.position.val + (s.endOf .reserved ledger.tiling - 1)
  rw [below.linked.endOf_reserved below.laid hs', sound.linked.endOf_reserved sound.laid hs]
  omega

theorem Sound.fits_upTo (sound : ledger.Sound) (below : (ledger.upTo k).Sound)
    (hc : ledger.tiling.cluster? k = some c)
    (hs : ledger.registry.session? c.session = some s) :
    (ledger.upTo k).Fits (s.upTo k) c.capacity c.count := by
  have hend := endOf_upTo sound.laid below hc hs
  have hpop := (sound.linked.isPopulated_iff hs).2 (sound.linked.exists_isTail hc)
  -- With its next cluster the session reaches no further than it does in the end.
  have hreach : s.position.val + (c.baseGeneration - 1 + c.capacity) ≤ s.reach ledger.tiling := by
    have hcovers : c.covers .reserved (c.baseGeneration + c.capacity - 1) = true := by
      have := sound.laid.capacity_pos hc
      rw [Cluster.covers_iff, Cluster.endOf]
      omega
    have := sound.linked.lt_endOf_of_covers sound.laid hs hc rfl hcovers
    have := sound.laid.baseGeneration hc
    unfold Session.reach
    omega
  refine ⟨sound.laid.count_pos hc, sound.laid.count_le hc, ?_, ?_, ?_, ?_⟩
  · intro d hd
    unfold Session.tail? at hd
    obtain ⟨i, hi, hd⟩ := Option.bind_eq_some_iff.1 hd
    rw [cluster?_upTo] at hd
    have hmem : i ∈ (s.upTo k).chain := Array.mem_of_back? hi
    obtain ⟨hmem, -⟩ := Array.mem_filter.1 hmem
    obtain ⟨e, he, hes⟩ := (sound.linked.mem_chain hs i).1 hmem
    split at hd
    · rename_i hik
      rw [he] at hd
      cases hd
      exact sound.laid.full he hc hik hes
    · cases hd
  · rw [hend]
    exact sound.endOf_le hc
  · rw [nextBase_upTo sound.laid below hc]
    exact Nat.le_trans (sound.laid.baseFinal_add_capacity_le hc) sound.nextBase_le
  · rw [hend]
    constructor
    · exact Nat.le_trans hreach (sound.apart.inside hs hpop)
    · intro q t' ht' htpop' hne
      rw [session?_upTo] at ht'
      obtain ⟨t, ht, rfl⟩ := Option.map_eq_some_iff.1 ht'
      have hplace : c.session ≠ q := by
        rintro rfl
        rw [hs] at ht
        cases ht
        exact hne rfl
      have htreach := sound.reach_upTo_le below ht
      have := sound.apart.disjoint hs ht hplace hpop (isPopulated_of_upTo htpop')
      change s.position.val + _ ≤ t.position.val ∨ _ ≤ s.position.val
      omega

theorem Sound.upTo (sound : ledger.Sound) (hk : k ≤ ledger.tiling.size) :
    (ledger.upTo k).Sound := by
  induction k with
  | zero => exact sound_upTo_zero sound
  | succ k ih =>
      have below := ih (Nat.le_of_succ_le hk)
      obtain ⟨c, hc⟩ := Tiling.exists_cluster hk
      obtain ⟨s, hs⟩ := Registry.exists_session (sound.linked.owner hc)
      rw [← append_upTo sound.linked sound.laid below hc hs]
      apply below.append_of_fits ?_ (sound.fits_upTo below hc hs)
      rw [session?_upTo, hs]
      rfl

end Ledger

end CompactIds
