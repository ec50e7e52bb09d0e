import CompactIds.Ledger.Finalize
import CompactIds.Proofs.Growth
import CompactIds.Proofs.Spans

/-!
# The changes a ledger is made of

A ledger changes by registering a session, by resizing the last cluster of a
session, and by appending a cluster to a chain.  Each keeps the invariant,
provided that the span that it leaves its session with is clear.
-/

namespace CompactIds.Ledger

variable {ledger : Ledger} {place i capacity count : Nat} {s : Session} {c : Cluster}
  {f : Cluster → Cluster}

theorem Apart.of_clear {ledger' : Ledger} {owner : SessionId} {length : Nat}
    (apart : ledger.Apart) (indexed : ledger'.registry.Indexed)
    (clear : ledger.Clear owner owner.position length)
    (h : ∀ {place t'}, ledger'.registry.session? place = some t' → t'.isPopulated = true →
      t'.id = owner ∧ t'.reach ledger'.tiling = owner.position.val + length ∨
        t'.id ≠ owner ∧ ∃ t, ledger.registry.session? place = some t ∧ t.id = t'.id ∧
          t.isPopulated = true ∧ t'.reach ledger'.tiling = t.reach ledger.tiling) :
    ledger'.Apart where
  inside := by
    intro place t' ht' hpop'
    rcases h ht' hpop' with ⟨-, hreach⟩ | ⟨-, t, ht, -, hpop, hreach⟩
    · rw [hreach]
      exact clear.inside
    · rw [hreach]
      exact apart.inside ht hpop
  disjoint := by
    intro p q t' u' ht' hu' hne htpop' hupop'
    rcases h ht' htpop' with ⟨htid, htreach⟩ | ⟨htne, t, ht, htid, htpop, htreach⟩ <;>
      rcases h hu' hupop' with ⟨huid, hureach⟩ | ⟨hune, u, hu, huid, hupop, hureach⟩
    · exact absurd (indexed.place_eq ht' hu' (htid.trans huid.symm)) hne
    · have hclear := clear.apart hu hupop (huid ▸ hune)
      rw [htreach, hureach, Session.position_eq htid, Session.position_eq huid.symm]
      exact hclear
    · have hclear := clear.apart ht htpop (htid ▸ htne)
      rw [htreach, hureach, Session.position_eq huid, Session.position_eq htid.symm]
      exact hclear.symm
    · rw [htreach, hureach, Session.position_eq htid.symm, Session.position_eq huid.symm]
      exact apart.disjoint ht hu hne htpop hupop

def register (ledger : Ledger) (id : SessionId) : Ledger :=
  { ledger with registry := (ledger.registry.register id).1 }

theorem Linked.register (linked : ledger.Linked) (id : SessionId) :
    (ledger.register id).Linked where
  indexed := linked.indexed.register id
  owner := by
    intro i c hc
    obtain ⟨s, hs⟩ := Registry.exists_session (linked.owner hc)
    exact Registry.lt_size (Registry.session?_register hs)
  mem_chain := by
    intro place s hs i
    rcases Registry.session?_of_register hs with hs | ⟨-, rfl, rfl⟩
    · exact linked.mem_chain hs i
    · constructor
      · intro hmem
        cases Array.not_mem_empty i hmem
      · rintro ⟨c, hc, hplace⟩
        have := linked.owner hc
        omega
  ascending := by
    intro place s hs
    rcases Registry.session?_of_register hs with hs | ⟨-, -, rfl⟩
    · exact linked.ascending hs
    · exact List.Pairwise.nil

theorem Sound.register (sound : ledger.Sound) (id : SessionId) :
    (ledger.register id).Sound where
  capacity := sound.capacity
  linked := sound.linked.register id
  laid := sound.laid
  nextBase_le := sound.nextBase_le
  endOf_le := sound.endOf_le
  apart := by
    have hold : ∀ {place t}, (ledger.register id).registry.session? place = some t →
        t.isPopulated = true → ledger.registry.session? place = some t := by
      intro place t ht hpop
      rcases Registry.session?_of_register ht with ht | ⟨-, -, rfl⟩
      · exact ht
      · cases hpop
    constructor
    · intro place t ht hpop
      exact sound.apart.inside (hold ht hpop) hpop
    · intro p q t u ht hu hne htpop hupop
      exact sound.apart.disjoint (hold ht htpop) (hold hu hupop) hne htpop hupop

theorem Clear.register {owner : SessionId} {base : Position} {length : Nat}
    (clear : ledger.Clear owner base length) (id : SessionId) :
    (ledger.register id).Clear owner base length where
  inside := clear.inside
  apart := by
    intro q t ht hpop hne
    rcases Registry.session?_of_register ht with ht | ⟨-, -, rfl⟩
    · exact clear.apart ht hpop hne
    · cases hpop

theorem sound_of_empty (hcapacity : 1 ≤ ledger.capacity ∧ ledger.capacity ≤ largestCapacity)
    (indexed : ledger.registry.Indexed) (hempty : ledger.tiling = .empty)
    (hchain : ∀ {place s}, ledger.registry.session? place = some s → s.chain = #[]) :
    ledger.Sound where
  capacity := hcapacity
  linked := by
    refine ⟨indexed, ?_, ?_, ?_⟩
    · intro i c hc
      simp [hempty, Tiling.empty, Tiling.cluster?] at hc
    · intro place s hs i
      simp [hchain hs, hempty, Tiling.empty, Tiling.cluster?]
    · intro place s hs
      simp [hchain hs]
  laid := by
    rw [hempty]
    exact Tiling.laid_empty
  nextBase_le := by
    rw [hempty]
    exact Nat.zero_le _
  endOf_le := by
    intro i c hc
    simp [hempty, Tiling.empty, Tiling.cluster?] at hc
  apart := by
    constructor
    · intro place s hs hpop
      simp [Session.isPopulated, hchain hs] at hpop
    · intro p q s t hs ht hne hpop
      simp [Session.isPopulated, hchain hs] at hpop

/-! ## Appending -/

theorem Linked.append (linked : ledger.Linked)
    (hs : ledger.registry.session? place = some s) (base capacity count : Nat) :
    (ledger.append place base capacity count).Linked where
  indexed := linked.indexed.link place ledger.tiling.size
  owner := by
    intro i c hc
    rw [show (ledger.append place base capacity count).registry.size = ledger.registry.size
      from Registry.size_link ..]
    rcases Tiling.cluster?_of_push hc with hc | ⟨-, rfl⟩
    · exact linked.owner hc
    · exact Registry.lt_size hs
  mem_chain := by
    intro q t' ht' i
    have hpush : (∃ c, (ledger.append place base capacity count).tiling.cluster? i = some c ∧
        c.session = q) ↔ (∃ c, ledger.tiling.cluster? i = some c ∧ c.session = q) ∨
          i = ledger.tiling.size ∧ place = q := by
      constructor
      · rintro ⟨c, hc, hq⟩
        rcases Tiling.cluster?_of_push hc with hc | ⟨hi, rfl⟩
        · exact .inl ⟨c, hc, hq⟩
        · exact .inr ⟨hi, hq⟩
      · rintro (⟨c, hc, hq⟩ | ⟨rfl, hq⟩)
        · exact ⟨c, Tiling.cluster?_push_of_some hc _, hq⟩
        · exact ⟨_, by
            change (ledger.tiling.push _).cluster? _ = _
            rw [Tiling.cluster?_push, if_pos rfl], hq⟩
    rw [hpush]
    change (ledger.registry.link place ledger.tiling.size).session? q = some t' at ht'
    rw [Registry.session?_link] at ht'
    split at ht'
    · rename_i hq
      obtain ⟨t, ht, rfl⟩ := Option.map_eq_some_iff.1 ht'
      simp only [Array.mem_push, linked.mem_chain ht, hq, and_true]
    · rename_i hq
      simp only [linked.mem_chain ht', hq, and_false, or_false]
  ascending := by
    intro q t' ht'
    change (ledger.registry.link place ledger.tiling.size).session? q = some t' at ht'
    rw [Registry.session?_link] at ht'
    split at ht'
    · obtain ⟨t, ht, rfl⟩ := Option.map_eq_some_iff.1 ht'
      rw [Array.toList_push, List.pairwise_append]
      refine ⟨linked.ascending ht, List.pairwise_singleton .., fun i hi j hj => ?_⟩
      obtain ⟨c, hc, -⟩ := (linked.mem_chain ht i).1 (Array.mem_toList_iff.1 hi)
      rw [List.mem_singleton.1 hj]
      exact Tiling.lt_size hc
    · exact linked.ascending ht'

theorem session?_of_append {q base : Nat} {t' : Session}
    (h : (ledger.append place base capacity count).registry.session? q = some t') :
    ∃ t, ledger.registry.session? q = some t ∧ t.id = t'.id ∧
      (place ≠ q → t = t') := by
  change (ledger.registry.link place ledger.tiling.size).session? q = some t' at h
  rw [Registry.session?_link] at h
  split at h
  · rename_i hq
    obtain ⟨t, ht, rfl⟩ := Option.map_eq_some_iff.1 h
    exact ⟨t, ht, rfl, fun hne => absurd hq hne⟩
  · exact ⟨t', h, rfl, fun _ => rfl⟩

private theorem laid_append (sound : ledger.Sound)
    (hs : ledger.registry.session? place = some s) (hpos : 0 < count) (hle : count ≤ capacity)
    (hfull : ∀ i c, ledger.tiling.IsTail place i → ledger.tiling.cluster? i = some c →
      c.count = c.capacity) :
    (ledger.append place (s.endOf .reserved ledger.tiling) capacity count).tiling.Laid := by
  apply sound.laid.push rfl (sound.linked.endOf_reserved sound.laid hs) hpos hle
  intro i d hd hds
  obtain ⟨j, htail⟩ := sound.linked.exists_isTail hd
  obtain ⟨⟨e, he, hes⟩, hafter⟩ := id htail
  change d.session = place at hds
  rcases Nat.lt_trichotomy i j with hij | rfl | hij
  · exact sound.laid.full hd he hij hes.symm
  · exact hfull i d (hds ▸ htail) hd
  · exact absurd rfl (hafter i d hij hd)

private theorem endOf_append (sound : ledger.Sound) {base q : Nat} {t t' : Session}
    (linked : (ledger.append place base capacity count).Linked)
    (laid : (ledger.append place base capacity count).tiling.Laid)
    (ht : ledger.registry.session? q = some t)
    (ht' : (ledger.append place base capacity count).registry.session? q = some t') :
    t'.endOf .reserved (ledger.append place base capacity count).tiling =
      t.endOf .reserved ledger.tiling + if place = q then capacity else 0 := by
  rw [linked.endOf_reserved laid ht', sound.linked.endOf_reserved sound.laid ht, Nat.add_assoc]
  congr 1
  change room (ownedBy q (ledger.tiling.clusters.push _).toList) = _
  rw [Array.toList_push, ownedBy_append, room_append, ownedBy_singleton]
  by_cases hq : place = q
  · rw [if_pos hq, if_pos hq, room_singleton]
  · rw [if_neg hq, if_neg hq, room_nil]

/-- A cluster can be appended to a full chain where the span is clear. -/
theorem Sound.append (sound : ledger.Sound)
    (hs : ledger.registry.session? place = some s) (hpos : 0 < count) (hle : count ≤ capacity)
    (hfull : ∀ i c, ledger.tiling.IsTail place i → ledger.tiling.cluster? i = some c →
      c.count = c.capacity)
    (hend : s.endOf .reserved ledger.tiling + capacity ≤ idLimit)
    (hnext : ledger.tiling.nextBase + capacity ≤ idLimit)
    (clear : ledger.Clear s.id s.position
      (s.endOf .reserved ledger.tiling - 1 + capacity)) :
    (ledger.append place (s.endOf .reserved ledger.tiling) capacity count).Sound := by
  have linked := sound.linked.append hs (s.endOf .reserved ledger.tiling) capacity count
  have laid := laid_append sound hs hpos hle hfull
  refine ⟨sound.capacity, linked, laid, ?_, ?_, ?_⟩
  · change (ledger.tiling.push _).nextBase ≤ idLimit
    rw [Tiling.nextBase_push]
    exact hnext
  · intro i d hd
    rcases Tiling.cluster?_of_push hd with hd | ⟨-, rfl⟩
    · exact sound.endOf_le hd
    · exact hend
  · refine sound.apart.of_clear linked.indexed clear fun {q t'} ht' hpop' => ?_
    obtain ⟨t, ht, hid, hsame⟩ := session?_of_append ht'
    have hend' := endOf_append sound linked laid ht ht'
    have hposition : t'.position = t.position := Session.position_eq hid.symm
    by_cases hq : place = q
    · subst hq
      rw [hs] at ht
      cases ht
      have := sound.linked.one_le_endOf sound.laid hs
      rw [if_pos rfl] at hend'
      refine .inl ⟨hid.symm, ?_⟩
      rw [Session.reach, hend', hposition]
      change s.position.val + _ = s.position.val + _
      omega
    · rw [if_neg hq, Nat.add_zero] at hend'
      refine .inr ⟨fun hown => hq ?_, t, ht, hid, hsame hq ▸ hpop', ?_⟩
      · exact sound.linked.indexed.place_eq hs ht (hown.symm.trans hid.symm)
      · simp only [Session.reach, hend', hposition]

/-! ## Resizing -/

theorem Linked.modifyCluster (linked : ledger.Linked) (hc : ledger.tiling.cluster? i = some c)
    (hf : (f c).session = c.session) : (ledger.modifyCluster i f).Linked where
  indexed := linked.indexed
  owner := by
    intro j d hd
    rcases Tiling.cluster?_of_modify hc hd with ⟨-, rfl⟩ | ⟨-, hd⟩
    · rw [hf]
      exact linked.owner hc
    · exact linked.owner hd
  mem_chain := by
    intro place s hs j
    rw [linked.mem_chain hs]
    constructor
    · rintro ⟨d, hd, hplace⟩
      obtain ⟨e, he, hes⟩ := Tiling.exists_cluster_modify hc hf hd
      exact ⟨e, he, hes.trans hplace⟩
    · rintro ⟨d, hd, hplace⟩
      rcases Tiling.cluster?_of_modify hc hd with ⟨rfl, rfl⟩ | ⟨-, hd⟩
      · exact ⟨c, hc, hf.symm.trans hplace⟩
      · exact ⟨d, hd, hplace⟩
  ascending := linked.ascending

theorem isTail_modify (hc : ledger.tiling.cluster? i = some c)
    (hf : (f c).session = c.session) {place j : Nat}
    (h : ledger.tiling.IsTail place j) : (ledger.tiling.modify i f).IsTail place j := by
  obtain ⟨⟨d, hd, hplace⟩, hafter⟩ := h
  constructor
  · obtain ⟨e, he, hes⟩ := Tiling.exists_cluster_modify hc hf hd
    exact ⟨e, he, hes.trans hplace⟩
  · intro k e hjk he
    rcases Tiling.cluster?_of_modify hc he with ⟨rfl, rfl⟩ | ⟨-, he⟩
    · rw [hf]
      exact hafter k c hjk hc
    · exact hafter k e hjk he

/-- The last cluster of a session can be resized where the span is clear, and
get more room where it is the last of all. -/
theorem Sound.modifyCluster (sound : ledger.Sound) {id : SessionId}
    (tail : ledger.TailOf id i c) (resized : c.Resized (f c))
    (hsize : (f c).capacity = c.capacity ∨ i + 1 = ledger.tiling.size)
    (hend : (f c).endOf .reserved ≤ idLimit)
    (hfinal : (f c).baseFinal + (f c).capacity ≤ idLimit)
    (clear : ledger.Clear id id.position ((f c).endOf .reserved - 1)) :
    (ledger.modifyCluster i f).Sound := by
  obtain ⟨s, hs, rfl⟩ := ownerOf?_eq_some_iff.1 tail.owner
  have hc := tail.cluster
  have linked := sound.linked.modifyCluster hc resized.session
  have laid := sound.laid.modify hc resized hsize tail.isTail.2
  refine ⟨sound.capacity, linked, laid, ?_, ?_, ?_⟩
  · have hi := Tiling.lt_size hc
    rw [← Tiling.size_modify ledger.tiling i f] at hi
    obtain ⟨n, d, hlast', hd⟩ := Tiling.exists_last (Nat.zero_lt_of_lt hi)
    have hlast : n + 1 = ledger.tiling.size := hlast'.trans (Tiling.size_modify ..)
    change (ledger.tiling.modify i f).nextBase ≤ idLimit
    rw [Tiling.nextBase_of_tail hd hlast']
    rcases Tiling.cluster?_of_modify hc hd with ⟨rfl, rfl⟩ | ⟨-, hd⟩
    · exact hfinal
    · rw [← Tiling.nextBase_of_tail hd hlast]
      exact sound.nextBase_le
  · intro j d hd
    rcases Tiling.cluster?_of_modify hc hd with ⟨rfl, rfl⟩ | ⟨-, hd⟩
    · exact hend
    · exact sound.endOf_le hd
  · refine sound.apart.of_clear linked.indexed clear fun {q t} ht hpop => ?_
    change ledger.registry.session? q = some t at ht
    obtain ⟨j, d, htail, hd, hplace, -⟩ := sound.linked.exists_tail ht hpop
    have htail' := isTail_modify (f := f) hc resized.session htail
    by_cases hq : c.session = q
    · subst hq
      rw [hs] at ht
      cases ht
      have hij := tail.isTail.eq htail
      subst hij
      refine .inl ⟨rfl, ?_⟩
      unfold Session.reach
      rw [linked.endOf_of_isTail hs htail' (Tiling.cluster?_modify_self hc)]
      rfl
    · have hij : i ≠ j := by
        rintro rfl
        rw [hc] at hd
        cases hd
        exact hq hplace
      refine .inr ⟨fun hid => hq (sound.linked.indexed.place_eq hs ht hid.symm), t, ht, rfl,
        hpop, ?_⟩
      unfold Session.reach
      rw [linked.endOf_of_isTail ht htail' ((Tiling.cluster?_modify_of_ne hij).trans hd),
        sound.linked.endOf_of_isTail ht htail hd]

end CompactIds.Ledger
