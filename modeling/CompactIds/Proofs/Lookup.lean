import CompactIds.Proofs.Spans

/-!
# Looking clusters up

The searches find the cluster that covers a generation of a session, or that
contains a final id, whenever there is one.
-/

namespace CompactIds

namespace Ledger

variable {ledger : Ledger} {place i g f v : Nat} {s : Session} {c : Cluster} {id : SessionId}
  {extent : Extent} {key : Cluster → Nat}

/-- The search ends at a cluster whose key is reached, if all later clusters of
the session have greater keys. -/
theorem Linked.lastIndex?_chain (linked : ledger.Linked)
    (hs : ledger.registry.session? place = some s)
    (mono : ∀ {i j c d}, i < j → ledger.tiling.cluster? i = some c →
      ledger.tiling.cluster? j = some d → c.session = d.session → key c ≤ key d)
    (hc : ledger.tiling.cluster? i = some c) (hplace : c.session = place) (hle : key c ≤ v)
    (hafter : ∀ j d, i < j → ledger.tiling.cluster? j = some d → d.session = place →
      v < key d) :
    ∃ k, s.chain[k]? = some i ∧
      Search.lastIndex? (fun j => (ledger.tiling.cluster? j).any fun d => key d ≤ v) s.chain =
        some k := by
  have ascending := linked.ascending hs
  have hcluster : ∀ {k j : Nat}, s.chain[k]? = some j →
      ∃ d, ledger.tiling.cluster? j = some d ∧ d.session = place := fun hj =>
    (linked.mem_chain hs _).1 (Array.mem_of_getElem? hj)
  have hdown : ∀ (a b x y : Nat), a ≤ b → s.chain[a]? = some x → s.chain[b]? = some y →
      ((ledger.tiling.cluster? y).any fun d => key d ≤ v) = true →
      ((ledger.tiling.cluster? x).any fun d => key d ≤ v) = true := by
    intro a b x y hab hx hy h
    rcases Nat.lt_or_eq_of_le hab with hab | rfl
    · obtain ⟨d, hd, hds⟩ := hcluster hx
      obtain ⟨e, he, hes⟩ := hcluster hy
      have := mono (lt_of_ascending ascending hx hy hab) hd he (hds.trans hes.symm)
      simp only [hd, he, Option.any_some, decide_eq_true_eq] at h ⊢
      omega
    · rw [hx] at hy
      cases hy
      exact h
  obtain ⟨k, hk⟩ := Array.mem_iff_getElem?.1 ((linked.mem_chain hs i).2 ⟨c, hc, hplace⟩)
  refine ⟨k, hk, ?_⟩
  rw [Search.lastIndex?_eq_some_iff hdown]
  refine ⟨⟨i, hk, by simpa [hc] using hle⟩, fun b y hkb hy => ?_⟩
  obtain ⟨d, hd, hds⟩ := hcluster hy
  have := hafter y d (lt_of_ascending ascending hk hy hkb) hd hds
  simp only [hd, Option.any_some, decide_eq_false_iff_not]
  omega

section Session

variable (linked : ledger.Linked) (laid : ledger.tiling.Laid)
  (hs : ledger.registry.session? place = some s)

include linked laid hs

theorem clusterOfGeneration?_eq_some_iff :
    s.clusterOfGeneration? extent g ledger.tiling = some i ↔
      ∃ c, ledger.tiling.cluster? i = some c ∧ c.session = place ∧
        c.covers extent g = true := by
  simp only [Session.clusterOfGeneration?, Option.bind_eq_bind, Option.bind_eq_some_iff,
    Option.ite_none_right_eq_some, Option.some.injEq]
  constructor
  · rintro ⟨k, -, j, hj, c, hc, hcovers, rfl⟩
    exact ⟨c, hc, linked.session_of_chain hs hj hc, hcovers⟩
  · rintro ⟨c, hc, hplace, hcovers⟩
    obtain ⟨hbase, hend⟩ := Cluster.covers_iff.1 hcovers
    have hreserved := laid.endOf_le hc extent
    have hmono : ∀ {i j c d}, i < j → ledger.tiling.cluster? i = some c →
        ledger.tiling.cluster? j = some d → c.session = d.session →
        c.baseGeneration ≤ d.baseGeneration := by
      intro i j c d hij hc hd hsame
      exact Nat.le_trans (Nat.le_add_right _ _) (laid.generation_lt hc hd hij hsame)
    obtain ⟨k, hk, hlast⟩ := linked.lastIndex?_chain hs hmono hc hplace hbase (by
      intro j d hij hd hds
      have := laid.generation_lt hc hd hij (hplace.trans hds.symm)
      omega)
    exact ⟨k, hlast, i, hk, c, hc, hcovers, rfl⟩

theorem session_finalOf?_eq_some_iff :
    s.finalOf? extent g ledger.tiling = some f ↔
      ∃ i c, ledger.tiling.cluster? i = some c ∧ c.session = place ∧
        c.covers extent g = true ∧ f = c.baseFinal + (g - c.baseGeneration) := by
  simp only [Session.finalOf?, Option.bind_eq_bind, Option.bind_eq_some_iff,
    clusterOfGeneration?_eq_some_iff linked laid hs, Cluster.finalOf?,
    Option.ite_none_right_eq_some, Option.some.injEq]
  constructor
  · rintro ⟨i, ⟨c, hc, hplace, hcovers⟩, d, hd, -, rfl⟩
    rw [hc] at hd
    cases hd
    exact ⟨i, c, hc, hplace, hcovers, rfl⟩
  · rintro ⟨i, c, hc, hplace, hcovers, rfl⟩
    refine ⟨i, ⟨c, hc, hplace, hcovers⟩, c, hc, ?_, rfl⟩
    have := laid.endOf_le hc extent
    rw [Cluster.covers_iff] at hcovers ⊢
    omega

theorem clusterOfFinal?_chain_eq_some_iff :
    s.clusterOfFinal? f ledger.tiling = some i ↔
      ∃ c, ledger.tiling.cluster? i = some c ∧ c.session = place ∧
        c.containsFinal f = true := by
  simp only [Session.clusterOfFinal?, Option.bind_eq_bind, Option.bind_eq_some_iff,
    Option.ite_none_right_eq_some, Option.some.injEq]
  constructor
  · rintro ⟨k, -, j, hj, c, hc, hcontains, rfl⟩
    exact ⟨c, hc, linked.session_of_chain hs hj hc, hcontains⟩
  · rintro ⟨c, hc, hplace, hcontains⟩
    obtain ⟨hbase, hend⟩ := Cluster.containsFinal_iff.1 hcontains
    have hmono : ∀ {i j c d}, i < j → ledger.tiling.cluster? i = some c →
        ledger.tiling.cluster? j = some d → c.session = d.session →
        c.baseFinal ≤ d.baseFinal := by
      intro i j c d hij hc hd _
      exact Nat.le_trans (Nat.le_add_right _ _) (laid.final_lt hc hd hij)
    obtain ⟨k, hk, hlast⟩ := linked.lastIndex?_chain hs hmono hc hplace hbase (by
      intro j d hij hd _
      have := laid.final_lt hc hd hij
      omega)
    exact ⟨k, hlast, i, hk, c, hc, hcontains, rfl⟩

theorem session_generationOf?_eq_some_iff :
    s.generationOf? f ledger.tiling = some g ↔
      ∃ i c, ledger.tiling.cluster? i = some c ∧ c.session = place ∧
        c.containsFinal f = true ∧ g = c.baseGeneration + (f - c.baseFinal) := by
  simp only [Session.generationOf?, Option.bind_eq_bind, Option.bind_eq_some_iff,
    clusterOfFinal?_chain_eq_some_iff linked laid hs, Cluster.generationOf?,
    Option.ite_none_right_eq_some, Option.some.injEq]
  constructor
  · rintro ⟨i, ⟨c, hc, hplace, hcontains⟩, d, hd, -, rfl⟩
    rw [hc] at hd
    cases hd
    exact ⟨i, c, hc, hplace, hcontains, rfl⟩
  · rintro ⟨i, c, hc, hplace, hcontains, rfl⟩
    exact ⟨i, ⟨c, hc, hplace, hcontains⟩, c, hc, hcontains, rfl⟩

end Session

theorem finalOf?_eq_some_iff (linked : ledger.Linked) (laid : ledger.tiling.Laid) :
    ledger.finalOf? id extent g = some f ↔
      ∃ i c, ledger.tiling.cluster? i = some c ∧ ledger.ownerOf? c = some id ∧
        c.covers extent g = true ∧ f = c.baseFinal + (g - c.baseGeneration) := by
  simp only [Ledger.finalOf?, Option.bind_eq_bind, Option.bind_eq_some_iff]
  constructor
  · rintro ⟨place, hfind, s, hs, hfinal⟩
    obtain ⟨t, ht, hid⟩ := linked.indexed.session?_of_find? hfind
    rw [hs] at ht
    cases ht
    obtain ⟨i, c, hc, rfl, hcovers, hf⟩ := (session_finalOf?_eq_some_iff linked laid hs).1 hfinal
    exact ⟨i, c, hc, ownerOf?_eq_some_iff.2 ⟨s, hs, hid⟩, hcovers, hf⟩
  · rintro ⟨i, c, hc, howner, hcovers, hf⟩
    obtain ⟨s, hs, rfl⟩ := ownerOf?_eq_some_iff.1 howner
    exact ⟨c.session, linked.indexed.find?_session hs, s, hs,
      (session_finalOf?_eq_some_iff linked laid hs).2 ⟨i, c, hc, rfl, hcovers, hf⟩⟩

theorem exists_finalOf? (linked : ledger.Linked) (laid : ledger.tiling.Laid) (hpos : 1 ≤ g)
    (hg : g < ledger.endOf id extent) : ∃ f, ledger.finalOf? id extent g = some f := by
  cases hplace : ledger.tailPlace? id with
  | none =>
      rw [endOf_of_tailPlace?_none hplace] at hg
      omega
  | some j =>
      obtain ⟨d, tail⟩ := linked.tailPlace?_eq_some_iff.1 hplace
      obtain ⟨s, hs, rfl⟩ := ownerOf?_eq_some_iff.1 tail.owner
      rw [linked.endOf_session hs] at hg
      obtain ⟨i, c, hc, hcs, hcovers⟩ := linked.exists_covers laid hs hpos hg
      have howner := (linked.ownerOf?_session hs).2 hcs
      exact ⟨_, (finalOf?_eq_some_iff linked laid).2 ⟨i, c, hc, howner, hcovers, rfl⟩⟩

theorem finalOf?_inj (linked : ledger.Linked) (laid : ledger.tiling.Laid) {id' : SessionId}
    {extent' : Extent} {g' : Nat} (h : ledger.finalOf? id extent g = some f)
    (h' : ledger.finalOf? id' extent' g' = some f) : id = id' ∧ g = g' := by
  obtain ⟨i, c, hc, howner, hcovers, hf⟩ := (finalOf?_eq_some_iff linked laid).1 h
  obtain ⟨j, d, hd, howner', hcovers', hf'⟩ := (finalOf?_eq_some_iff linked laid).1 h'
  have hcontains := laid.containsFinal_of_covers hc hcovers
  have hcontains' := laid.containsFinal_of_covers hd hcovers'
  rw [← hf] at hcontains
  rw [← hf'] at hcontains'
  obtain rfl := laid.eq_of_containsFinal hc hd hcontains hcontains'
  rw [hc] at hd
  cases hd
  rw [howner, Option.some.injEq] at howner'
  rw [Cluster.covers_iff] at hcovers hcovers'
  exact ⟨howner', by omega⟩

theorem one_le_of_finalOf? (linked : ledger.Linked) (laid : ledger.tiling.Laid)
    (h : ledger.finalOf? id extent g = some f) : 1 ≤ g := by
  obtain ⟨i, c, hc, -, hcovers, -⟩ := (finalOf?_eq_some_iff linked laid).1 h
  have hbase := laid.baseGeneration hc
  rw [Cluster.covers_iff] at hcovers
  omega

theorem lt_endOf_of_finalOf? (linked : ledger.Linked) (laid : ledger.tiling.Laid)
    (h : ledger.finalOf? id extent g = some f) : g < ledger.endOf id extent := by
  obtain ⟨i, c, hc, howner, hcovers, -⟩ := (finalOf?_eq_some_iff linked laid).1 h
  obtain ⟨s, hs, rfl⟩ := ownerOf?_eq_some_iff.1 howner
  rw [linked.endOf_session hs]
  exact linked.lt_endOf_of_covers laid hs hc rfl hcovers

end Ledger

namespace Tiling

variable {tiling : Tiling} {i f : Nat}

private theorem Laid.exists_containsFinal_before (laid : tiling.Laid) (k : Nat)
    (h : f < room (tiling.before k)) :
    ∃ i c, tiling.cluster? i = some c ∧ c.containsFinal f = true := by
  induction k with
  | zero => exact absurd h (Nat.not_lt_zero f)
  | succ k ih =>
      cases hc : tiling.cluster? k with
      | none => exact ih (by rwa [before_succ_of_none hc] at h)
      | some c =>
          by_cases hbefore : f < room (tiling.before k)
          · exact ih hbefore
          · have hbase := laid.baseFinal hc
            rw [before_succ hc, room_append, room_singleton] at h
            exact ⟨k, c, hc, Cluster.containsFinal_iff.2 ⟨by omega, by omega⟩⟩

theorem Laid.exists_containsFinal (laid : tiling.Laid) (h : f < tiling.nextBase) :
    ∃ i c, tiling.cluster? i = some c ∧ c.containsFinal f = true := by
  apply laid.exists_containsFinal_before tiling.size
  rwa [before_size, ← laid.nextBase_eq]

theorem Laid.clusterOfFinal?_eq_some_iff (laid : tiling.Laid) :
    tiling.clusterOfFinal? f = some i ↔
      ∃ c, tiling.cluster? i = some c ∧ c.containsFinal f = true := by
  have hdown : ∀ (a b : Nat) (c d : Cluster), a ≤ b → tiling.clusters[a]? = some c →
      tiling.clusters[b]? = some d → decide (d.baseFinal ≤ f) = true →
      decide (c.baseFinal ≤ f) = true := by
    intro a b c d hab hc hd h
    rw [decide_eq_true_eq] at h ⊢
    rcases Nat.lt_or_eq_of_le hab with hab | rfl
    · have := laid.final_lt hc hd hab
      omega
    · rw [hc] at hd
      cases hd
      exact h
  simp only [clusterOfFinal?, Option.bind_eq_bind, Option.bind_eq_some_iff,
    Option.ite_none_right_eq_some, Option.some.injEq]
  constructor
  · rintro ⟨j, -, c, hc, hcontains, rfl⟩
    exact ⟨c, hc, hcontains⟩
  · rintro ⟨c, hc, hcontains⟩
    obtain ⟨hbase, hend⟩ := Cluster.containsFinal_iff.1 hcontains
    refine ⟨i, ?_, c, hc, hcontains, rfl⟩
    rw [Search.lastIndex?_eq_some_iff hdown]
    refine ⟨⟨c, hc, by simpa using hbase⟩, fun j d hij hd => ?_⟩
    have := laid.final_lt hc hd hij
    rw [decide_eq_false_iff_not]
    omega

end Tiling

end CompactIds
