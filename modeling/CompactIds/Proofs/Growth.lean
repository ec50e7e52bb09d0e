import CompactIds.Proofs.Layout

/-!
# Growing a tiling

A tiling grows by a cluster behind all others, or by resizing the last cluster
of a session.  Neither moves a cluster.
-/

namespace CompactIds

namespace Cluster

/-- A cluster that starts where `c` does, with another size. -/
structure Resized (c c' : Cluster) : Prop where
  session : c'.session = c.session
  baseFinal : c'.baseFinal = c.baseFinal
  baseGeneration : c'.baseGeneration = c.baseGeneration
  count_pos : 0 < c'.count
  count_le : c'.count ≤ c'.capacity

end Cluster

theorem room_filter_modify (p : Cluster → Bool) (f : Cluster → Cluster) (i : Nat)
    (cs : List Cluster)
    (h : ∀ c, cs[i]? = some c →
      p (f c) = p c ∧ (p c = true → (f c).capacity = c.capacity)) :
    room ((cs.modify i f).filter p) = room (cs.filter p) := by
  induction cs generalizing i with
  | nil => simp
  | cons c cs ih =>
      cases i with
      | zero =>
          obtain ⟨hp, hcap⟩ := h c rfl
          rw [List.modify_zero_cons, List.filter_cons, List.filter_cons, hp]
          cases hpc : p c with
          | true => simp [room, hcap hpc]
          | false => rfl
      | succ i =>
          have hrest := ih i fun d hd => h d (by simpa using hd)
          rw [List.modify_succ_cons, List.filter_cons, List.filter_cons]
          cases p c with
          | true => simpa [room] using hrest
          | false => simpa using hrest

namespace Tiling

variable {tiling : Tiling} {i j place : Nat} {c d : Cluster} {f : Cluster → Cluster}

theorem cluster?_push (tiling : Tiling) (c : Cluster) (i : Nat) :
    (tiling.push c).cluster? i = if i = tiling.size then some c else tiling.cluster? i :=
  Array.getElem?_push

@[simp] theorem size_push (tiling : Tiling) (c : Cluster) :
    (tiling.push c).size = tiling.size + 1 :=
  Array.size_push ..

theorem cluster?_push_of_some (h : tiling.cluster? i = some d) (c : Cluster) :
    (tiling.push c).cluster? i = some d := by
  rw [cluster?_push, if_neg (Nat.ne_of_lt (lt_size h)), h]

theorem cluster?_of_push (h : (tiling.push c).cluster? i = some d) :
    tiling.cluster? i = some d ∨ i = tiling.size ∧ d = c := by
  rw [cluster?_push] at h
  split at h
  · rename_i hi
    exact .inr ⟨hi, (Option.some.inj h).symm⟩
  · exact .inl h

theorem before_push (c : Cluster) (h : i ≤ tiling.size) :
    (tiling.push c).before i = tiling.before i := by
  unfold before push
  rw [Array.toList_push, List.take_append_of_le_length]
  exact Nat.le_trans h (Nat.le_of_eq Array.length_toList.symm)

@[simp] theorem nextBase_push (tiling : Tiling) (c : Cluster) :
    (tiling.push c).nextBase = c.baseFinal + c.capacity :=
  nextBase_of_tail (i := tiling.size) (by rw [cluster?_push, if_pos rfl]) (size_push ..).symm

theorem Laid.push (laid : tiling.Laid) (hfinal : c.baseFinal = tiling.nextBase)
    (hgeneration : c.baseGeneration =
      1 + room (ownedBy c.session tiling.clusters.toList))
    (hpos : 0 < c.count) (hle : c.count ≤ c.capacity)
    (hfull : ∀ i d, tiling.cluster? i = some d → d.session = c.session →
      d.count = d.capacity) : (tiling.push c).Laid where
  baseFinal := by
    intro i d hd
    rcases cluster?_of_push hd with hd | ⟨rfl, rfl⟩
    · rw [before_push c (Nat.le_of_lt (lt_size hd)), laid.baseFinal hd]
    · rw [before_push d (Nat.le_refl _), before_size, hfinal, laid.nextBase_eq]
  baseGeneration := by
    intro i d hd
    rcases cluster?_of_push hd with hd | ⟨rfl, rfl⟩
    · rw [before_push c (Nat.le_of_lt (lt_size hd)), laid.baseGeneration hd]
    · rw [before_push d (Nat.le_refl _), before_size, hgeneration]
  count_pos := by
    intro i d hd
    rcases cluster?_of_push hd with hd | ⟨rfl, rfl⟩
    · exact laid.count_pos hd
    · exact hpos
  count_le := by
    intro i d hd
    rcases cluster?_of_push hd with hd | ⟨rfl, rfl⟩
    · exact laid.count_le hd
    · exact hle
  full := by
    intro i j d e hd he hij hs
    rcases cluster?_of_push hd with hd' | ⟨rfl, rfl⟩
    · rcases cluster?_of_push he with he' | ⟨rfl, rfl⟩
      · exact laid.full hd' he' hij hs
      · exact hfull i d hd' hs
    · have hj := lt_size he
      rw [size_push] at hj
      omega

theorem cluster?_modify (tiling : Tiling) (i : Nat) (f : Cluster → Cluster) (j : Nat) :
    (tiling.modify i f).cluster? j =
      if i = j then (tiling.cluster? j).map f else tiling.cluster? j :=
  Array.getElem?_modify

@[simp] theorem size_modify (tiling : Tiling) (i : Nat) (f : Cluster → Cluster) :
    (tiling.modify i f).size = tiling.size :=
  Array.size_modify

theorem cluster?_modify_self (hc : tiling.cluster? i = some c) :
    (tiling.modify i f).cluster? i = some (f c) := by
  rw [cluster?_modify, if_pos rfl, hc]
  rfl

theorem cluster?_modify_of_ne (h : i ≠ j) :
    (tiling.modify i f).cluster? j = tiling.cluster? j := by
  rw [cluster?_modify, if_neg h]

theorem cluster?_of_modify (hc : tiling.cluster? i = some c)
    (h : (tiling.modify i f).cluster? j = some d) :
    j = i ∧ d = f c ∨ j ≠ i ∧ tiling.cluster? j = some d := by
  by_cases hij : i = j
  · subst hij
    rw [cluster?_modify_self hc] at h
    exact .inl ⟨rfl, (Option.some.inj h).symm⟩
  · rw [cluster?_modify_of_ne hij] at h
    exact .inr ⟨Ne.symm hij, h⟩

theorem exists_cluster_modify (hc : tiling.cluster? i = some c)
    (hf : (f c).session = c.session) (hd : tiling.cluster? j = some d) :
    ∃ e, (tiling.modify i f).cluster? j = some e ∧ e.session = d.session := by
  by_cases hij : i = j
  · subst hij
    rw [hc] at hd
    cases hd
    exact ⟨f c, cluster?_modify_self hc, hf⟩
  · exact ⟨d, (cluster?_modify_of_ne hij).trans hd, rfl⟩

private theorem before_modify (tiling : Tiling) (i : Nat) (f : Cluster → Cluster) (j : Nat) :
    (tiling.modify i f).before j = (tiling.before j).modify i f := by
  unfold before modify
  rw [Array.toList_modify, List.take_modify]

private theorem room_before_modify (p : Cluster → Bool) (hc : tiling.cluster? i = some c)
    (hp : p (f c) = p c) (hsize : (f c).capacity = c.capacity ∨ j ≤ i) :
    room (((tiling.modify i f).before j).filter p) = room ((tiling.before j).filter p) := by
  rw [before_modify]
  rcases Nat.lt_or_ge i j with hij | hij
  · have hcap : (f c).capacity = c.capacity := by
      rcases hsize with hcap | hle
      · exact hcap
      · omega
    apply room_filter_modify
    intro d hd
    have hd' : tiling.cluster? i = some d := by
      unfold before at hd
      rwa [List.getElem?_take_of_lt hij, Array.getElem?_toList] at hd
    rw [hc] at hd'
    cases hd'
    exact ⟨hp, fun _ => hcap⟩
  · rw [List.modify_eq_self]
    unfold before
    rw [List.length_take]
    omega

theorem Laid.modify (laid : tiling.Laid) (hc : tiling.cluster? i = some c)
    (resized : c.Resized (f c)) (hsize : (f c).capacity = c.capacity ∨ i + 1 = tiling.size)
    (htail : ∀ j d, i < j → tiling.cluster? j = some d → d.session ≠ c.session) :
    (tiling.modify i f).Laid := by
  have hbefore : ∀ {j d}, (tiling.modify i f).cluster? j = some d →
      (f c).capacity = c.capacity ∨ j ≤ i := by
    intro j d hd
    rcases hsize with hcap | hlast
    · exact .inl hcap
    · have hj := lt_size hd
      rw [size_modify] at hj
      exact .inr (by omega)
  have hroom : ∀ {j d}, (tiling.modify i f).cluster? j = some d →
      room ((tiling.modify i f).before j) = room (tiling.before j) := by
    intro j d hd
    simpa using room_before_modify (fun _ => true) hc rfl (hbefore hd)
  have howned : ∀ {j d}, (tiling.modify i f).cluster? j = some d → ∀ place,
      room (ownedBy place ((tiling.modify i f).before j)) =
        room (ownedBy place (tiling.before j)) := by
    intro j d hd place
    exact room_before_modify (fun c => c.session = place) hc (by rw [resized.session])
      (hbefore hd)
  refine ⟨?_, ?_, ?_, ?_, ?_⟩
  · intro j d hd
    rw [hroom hd]
    rcases cluster?_of_modify hc hd with ⟨rfl, rfl⟩ | ⟨-, hd⟩
    · rw [resized.baseFinal, laid.baseFinal hc]
    · exact laid.baseFinal hd
  · intro j d hd
    rw [howned hd]
    rcases cluster?_of_modify hc hd with ⟨rfl, rfl⟩ | ⟨-, hd⟩
    · rw [resized.baseGeneration, resized.session, laid.baseGeneration hc]
    · exact laid.baseGeneration hd
  · intro j d hd
    rcases cluster?_of_modify hc hd with ⟨rfl, rfl⟩ | ⟨-, hd⟩
    · exact resized.count_pos
    · exact laid.count_pos hd
  · intro j d hd
    rcases cluster?_of_modify hc hd with ⟨rfl, rfl⟩ | ⟨-, hd⟩
    · exact resized.count_le
    · exact laid.count_le hd
  · intro j k d e hd he hjk hs
    rcases cluster?_of_modify hc hd with ⟨rfl, rfl⟩ | ⟨-, hd'⟩
    · -- Nothing of the same session follows the changed cluster.
      rcases cluster?_of_modify hc he with ⟨rfl, -⟩ | ⟨-, he'⟩
      · exact absurd hjk (Nat.lt_irrefl _)
      · exact absurd (hs.symm.trans resized.session) (htail k e hjk he')
    · rcases cluster?_of_modify hc he with ⟨rfl, rfl⟩ | ⟨-, he'⟩
      · exact laid.full hd' hc hjk (hs.trans resized.session)
      · exact laid.full hd' he' hjk hs

end Tiling

end CompactIds
