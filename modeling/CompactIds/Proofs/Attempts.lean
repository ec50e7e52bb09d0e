import CompactIds.Proofs.Words.Finalize

/-!
# Finalizing in place

A peer changes its tables where they stand, one write after another, and may
refuse a range between two of them.  Here is each write in its order.  All
judging comes before the first of them, so what a refused attempt leaves behind
is the ledger that it found.
-/

namespace CompactIds

def Allocation.room? : Allocation → Option Nat
  | .extend _ => none
  | .grow _ additional => some additional
  | .overflow _ _ capacity _ => some capacity
  | .first capacity => some capacity

theorem Ledger.room?_plan {count : Nat} (ledger : Ledger) (session : SessionId)
    (hcount : 0 < count) :
    (ledger.plan session count).room? =
      if count ≤ ledger.reserve session then none else some (ledger.roomFor session count) := by
  unfold plan
  cases hplace : ledger.tailPlace? session with
  | none =>
      have hreserve := reserve_of_tailPlace?_none hplace
      simp [Allocation.room?, roomFor, hreserve, Nat.ne_of_gt hcount]
  | some i =>
      by_cases hfits : count ≤ ledger.reserve session
      · simp [Allocation.room?, hfits]
      · simp only [if_neg hfits]
        cases ledger.tiling.canGrow i <;> rfl

/-- A computation that writes to a ledger and may stop at a fault.  What it has
written by then stays. -/
abbrev Attempt := ExceptT Fault (StateM Ledger)

namespace Attempt

variable {α β : Type} {session : SessionId} {place base capacity surplus count i : Nat}
  {c : Cluster} {ledger next : Ledger}

def exec (x : Attempt α) (ledger : Ledger) : Except Fault α × Ledger :=
  x.run.run ledger

@[simp] theorem exec_pure (a : α) (ledger : Ledger) :
    (pure a : Attempt α).exec ledger = (.ok a, ledger) :=
  rfl

@[simp] theorem exec_throw (fault : Fault) (ledger : Ledger) :
    (throw fault : Attempt α).exec ledger = (.error fault, ledger) :=
  rfl

@[simp] theorem exec_get (ledger : Ledger) :
    (get : Attempt Ledger).exec ledger = (.ok ledger, ledger) :=
  rfl

@[simp] theorem exec_modify (f : Ledger → Ledger) (ledger : Ledger) :
    (modify f : Attempt Unit).exec ledger = (.ok (), f ledger) :=
  rfl

theorem exec_bind (x : Attempt α) (f : α → Attempt β) (ledger : Ledger) :
    (x >>= f).exec ledger =
      match x.exec ledger with
      | (.ok a, next) => (f a).exec next
      | (.error fault, next) => (.error fault, next) := by
  unfold exec ExceptT.run StateT.run
  simp only [bind, ExceptT.bind, ExceptT.mk, StateT.bind, ExceptT.bindCont]
  rcases x ledger with ⟨fault | a, next⟩ <;> rfl

/-- A new cluster counts no ids before it is in its place. -/
def addCluster (place base capacity : Nat) : Attempt Nat := do
  let tiling := (← get).tiling
  modify fun ledger =>
    { ledger with tiling := tiling.push ⟨place, tiling.nextBase, base, capacity, 0⟩ }
  modify fun ledger => { ledger with registry := ledger.registry.link place tiling.size }
  pure tiling.size

def apply (session : SessionId) (count : Nat) : Allocation → Attempt Unit
  | .extend i => modify (·.modifyCluster i (·.fill count))
  | .grow i additional => modify (·.modifyCluster i (·.grow additional count))
  | .overflow i base capacity surplus => do
      modify (·.modifyCluster i .fillUp)
      match (← get).tiling.cluster? i with
      | none => pure ()
      | some c =>
          let j ← addCluster c.session base capacity
          modify (·.modifyCluster j ({ · with count := surplus }))
  | .first capacity => do
      let (registry, place) := (← get).registry.register session
      modify ({ · with registry })
      let i ← addCluster place 1 capacity
      modify (·.modifyCluster i ({ · with count }))

def checkRoom (session : SessionId) (allocation : Allocation) : Attempt Unit := do
  match allocation.room? with
  | none => pure ()
  | some room =>
      match (← get).roomRefusal? session room with
      | none => pure ()
      | some fault => throw fault

def finalize (range : CreationRange) : Attempt Unit := do
  match range.ids with
  | none => pure ()
  | some ids =>
      if ids.count = 0 then throw (.malformedRange range.session .noIds)
      else if ids.first = 0 then throw (.malformedRange range.session .generationZero)
      else if idLimit < ids.first + ids.count then
        throw (.malformedRange range.session .generationsTooLarge)
      else do
        let expected := (← get).endOf range.session .finalized
        if ids.first ≠ expected then throw (.outOfOrder range.session expected ids.first)
        else do
          let allocation := (← get).plan range.session ids.count
          checkRoom range.session allocation
          apply range.session ids.count allocation

theorem exec_addCluster (place base capacity : Nat) (ledger : Ledger) :
    (addCluster place base capacity).exec ledger =
      (.ok ledger.tiling.size, ledger.append place base capacity 0) :=
  rfl

theorem modifyCluster_append (ledger : Ledger) (place base capacity count : Nat) :
    (ledger.append place base capacity 0).modifyCluster ledger.tiling.size ({ · with count }) =
      ledger.append place base capacity count := by
  simp only [Ledger.modifyCluster, Ledger.append, Tiling.modify_push]

theorem exec_apply_overflow (hc : ledger.tiling.cluster? i = some c) :
    (apply session count (.overflow i base capacity surplus)).exec ledger =
      (.ok (), (ledger.modifyCluster i .fillUp).append c.session base capacity surplus) := by
  have hfilled : (ledger.modifyCluster i .fillUp).tiling.cluster? i = some c.fillUp :=
    Tiling.cluster?_modify_self hc
  simp only [apply, exec_bind, exec_modify, exec_get, hfilled, exec_addCluster,
    modifyCluster_append]
  rfl

theorem exec_apply_first (session : SessionId) (capacity count : Nat) (ledger : Ledger) :
    (apply session count (.first capacity)).exec ledger =
      (.ok (), (ledger.register session).append (ledger.registry.register session).2 1 capacity
        count) := by
  simp only [apply, exec_bind, exec_modify, exec_get, exec_addCluster]
  rw [modifyCluster_append]
  rfl

theorem exec_apply (sound : ledger.Sound) (session : SessionId) (count : Nat) :
    (apply session count (ledger.plan session count)).exec ledger =
      (.ok (), ledger.apply session count) := by
  unfold Ledger.plan Ledger.apply
  cases hplace : ledger.tailPlace? session with
  | none => simp only [exec_apply_first, Ledger.appendSurplus_of_fresh hplace]
  | some i =>
      obtain ⟨c, tail⟩ := sound.linked.tailPlace?_eq_some_iff.1 hplace
      by_cases hfits : count ≤ ledger.reserve session
      · simp only [if_pos hfits]
        rfl
      · simp only [if_neg hfits]
        cases ledger.tiling.canGrow i with
        | true => rfl
        | false =>
            simp only [Bool.false_eq_true, if_false, exec_apply_overflow tail.cluster,
              Ledger.appendSurplus_of_tailOf sound.linked tail, Ledger.roomFor,
              sound.linked.endOf_of_tailOf tail, sound.linked.reserve_of_tailOf tail]

theorem exec_checkRoom (session : SessionId) (hcount : 0 < count) (ledger : Ledger) :
    (checkRoom session (ledger.plan session count)).exec ledger =
      match if count ≤ ledger.reserve session then none
        else ledger.roomRefusal? session (ledger.roomFor session count) with
      | none => (.ok (), ledger)
      | some fault => (.error fault, ledger) := by
  unfold checkRoom
  rw [ledger.room?_plan session hcount]
  by_cases hfits : count ≤ ledger.reserve session
  · simp [hfits]
  · simp only [if_neg hfits, exec_bind, exec_get]
    cases ledger.roomRefusal? session (ledger.roomFor session count) <;> rfl

theorem exec_finalize (sound : ledger.Sound) (range : CreationRange) :
    (finalize range).exec ledger =
      match ledger.finalize range with
      | .ok next => (.ok (), next)
      | .error fault => (.error fault, ledger) := by
  unfold finalize Ledger.finalize
  cases range.ids with
  | none => rfl
  | some ids =>
      by_cases hzero : ids.count = 0
      · simp [Ledger.refusal?, hzero]
      by_cases hfirst : ids.first = 0
      · simp [Ledger.refusal?, hzero, hfirst]
      by_cases hlarge : idLimit < ids.first + ids.count
      · simp [Ledger.refusal?, hzero, hfirst, hlarge]
      by_cases horder : ledger.endOf range.session .finalized = ids.first
      · have hrefusal : ledger.refusal? range.session ids =
            if ids.count ≤ ledger.reserve range.session then none
            else ledger.roomRefusal? range.session (ledger.roomFor range.session ids.count) := by
          simp [Ledger.refusal?, hzero, hfirst, hlarge, horder]
        have hcheck := exec_checkRoom range.session (Nat.pos_of_ne_zero hzero) ledger
        rw [← hrefusal] at hcheck
        simp only [if_neg hzero, if_neg hfirst, if_neg hlarge, horder, exec_bind, exec_get, hcheck,
          ne_eq, not_true_eq_false, if_false]
        cases ledger.refusal? range.session ids with
        | some fault => rfl
        | none => exact exec_apply sound range.session ids.count
      · simp [Ledger.refusal?, hzero, hfirst, hlarge, Ne.symm horder, exec_bind]

end Attempt

end CompactIds
