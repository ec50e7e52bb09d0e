import CompactIds.Proofs.Locating
import Mathlib.Order.Hom.Set

/-!
# Generations and their final ids

Each binary search ends at the one cluster that a scan of all clusters would
find.  So the reserved generations of a session and the final ids reserved for
it correspond one to one and in the same order.
-/

namespace CompactIds

/-- The one place that passes a test is found, and nothing if no place does. -/
inductive FindsOnly (test : Nat → Prop) : Option Nat → Prop
  | found {i : Nat} (passes : test i) (only : ∀ j, test j → j = i) : FindsOnly test (some i)
  | absent (fails : ∀ i, ¬ test i) : FindsOnly test none

theorem FindsOnly.of_iff {test : Nat → Prop} {result : Option Nat}
    (h : ∀ i, result = some i ↔ test i) : FindsOnly test result := by
  cases result with
  | none => exact .absent fun i hi => Option.some_ne_none i ((h i).2 hi).symm
  | some i => exact .found ((h i).1 rfl) fun j hj => (Option.some.inj ((h j).2 hj)).symm

namespace Cluster

def generations (c : Cluster) (extent : Extent) : Set Nat :=
  Set.Ico c.baseGeneration (c.endOf extent)

def finals (c : Cluster) : Set Nat :=
  Set.Ico c.baseFinal (c.baseFinal + c.capacity)

end Cluster

namespace Tiling

def HoldsAt (tiling : Tiling) (numbers : Cluster → Set Nat) (n i : Nat) : Prop :=
  ∃ c, tiling.cluster? i = some c ∧ n ∈ numbers c

def generationOf? (tiling : Tiling) (final : Nat) : Option Nat := do
  let i ← tiling.clusterOfFinal? final
  let c ← tiling.cluster? i
  c.generationOf? final

end Tiling

namespace Session

def generations (s : Session) (tiling : Tiling) : Set Nat :=
  Set.Ico 1 (s.endOf .reserved tiling)

def finals (s : Session) (tiling : Tiling) : Set Nat :=
  {f | ∃ i ∈ s.chain, tiling.HoldsAt Cluster.finals f i}

/-- All that the searches along a session's chain promise. -/
structure Corresponds (s : Session) (tiling : Tiling) : Prop where
  byGeneration : ∀ extent g,
    FindsOnly (fun i => i ∈ s.chain ∧ tiling.HoldsAt (·.generations extent) g i)
      (s.clusterOfGeneration? extent g tiling)
  byFinal : ∀ f,
    FindsOnly (fun i => i ∈ s.chain ∧ tiling.HoldsAt Cluster.finals f i)
      (s.clusterOfFinal? f tiling)
  unreserved : ∀ g, g ∉ s.generations tiling → s.finalOf? .reserved g tiling = none
  /-- The way back leads through the session's own chain or through all clusters. -/
  isomorphic : ∃ φ : s.generations tiling ≃o s.finals tiling,
    (∀ g : s.generations tiling, s.finalOf? .reserved g tiling = some (φ g).val) ∧
    ∀ f : s.finals tiling, s.generationOf? f tiling = some (φ.symm f).val ∧
      tiling.generationOf? f = some (φ.symm f).val

end Session

namespace Ledger

variable {ledger : Ledger} {place i j g g' f f' : Nat} {s : Session} {numbers : Cluster → Set Nat}

theorem Linked.holdsAt_iff (linked : ledger.Linked)
    (hs : ledger.registry.session? place = some s) :
    (i ∈ s.chain ∧ ledger.tiling.HoldsAt numbers f i) ↔
      ∃ c, ledger.tiling.cluster? i = some c ∧ c.session = place ∧ f ∈ numbers c := by
  rw [linked.mem_chain hs]
  constructor
  · rintro ⟨⟨c, hc, hplace⟩, d, hd, hf⟩
    rw [hc, Option.some.injEq] at hd
    exact ⟨c, hc, hplace, hd ▸ hf⟩
  · rintro ⟨c, hc, hplace, hf⟩
    exact ⟨⟨c, hc, hplace⟩, c, hc, hf⟩

namespace Sound

variable (sound : ledger.Sound)
include sound

theorem clusterOfFinal?_findsOnly (f : Nat) :
    FindsOnly (ledger.tiling.HoldsAt Cluster.finals f) (ledger.tiling.clusterOfFinal? f) := by
  refine .of_iff fun i => ?_
  rw [sound.laid.clusterOfFinal?_eq_some_iff]
  simp only [Cluster.containsFinal_iff]
  rfl

theorem exists_clusterOfFinal?_iff :
    (∃ i, ledger.tiling.clusterOfFinal? f = some i) ↔ f < ledger.tiling.nextBase := by
  simp only [sound.laid.clusterOfFinal?_eq_some_iff]
  constructor
  · rintro ⟨i, c, hc, hcontains⟩
    obtain ⟨-, hlt⟩ := Cluster.containsFinal_iff.1 hcontains
    exact Nat.lt_of_lt_of_le hlt (sound.laid.baseFinal_add_capacity_le hc)
  · exact sound.laid.exists_containsFinal

section Session

variable (hs : ledger.registry.session? place = some s)
include hs

theorem clusterOfGeneration?_findsOnly (extent : Extent) (g : Nat) :
    FindsOnly (fun i => i ∈ s.chain ∧ ledger.tiling.HoldsAt (·.generations extent) g i)
      (s.clusterOfGeneration? extent g ledger.tiling) := by
  refine .of_iff fun i => ?_
  rw [clusterOfGeneration?_eq_some_iff sound.linked sound.laid hs, sound.linked.holdsAt_iff hs]
  simp only [Cluster.covers_iff]
  rfl

theorem clusterOfFinal?_chain_findsOnly (f : Nat) :
    FindsOnly (fun i => i ∈ s.chain ∧ ledger.tiling.HoldsAt Cluster.finals f i)
      (s.clusterOfFinal? f ledger.tiling) := by
  refine .of_iff fun i => ?_
  rw [clusterOfFinal?_chain_eq_some_iff sound.linked sound.laid hs, sound.linked.holdsAt_iff hs]
  simp only [Cluster.containsFinal_iff]
  rfl

theorem mem_generations_iff :
    g ∈ s.generations ledger.tiling ↔ ∃ f, s.finalOf? .reserved g ledger.tiling = some f := by
  simp only [session_finalOf?_eq_some_iff sound.linked sound.laid hs]
  constructor
  · rintro ⟨hpos, hlt⟩
    obtain ⟨i, c, hc, hplace, hcovers⟩ := sound.linked.exists_covers sound.laid hs hpos hlt
    exact ⟨_, i, c, hc, hplace, hcovers, rfl⟩
  · rintro ⟨f, i, c, hc, hplace, hcovers, -⟩
    have hbase := sound.one_le_baseGeneration hc
    exact ⟨Nat.le_trans hbase (Cluster.covers_iff.1 hcovers).1,
      sound.linked.lt_endOf_of_covers sound.laid hs hc hplace hcovers⟩

theorem mem_finals_iff :
    f ∈ s.finals ledger.tiling ↔ ∃ g, s.finalOf? .reserved g ledger.tiling = some f := by
  change (∃ i, _ ∧ _) ↔ _
  simp only [sound.linked.holdsAt_iff hs,
    session_finalOf?_eq_some_iff sound.linked sound.laid hs]
  constructor
  · rintro ⟨i, c, hc, hplace, hbase, hlt⟩
    refine ⟨c.baseGeneration + (f - c.baseFinal), i, c, hc, hplace, ?_, by omega⟩
    rw [Cluster.covers_iff, Cluster.endOf]
    omega
  · rintro ⟨g, i, c, hc, hplace, hcovers, rfl⟩
    exact ⟨i, c, hc, hplace,
      Cluster.containsFinal_iff.1 (sound.laid.containsFinal_of_covers hc hcovers)⟩

theorem finalOf?_lt (h : s.finalOf? .reserved g ledger.tiling = some f)
    (h' : s.finalOf? .reserved g' ledger.tiling = some f') (hlt : g < g') : f < f' := by
  have laid := sound.laid
  rw [session_finalOf?_eq_some_iff sound.linked laid hs] at h h'
  obtain ⟨i, c, hc, hplace, hcovers, rfl⟩ := h
  obtain ⟨j, d, hd, hplace', hcovers', rfl⟩ := h'
  obtain ⟨-, hfinal⟩ := Cluster.containsFinal_iff.1 (laid.containsFinal_of_covers hc hcovers)
  rw [Cluster.covers_iff] at hcovers hcovers'
  rcases Nat.lt_trichotomy i j with hij | rfl | hij
  · have := laid.final_lt hc hd hij
    omega
  · rw [hc, Option.some.injEq] at hd
    subst hd
    omega
  · have := laid.generation_lt hd hc hij (hplace'.trans hplace.symm)
    omega

theorem generationOf?_of_finalOf? (h : s.finalOf? .reserved g ledger.tiling = some f) :
    s.generationOf? f ledger.tiling = some g ∧ ledger.tiling.generationOf? f = some g := by
  rw [session_finalOf?_eq_some_iff sound.linked sound.laid hs] at h
  obtain ⟨i, c, hc, hplace, hcovers, hf⟩ := h
  have hcontains := sound.laid.containsFinal_of_covers hc hcovers
  rw [← hf] at hcontains
  have hgeneration : c.generationOf? f = some g := by
    rw [Cluster.generationOf?_eq_some_iff, Cluster.finalOf?, if_pos hcovers, hf]
  have hchain := (clusterOfFinal?_chain_eq_some_iff sound.linked sound.laid hs).2
    ⟨c, hc, hplace, hcontains⟩
  have hall := sound.laid.clusterOfFinal?_eq_some_iff.2 ⟨c, hc, hcontains⟩
  constructor
  · simp [Session.generationOf?, hchain, hc, hgeneration]
  · simp [Tiling.generationOf?, hall, hc, hgeneration]

theorem exists_orderIso :
    ∃ φ : s.generations ledger.tiling ≃o s.finals ledger.tiling,
      ∀ g : s.generations ledger.tiling,
        s.finalOf? .reserved g ledger.tiling = some (φ g).val := by
  have htotal : ∀ g : s.generations ledger.tiling, ∃ f : s.finals ledger.tiling,
      s.finalOf? .reserved g ledger.tiling = some f.val := by
    intro g
    obtain ⟨f, hf⟩ := (sound.mem_generations_iff hs).1 g.2
    exact ⟨⟨f, (sound.mem_finals_iff hs).2 ⟨g, hf⟩⟩, hf⟩
  choose φ hφ using htotal
  have hmono : StrictMono φ := fun g g' hlt => sound.finalOf?_lt hs (hφ g) (hφ g') hlt
  have hsurj : Function.Surjective φ := by
    intro f
    obtain ⟨g, hg⟩ := (sound.mem_finals_iff hs).1 f.2
    refine ⟨⟨g, (sound.mem_generations_iff hs).2 ⟨f, hg⟩⟩, Subtype.ext ?_⟩
    exact Option.some.inj ((hφ _).symm.trans hg)
  exact ⟨hmono.orderIsoOfSurjective φ hsurj, hφ⟩

theorem corresponds : s.Corresponds ledger.tiling where
  byGeneration := sound.clusterOfGeneration?_findsOnly hs
  byFinal := sound.clusterOfFinal?_chain_findsOnly hs
  unreserved g hg := by
    rw [sound.mem_generations_iff hs, not_exists] at hg
    exact Option.eq_none_iff_forall_ne_some.2 hg
  isomorphic := by
    obtain ⟨φ, hφ⟩ := sound.exists_orderIso hs
    refine ⟨φ, hφ, fun f => sound.generationOf?_of_finalOf? hs ?_⟩
    rw [hφ, OrderIso.apply_symm_apply]

end Session

end Sound

end Ledger

namespace Peer

variable {start : Peer}

theorem corresponds_replay (origin : start.Origin) (actions : List Action) :
    let ledger := (start.replay actions).ledger
    (∀ f, FindsOnly (ledger.tiling.HoldsAt Cluster.finals f) (ledger.tiling.clusterOfFinal? f)) ∧
    (∀ f, (∃ i, ledger.tiling.clusterOfFinal? f = some i) ↔ f < ledger.tiling.nextBase) ∧
    ∀ place s, ledger.registry.session? place = some s → s.Corresponds ledger.tiling := by
  intro ledger
  have sound : ledger.Sound := (origin.sound.replay actions).ledger
  exact ⟨sound.clusterOfFinal?_findsOnly, fun _ => sound.exists_clusterOfFinal?_iff,
    fun _ _ => sound.corresponds⟩

/-- A chain that goes on behind the cluster of another session: generation 3 has the
final id 2, and generation 4 the final id 6. -/
theorem corresponds_replay_interleaved :
    let own : SessionId := Position.toStableId ⟨5, by decide⟩
    let other : SessionId := Position.toStableId ⟨300, by decide⟩
    let actions : List Action := [.setCapacity 2, .finalize (.ofSpan own 1 1),
      .finalize (.ofSpan other 1 1), .finalize (.ofSpan own 2 3)]
    let s : Session := ⟨own, #[0, 2]⟩
    let tiling := ((ofSession own).replay actions).ledger.tiling
    (ofSession own).Origin ∧
      ((ofSession own).replay actions).ledger.registry.session? 0 = some s ∧
      s.Corresponds tiling ∧ s.generations tiling = Set.Ico 1 7 ∧
      s.finalOf? .reserved 3 tiling = some 2 ∧ s.finalOf? .reserved 4 tiling = some 6 ∧
      (∃ i, tiling.clusterOfFinal? 8 = some i) ∧ ¬ ∃ i, tiling.clusterOfFinal? 9 = some i := by
  intro own other actions s tiling
  have origin : (ofSession own).Origin := .created (.standard own)
  have hs : ((ofSession own).replay actions).ledger.registry.session? 0 = some s := by
    decide +kernel
  obtain ⟨-, covered, corresponds⟩ := corresponds_replay origin actions
  refine ⟨origin, hs, corresponds 0 s hs, ?_, by decide +kernel, by decide +kernel,
    (covered 8).2 (by decide +kernel), ?_⟩
  · exact congrArg (Set.Ico 1) (by decide +kernel)
  · rw [covered 9]
    decide +kernel

end Peer

end CompactIds
