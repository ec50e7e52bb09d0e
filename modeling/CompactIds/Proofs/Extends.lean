import CompactIds.Proofs.Convergence
import CompactIds.Proofs.Lookup

/-!
# Clusters stay where they are

A ledger only ever appends clusters and enlarges them, so a final id that is
reserved for a generation stays reserved for it.
-/

namespace CompactIds

namespace Block

def endOf (b : Block) : Extent → Nat
  | .finalized => b.baseGeneration + b.count
  | .reserved => b.baseGeneration + b.capacity

structure Extends (b later : Block) : Prop where
  owner : later.owner = b.owner
  baseFinal : later.baseFinal = b.baseFinal
  baseGeneration : later.baseGeneration = b.baseGeneration
  capacity : b.capacity ≤ later.capacity
  count : b.count ≤ later.count

variable {a b c : Block} {extent : Extent}

theorem Extends.refl (b : Block) : b.Extends b :=
  ⟨rfl, rfl, rfl, Nat.le_refl _, Nat.le_refl _⟩

theorem Extends.trans (h : a.Extends b) (h' : b.Extends c) : a.Extends c where
  owner := h'.owner.trans h.owner
  baseFinal := h'.baseFinal.trans h.baseFinal
  baseGeneration := h'.baseGeneration.trans h.baseGeneration
  capacity := Nat.le_trans h.capacity h'.capacity
  count := Nat.le_trans h.count h'.count

theorem Extends.endOf_le (h : a.Extends b) (extent : Extent) : a.endOf extent ≤ b.endOf extent := by
  have := h.baseGeneration
  have := h.capacity
  have := h.count
  cases extent <;> simp only [endOf] <;> omega

theorem extends_fill (b : Block) (count : Nat) : b.Extends (b.fill count) :=
  ⟨rfl, rfl, rfl, Nat.le_refl _, Nat.le_add_right _ _⟩

theorem extends_grow (b : Block) (room count : Nat) : b.Extends (b.grow room count) :=
  ⟨rfl, rfl, rfl, Nat.le_add_right _ _, Nat.le_add_right _ _⟩

theorem extends_fillUp (h : b.count ≤ b.capacity) : b.Extends b.fillUp :=
  ⟨rfl, rfl, rfl, Nat.le_refl _, h⟩

end Block

namespace Ledger

variable {ledger later : Ledger} {id : SessionId} {i g final count : Nat} {c : Cluster}
  {extent : Extent}

/-- Each cluster is still there, and holds all that it held. -/
def Extends (ledger later : Ledger) : Prop :=
  ∀ (i : Nat) (b : Block), ledger.blocks[i]? = some b →
    ∃ b', later.blocks[i]? = some b' ∧ b.Extends b'

theorem Extends.refl (ledger : Ledger) : ledger.Extends ledger :=
  fun _ b hb => ⟨b, hb, .refl b⟩

theorem Extends.trans {middle : Ledger} (h : ledger.Extends middle) (h' : middle.Extends later) :
    ledger.Extends later := by
  intro i b hb
  obtain ⟨b', hb', hle⟩ := h i b hb
  obtain ⟨b'', hb'', hle'⟩ := h' i b' hb'
  exact ⟨b'', hb'', hle.trans hle'⟩

theorem extends_of_blocks_eq (h : ledger.blocks = later.blocks) : ledger.Extends later := by
  unfold Extends
  rw [h]
  exact Extends.refl later

theorem extends_modifyCluster {f : Cluster → Cluster} {g : Block → Block}
    (h : ∀ c, ledger.block (f c) = g (ledger.block c)) (hc : ledger.tiling.cluster? i = some c)
    (hg : (ledger.block c).Extends (g (ledger.block c))) :
    ledger.Extends (ledger.modifyCluster i f) := by
  intro j b hb
  rw [blocks_modifyCluster h, List.getElem?_modify, hb]
  by_cases hij : i = j
  · subst hij
    rw [getElem?_blocks, hc] at hb
    cases hb
    exact ⟨g (ledger.block c), by simp, hg⟩
  · exact ⟨b, by simp [hij], .refl b⟩

theorem extends_append (ledger : Ledger) (place base capacity count : Nat) :
    ledger.Extends (ledger.append place base capacity count) := by
  intro i b hb
  obtain ⟨hi, -⟩ := List.getElem?_eq_some_iff.1 hb
  rw [blocks_append, List.getElem?_append_left hi]
  exact ⟨b, hb, .refl b⟩

theorem extends_register (linked : ledger.Linked) (id : SessionId) :
    ledger.Extends (ledger.register id) :=
  extends_of_blocks_eq (blocks_register linked id).symm

theorem Allocates.extends (sound : ledger.Sound) (h : ledger.Allocates id count later) :
    ledger.Extends later := by
  cases h with
  | extend tail fits =>
      exact extends_modifyCluster (g := fun b => b.fill count) (fun _ => rfl) tail.cluster
        (Block.extends_fill ..)
  | @grow i c tail exceeds last admits =>
      exact extends_modifyCluster
        (g := fun b => b.grow (ledger.capacity + (count - c.remaining)) count)
        (fun _ => rfl) tail.cluster (Block.extends_grow ..)
  | overflow tail exceeds inner admits =>
      have filled : ledger.Extends (ledger.modifyCluster _ .fillUp) :=
        extends_modifyCluster (g := .fillUp) (fun _ => rfl) tail.cluster
          (Block.extends_fillUp (sound.laid.count_le tail.cluster))
      exact filled.trans (extends_append _ _ _ _ _)
  | first fresh admits =>
      exact (extends_register sound.linked id).trans (extends_append _ _ _ _ _)

theorem Sound.extends_finalize (sound : ledger.Sound) {range : CreationRange}
    (h : ledger.finalize range = .ok later) : ledger.Extends later := by
  rcases sound.finalize_cases h with ⟨-, rfl⟩ | ⟨ids, -, -, -, -, hallocates⟩
  · exact .refl _
  · exact hallocates.extends sound

theorem Sound.finalOf?_eq_some_iff (sound : ledger.Sound) :
    ledger.finalOf? id extent g = some final ↔
      ∃ (i : Nat) (b : Block), ledger.blocks[i]? = some b ∧ b.owner = some id ∧
        b.baseGeneration ≤ g ∧ g < b.endOf extent ∧
        final = b.baseFinal + (g - b.baseGeneration) := by
  rw [Ledger.finalOf?_eq_some_iff sound.linked sound.laid]
  constructor
  · rintro ⟨i, c, hc, howner, hcovers, hfinal⟩
    obtain ⟨hbase, hend⟩ := Cluster.covers_iff.1 hcovers
    refine ⟨i, ledger.block c, by rw [getElem?_blocks, hc]; rfl, howner, hbase, ?_, hfinal⟩
    cases extent <;> exact hend
  · rintro ⟨i, b, hb, howner, hbase, hend, hfinal⟩
    rw [getElem?_blocks, Option.map_eq_some_iff] at hb
    obtain ⟨c, hc, rfl⟩ := hb
    refine ⟨i, c, hc, howner, Cluster.covers_iff.2 ⟨hbase, ?_⟩, hfinal⟩
    cases extent <;> exact hend

theorem Sound.finalOf?_extends (sound : ledger.Sound) (sound' : later.Sound)
    (h : ledger.Extends later) (hfinal : ledger.finalOf? id extent g = some final) :
    later.finalOf? id extent g = some final := by
  obtain ⟨i, b, hb, howner, hbase, hend, rfl⟩ := sound.finalOf?_eq_some_iff.1 hfinal
  obtain ⟨b', hb', hle⟩ := h i b hb
  refine sound'.finalOf?_eq_some_iff.2 ⟨i, b', hb', hle.owner.trans howner, ?_,
    Nat.lt_of_lt_of_le hend (hle.endOf_le extent), ?_⟩
  · rw [hle.baseGeneration]
    exact hbase
  · rw [hle.baseFinal, hle.baseGeneration]

theorem Sound.finalOf?_reserved (sound : ledger.Sound)
    (h : ledger.finalOf? id extent g = some final) :
    ledger.finalOf? id .reserved g = some final := by
  rw [Ledger.finalOf?_eq_some_iff sound.linked sound.laid] at h ⊢
  obtain ⟨i, c, hc, howner, hcovers, hfinal⟩ := h
  obtain ⟨hbase, hend⟩ := Cluster.covers_iff.1 hcovers
  have hreserved := Nat.lt_of_lt_of_le hend (sound.laid.endOf_le hc extent)
  exact ⟨i, c, hc, howner, Cluster.covers_iff.2 ⟨hbase, hreserved⟩, hfinal⟩

end Ledger

namespace Peer

variable {session session' : SessionId} {capacity : Nat} {peer other : Peer}

theorem Step.extends {action : Action} {next : Peer} (step : peer.Step action next)
    (sound : peer.Sound) : peer.ledger.Extends next.ledger := by
  cases step with
  | idle => exact .refl _
  | generateFinal => exact Ledger.Extends.refl _
  | generateLocal => exact Ledger.Extends.refl _
  | take => exact Ledger.Extends.refl _
  | setCapacity allowed => exact Ledger.extends_of_blocks_eq rfl
  | finalize accepted => exact sound.ledger.extends_finalize accepted

theorem Sound.extends_replay (sound : peer.Sound) (actions : List Action) :
    peer.ledger.Extends (peer.replay actions).ledger := by
  induction actions generalizing peer with
  | nil => exact .refl _
  | cons action actions ih =>
      exact ((sound.step action).extends sound).trans (ih (sound.perform action))

theorem Created.finalOf?_replay (created : Created session capacity peer)
    (created' : Created session' capacity other) {actions log : List Action}
    (applied : actions.filter Action.isShared <+: log) {id : SessionId} {extent : Extent}
    {g final : Nat} (h : (peer.replay actions).ledger.finalOf? id extent g = some final) :
    (other.replay log).ledger.finalOf? id .reserved g = some final := by
  obtain ⟨rest, rfl⟩ := applied
  have sound := created.sound.replay actions
  have sound' := created'.sound.replay (actions.filter Action.isShared)
  have agree := replay_agree (created.agree created') created.sound created'.sound actions
  have grown := (Ledger.extends_of_blocks_eq agree.blocks).trans (sound'.extends_replay rest)
  rw [replay_append]
  exact sound.ledger.finalOf?_extends (sound'.replay rest).ledger grown
    (sound.ledger.finalOf?_reserved h)

theorem Created.exists_final (created : Created session capacity peer) (log : List Action)
    (id : SessionId) (g : Nat) :
    ∃ final, ∀ {session' other actions extent v}, Created session' capacity other →
      actions.filter Action.isShared <+: log →
      (other.replay actions).ledger.finalOf? id extent g = some v → v = final := by
  cases hfinal : (peer.replay log).ledger.finalOf? id .reserved g with
  | none =>
      refine ⟨0, fun created' applied h => ?_⟩
      have := created'.finalOf?_replay created applied h
      rw [hfinal] at this
      cases this
  | some final =>
      refine ⟨final, fun created' applied h => ?_⟩
      have := created'.finalOf?_replay created applied h
      rw [hfinal] at this
      cases this
      rfl

end Peer

end CompactIds
