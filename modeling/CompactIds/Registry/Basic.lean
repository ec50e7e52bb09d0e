import CompactIds.Registry.Index
import CompactIds.Registry.Session

/-!
# The registry

All sessions that a peer has heard of, in the order in which it did.
-/

namespace CompactIds

structure Registry where
  sessions : Array Session
  index : PositionIndex
  deriving DecidableEq, Repr

namespace Registry

def empty : Registry :=
  ⟨#[], .empty⟩

def size (registry : Registry) : Nat :=
  registry.sessions.size

def session? (registry : Registry) (place : Nat) : Option Session :=
  registry.sessions[place]?

def find? (registry : Registry) (id : SessionId) : Option Nat :=
  registry.index.find? id.position

/-- Gives a session a place, unless it has one. -/
def register (registry : Registry) (id : SessionId) : Registry × Nat :=
  match registry.find? id with
  | some place => (registry, place)
  | none =>
      (⟨registry.sessions.push (.ofId id), registry.index.insert id.position registry.size⟩,
        registry.size)

def link (registry : Registry) (place cluster : Nat) : Registry :=
  { registry with
    sessions := registry.sessions.modify place fun s => { s with chain := s.chain.push cluster } }

def copy (registry : Registry) : Registry :=
  ⟨registry.sessions, registry.index.rebuild⟩

end Registry

end CompactIds
