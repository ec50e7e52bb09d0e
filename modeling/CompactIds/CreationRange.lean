import CompactIds.StableId.Basic

/-!
# Creation ranges

The ids that a session generated since it last took a range, on their way to
being put in order.
-/

namespace CompactIds

/-- `count` generations from `first` on. -/
structure Span where
  first : Nat
  count : Nat
  deriving DecidableEq, Repr

structure CreationRange where
  session : SessionId
  ids : Option Span
  deriving DecidableEq, Repr

namespace CreationRange

def empty (session : SessionId) : CreationRange :=
  ⟨session, none⟩

def ofSpan (session : SessionId) (first count : Nat) : CreationRange :=
  ⟨session, some ⟨first, count⟩⟩

def isEmpty (range : CreationRange) : Bool :=
  range.ids.all fun span => span.count = 0

end CreationRange

end CompactIds
