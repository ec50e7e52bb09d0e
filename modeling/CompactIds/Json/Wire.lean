import CompactIds.CompactId
import CompactIds.CreationRange
import CompactIds.Fault
import CompactIds.Json.Reader

/-!
# The wire form

Stable ids travel as strings, ids of a space as integers, creation ranges and
settings as objects.  Keys that are not known are skipped; known keys may stand
in any order, but not twice.  An array of the fields in order is read as well.
-/

namespace CompactIds

namespace Json

/-- The text needs no escapes. -/
def writeString (text : List Char) : List Char :=
  '"' :: text ++ ['"']

def writeInt (value : Int) : List Char :=
  (toString value).toList

def writeMember (key : String) (value : List Char) : List Char :=
  writeString key.toList ++ ':' :: value

def writeMembers : List (List Char) → List Char
  | [] => []
  | [member] => member
  | member :: members => member ++ ',' :: writeMembers members

def writeObject (members : List (List Char)) : List Char :=
  '\x7b' :: writeMembers members ++ ['\x7d']

end Json

def StableId.write (id : StableId) : List Char :=
  Json.writeString (Hyphenated.write id.bits)

def SpaceId.write {space : Space} (id : SpaceId space) : List Char :=
  Json.writeInt id.value

def Span.write (span : Span) : List Char :=
  Json.writeObject
    [Json.writeMember "firstGenCount" (Json.writeInt span.first),
      Json.writeMember "count" (Json.writeInt span.count)]

/-- A range without ids leaves their key out. -/
def CreationRange.write (range : CreationRange) : List Char :=
  Json.writeObject
    (Json.writeMember "sessionId" range.session.write ::
      match range.ids with
      | some span => [Json.writeMember "ids" span.write]
      | none => [])

def Settings.write (settings : Settings) : List Char :=
  Json.writeObject
    [Json.writeMember "clusterCapacity" (Json.writeInt settings.clusterCapacity)]

def Json.word? (json : Json) : Option Nat :=
  (json.integer? 0 (wordLimit - 1)).map Int.toNat

def StableId.ofJson? (json : Json) : Option StableId := do
  let text ← json.text?
  (StableId.ofText text).toOption

def SpaceId.ofJson? {space : Space} (json : Json) : Option (SpaceId space) := do
  let value ← json.integer? (-(idLimit : Int) - 1) idLimit
  some ⟨value⟩

def Span.ofJson? (json : Json) : Option Span := do
  match ← json.fields? ["firstGenCount", "count"] with
  | [some first, some count] => some ⟨← first.word?, ← count.word?⟩
  | _ => none

/-- Ids that are null count as left out. -/
def Span.ofField? : Option Json → Option (Option Span)
  | none => some none
  | some .null => some none
  | some json => (Span.ofJson? json).map some

def CreationRange.ofJson? (json : Json) : Option CreationRange := do
  match ← json.fields? ["sessionId", "ids"] with
  | [some session, ids] => some ⟨← StableId.ofJson? session, ← Span.ofField? ids⟩
  | _ => none

def Settings.ofJson? (json : Json) : Option Settings := do
  match ← json.fields? ["clusterCapacity"] with
  | [some capacity] => some ⟨← capacity.word?⟩
  | [none] => some ⟨defaultCapacity⟩
  | _ => none

end CompactIds
