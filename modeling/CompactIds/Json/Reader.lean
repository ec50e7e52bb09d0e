import CompactIds.Json.Basic
import CompactIds.Json.Text

/-!
# Reading JSON

The strict grammar: blanks between tokens, no comments, no trailing commas,
and nothing but blanks around the value.
-/

namespace CompactIds.Json

mutual

/-- Each call passes on less fuel than it got. -/
def value? : Nat → List Char → Option (Json × List Char)
  | 0, _ => none
  | fuel + 1, cs =>
      match skipBlanks cs with
      | 'n' :: 'u' :: 'l' :: 'l' :: rest => some (.null, rest)
      | 't' :: 'r' :: 'u' :: 'e' :: rest => some (.bool true, rest)
      | 'f' :: 'a' :: 'l' :: 's' :: 'e' :: rest => some (.bool false, rest)
      | '"' :: rest => do
          let (text, rest) ← string? rest
          some (.string text, rest)
      | '[' :: rest =>
          match skipBlanks rest with
          | ']' :: rest => some (.array [], rest)
          | rest => do
              let (items, rest) ← items? fuel rest
              some (.array items, rest)
      | '\x7b' :: rest =>
          match skipBlanks rest with
          | '\x7d' :: rest => some (.object [], rest)
          | rest => do
              let (members, rest) ← pairs? fuel rest
              some (.object members, rest)
      | rest => do
          let (value, rest) ← number? rest
          some (.number value, rest)

def items? : Nat → List Char → Option (List Json × List Char)
  | 0, _ => none
  | fuel + 1, cs => do
      let (item, rest) ← value? fuel cs
      match skipBlanks rest with
      | ']' :: rest => some ([item], rest)
      | ',' :: rest => do
          let (items, rest) ← items? fuel rest
          some (item :: items, rest)
      | _ => none

def pairs? : Nat → List Char → Option (List (Option String × Json) × List Char)
  | 0, _ => none
  | fuel + 1, cs =>
      match skipBlanks cs with
      | '"' :: rest => do
          let (key, rest) ← string? rest
          match skipBlanks rest with
          | ':' :: rest => do
              let (item, rest) ← value? fuel rest
              match skipBlanks rest with
              | '\x7d' :: rest => some ([(key, item)], rest)
              | ',' :: rest => do
                  let (members, rest) ← pairs? fuel rest
                  some ((key, item) :: members, rest)
              | _ => none
          | _ => none
      | _ => none

end

/-- The value of a whole text.  A call that gets no shorter text than its
caller follows one that did, so twice the length is fuel enough. -/
def ofText? (text : String) : Option Json := do
  let cs := text.toList
  let (value, rest) ← value? (2 * cs.length + 1) cs
  if (skipBlanks rest).isEmpty then some value else none

end CompactIds.Json
