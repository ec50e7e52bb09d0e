import CompactIds.Text.Hex

/-!
# Hyphenated text of a 128-bit number

Thirty-two digits in groups of 8, 4, 4, 4 and 12 with a hyphen between them.
-/

namespace CompactIds.Hyphenated

/-- Written in lower case; bits above the lowest 128 are left out. -/
def write (bits : Nat) : List Char :=
  Hex.fixed 8 (bits >>> 96) ++
    '-' :: (Hex.fixed 4 (bits >>> 80) ++
    '-' :: (Hex.fixed 4 (bits >>> 64) ++
    '-' :: (Hex.fixed 4 (bits >>> 48) ++
    '-' :: Hex.fixed 12 bits)))

def hyphen? : List Char → Option (List Char)
  | '-' :: cs => some cs
  | _ => none

/-- Read in either case; nothing may follow the last group. -/
def read? (cs : List Char) : Option Nat := do
  let (bits, cs) ← Hex.extend? 8 0 cs
  let cs ← hyphen? cs
  let (bits, cs) ← Hex.extend? 4 bits cs
  let cs ← hyphen? cs
  let (bits, cs) ← Hex.extend? 4 bits cs
  let cs ← hyphen? cs
  let (bits, cs) ← Hex.extend? 4 bits cs
  let cs ← hyphen? cs
  let (bits, cs) ← Hex.extend? 12 bits cs
  if cs.isEmpty then some bits else none

theorem length_write (bits : Nat) : (write bits).length = 36 := by
  simp [write]

end CompactIds.Hyphenated
