/-!
# Hexadecimal digits

Numbers are written in lower case, in a fixed number of digits or in as few as
possible.  Reading takes digits of either case.
-/

namespace CompactIds.Hex

def digit (value : Nat) : Char :=
  if value < 10 then Char.ofNat (48 + value) else Char.ofNat (87 + value)

def value? (c : Char) : Option Nat :=
  if '0' ≤ c ∧ c ≤ '9' then some (c.toNat - 48)
  else if 'a' ≤ c ∧ c ≤ 'f' then some (c.toNat - 87)
  else if 'A' ≤ c ∧ c ≤ 'F' then some (c.toNat - 55)
  else none

/-- The last `width` digits of a number, the most significant one first. -/
def fixed : Nat → Nat → List Char
  | 0, _ => []
  | width + 1, n => fixed width (n / 16) ++ [digit (n % 16)]

def minimal (n : Nat) : List Char :=
  Nat.toDigits 16 n

def ofBytes (bytes : List UInt8) : List Char :=
  bytes.flatMap fun byte => fixed 2 byte.toNat

/-- Appends exactly `width` digits to the number read so far. -/
def extend? : Nat → Nat → List Char → Option (Nat × List Char)
  | 0, acc, cs => some (acc, cs)
  | _ + 1, _, [] => none
  | width + 1, acc, c :: cs => do
      let d ← value? c
      extend? width (16 * acc + d) cs

def number? (cs : List Char) : Option Nat := do
  let (n, _) ← extend? cs.length 0 cs
  if cs.isEmpty then none else some n

def bytes? : List Char → Option (List UInt8)
  | [] => some []
  | [_] => none
  | high :: low :: cs => do
      let h ← value? high
      let l ← value? low
      let rest ← bytes? cs
      some (UInt8.ofNat (16 * h + l) :: rest)

@[simp] theorem length_fixed (width n : Nat) : (fixed width n).length = width := by
  induction width generalizing n with
  | zero => rfl
  | succ width ih => simp [fixed, ih]

end CompactIds.Hex
