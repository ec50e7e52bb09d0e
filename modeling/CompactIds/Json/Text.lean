import CompactIds.Text.Hex

/-!
# JSON strings and numbers

The two kinds of token that carry data.  Each reader starts behind the
character that gives the kind away and returns what follows the token.
-/

namespace CompactIds.Json

def isBlank (c : Char) : Bool :=
  c = ' ' || c = '\t' || c = '\n' || c = '\r'

def skipBlanks (cs : List Char) : List Char :=
  cs.dropWhile isBlank

def escape? : Char → Option Nat
  | '"' => some 34
  | '\\' => some 92
  | '/' => some 47
  | 'b' => some 8
  | 'f' => some 12
  | 'n' => some 10
  | 'r' => some 13
  | 't' => some 9
  | _ => none

/-- The code points of a string up to its closing quote.  Escapes may give
halves of surrogate pairs; control characters have to be escaped. -/
def codes? : List Char → Option (List Nat × List Char)
  | [] => none
  | '"' :: cs => some ([], cs)
  | '\\' :: 'u' :: a :: b :: c :: d :: cs => do
      let (code, _) ← Hex.extend? 4 0 [a, b, c, d]
      let (codes, rest) ← codes? cs
      some (code :: codes, rest)
  | '\\' :: e :: cs => do
      let code ← escape? e
      let (codes, rest) ← codes? cs
      some (code :: codes, rest)
  | c :: cs =>
      if c.toNat < 32 then none
      else do
        let (codes, rest) ← codes? cs
        some (c.toNat :: codes, rest)

def isHigh (code : Nat) : Bool :=
  0xD800 ≤ code && code < 0xDC00

def isLow (code : Nat) : Bool :=
  0xDC00 ≤ code && code < 0xE000

/-- Joins surrogate pairs; a half that has no partner makes it fail. -/
def join? : List Nat → Option (List Char)
  | [] => some []
  | high :: low :: codes =>
      if isHigh high && isLow low then do
        let cs ← join? codes
        some (Char.ofNat (0x10000 + (high - 0xD800) * 0x400 + (low - 0xDC00)) :: cs)
      else if isHigh high || isLow high then none
      else do
        let cs ← join? (low :: codes)
        some (Char.ofNat high :: cs)
  | [code] => if isHigh code || isLow code then none else some [Char.ofNat code]

def string? (cs : List Char) : Option (Option String × List Char) := do
  let (codes, rest) ← codes? cs
  some ((join? codes).map String.ofList, rest)

def digits (cs : List Char) : List Char × List Char :=
  (cs.takeWhile Char.isDigit, cs.dropWhile Char.isDigit)

def ofDigits (ds : List Char) : Nat :=
  ds.foldl (fun n d => 10 * n + (d.toNat - 48)) 0

def whole? (cs : List Char) : Option (Nat × List Char) :=
  match digits cs with
  | ([], _) => none
  | ('0' :: _ :: _, _) => none
  | (ds, rest) => some (ofDigits ds, rest)

def fraction? : List Char → Option (Bool × List Char)
  | '.' :: cs =>
      match digits cs with
      | ([], _) => none
      | (_, rest) => some (true, rest)
  | cs => some (false, cs)

def skipSign : List Char → List Char
  | '+' :: cs => cs
  | '-' :: cs => cs
  | cs => cs

def exponent? : List Char → Option (Bool × List Char)
  | [] => some (false, [])
  | c :: cs =>
      if c = 'e' || c = 'E' then
        match digits (skipSign cs) with
        | ([], _) => none
        | (_, rest) => some (true, rest)
      else some (false, c :: cs)

def signed? (negative : Bool) (n : Nat) : Option Int :=
  if negative then (if n = 0 then none else some (-(n : Int))) else some n

def number? (cs : List Char) : Option (Option Int × List Char) := do
  let (negative, cs) := match cs with
    | '-' :: cs => (true, cs)
    | cs => (false, cs)
  let (n, cs) ← whole? cs
  let (hasFraction, cs) ← fraction? cs
  let (hasExponent, cs) ← exponent? cs
  some (if hasFraction || hasExponent then none else signed? negative n, cs)

end CompactIds.Json
