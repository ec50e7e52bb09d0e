import CompactIds.Json.Wire
import Mathlib.Tactic.Common

/-!
# Reading what is written

A written value is read back whatever stands behind it, as long as that closes
the value: a comma, a brace, or the end of the text.
-/

namespace CompactIds.Json

variable {c : Char} {cs ds rest text : List Char} {n : Nat}

/-- What may stand behind a written value. -/
def Closes (rest : List Char) : Prop :=
  ∀ c, rest.head? = some c → c = ',' ∨ c = '\x7d'

theorem closes_nil : Closes [] :=
  fun _ h => nomatch h

theorem closes_comma : Closes (',' :: rest) :=
  fun _ h => .inl (Option.some.inj h).symm

theorem closes_brace : Closes ('\x7d' :: rest) :=
  fun _ h => .inr (Option.some.inj h).symm

theorem skipBlanks_cons (h : isBlank c = false) : skipBlanks (c :: cs) = c :: cs := by
  simp [skipBlanks, h]

theorem digits_append (hdigits : ∀ c ∈ ds, c.isDigit = true) (closes : Closes rest) :
    digits (ds ++ rest) = (ds, rest) := by
  have hrest : rest.takeWhile Char.isDigit = [] ∧ rest.dropWhile Char.isDigit = rest := by
    cases rest with
    | nil => exact ⟨rfl, rfl⟩
    | cons c rest => rcases closes c rfl with rfl | rfl <;> exact ⟨rfl, rfl⟩
  rw [digits, List.takeWhile_append_of_pos hdigits, List.dropWhile_append_of_pos hdigits,
    hrest.1, hrest.2, List.append_nil]

theorem exists_head_toDigits (hpos : 0 < n) :
    ∃ c cs, Nat.toDigits 10 n = c :: cs ∧ c ≠ '0' := by
  induction n using Nat.strongRecOn with
  | ind n ih =>
      by_cases hlt : n < 10
      · have hzero : ∀ d < 10, 0 < d → Nat.digitChar d ≠ '0' := by decide
        exact ⟨_, [], Nat.toDigits_of_lt_base hlt, hzero n hlt hpos⟩
      · obtain ⟨c, cs, hcs, hc⟩ := ih (n / 10) (by omega) (by omega)
        rw [Nat.toDigits_of_base_le (by decide) (by omega), hcs]
        exact ⟨c, _, rfl, hc⟩

theorem whole?_toDigits (n : Nat) (closes : Closes rest) :
    whole? (Nat.toDigits 10 n ++ rest) = some (n, rest) := by
  have hdigits : ∀ c ∈ Nat.toDigits 10 n, c.isDigit = true := fun c =>
    Nat.isDigit_of_mem_toDigits (by decide) (by decide)
  have hvalue : ofDigits (Nat.toDigits 10 n) = n :=
    Nat.ofDigitChars_toDigits (by decide) (by decide)
  rw [whole?, digits_append hdigits closes]
  rcases Nat.eq_zero_or_pos n with rfl | hpos
  · rfl
  · obtain ⟨c, cs, hcs, hc⟩ := exists_head_toDigits hpos
    rw [hcs] at hvalue ⊢
    split
    · simp_all
    · simp_all
    · simp_all

theorem fraction?_of_closes (closes : Closes rest) : fraction? rest = some (false, rest) := by
  cases rest with
  | nil => rfl
  | cons c rest => rcases closes c rfl with rfl | rfl <;> rfl

theorem exponent?_of_closes (closes : Closes rest) : exponent? rest = some (false, rest) := by
  cases rest with
  | nil => rfl
  | cons c rest => rcases closes c rfl with rfl | rfl <;> rfl

theorem writeInt_natCast (n : Nat) : writeInt n = Nat.toDigits 10 n :=
  Nat.toList_repr

theorem writeInt_negSucc (n : Nat) : writeInt (.negSucc n) = '-' :: Nat.toDigits 10 (n + 1) := by
  change ("-" ++ (n + 1).repr).toList = _
  rw [String.toList_append, Nat.toList_repr]
  rfl

theorem exists_head_writeInt (value : Int) :
    ∃ c cs, writeInt value = c :: cs ∧ (c.isDigit = true ∨ c = '-') := by
  cases value with
  | negSucc n => exact ⟨_, _, writeInt_negSucc n, .inr rfl⟩
  | ofNat n =>
      rw [Int.ofNat_eq_natCast, writeInt_natCast]
      cases hdigits : Nat.toDigits 10 n with
      | nil => exact absurd hdigits Nat.toDigits_ne_nil
      | cons c cs =>
          refine ⟨c, cs, rfl, .inl ?_⟩
          apply Nat.isDigit_of_mem_toDigits (b := 10) (n := n) (by decide) (by decide)
          simp [hdigits]

theorem number?_writeInt (value : Int) (closes : Closes rest) :
    number? (writeInt value ++ rest) = some (some value, rest) := by
  have hfraction := fraction?_of_closes closes
  have hexponent := exponent?_of_closes closes
  cases value with
  | ofNat n =>
      have hwhole := whole?_toDigits n closes
      obtain ⟨c, cs, hcs, hc⟩ := exists_head_writeInt (n : Int)
      rw [Int.ofNat_eq_natCast, writeInt_natCast] at *
      have hsign : c ≠ '-' := by
        rintro rfl
        have hdigit : Char.isDigit '-' = true :=
          Nat.isDigit_of_mem_toDigits (b := 10) (n := n) (by decide) (by decide) (by simp [hcs])
        exact absurd hdigit (by decide)
      rw [hcs, List.cons_append] at hwhole ⊢
      simp [number?, hsign, hwhole, hfraction, hexponent, signed?]
  | negSucc n =>
      have hwhole := whole?_toDigits (n + 1) closes
      rw [writeInt_negSucc]
      simp [number?, hwhole, hfraction, hexponent, signed?, Int.negSucc_eq]

structure Plain (c : Char) : Prop where
  printable : 32 ≤ c.toNat
  ascii : c.toNat < 128
  notQuote : c ≠ '"'
  notBackslash : c ≠ '\\'

instance : DecidablePred Plain := fun c =>
  decidable_of_iff (32 ≤ c.toNat ∧ c.toNat < 128 ∧ c ≠ '"' ∧ c ≠ '\\')
    ⟨fun h => ⟨h.1, h.2.1, h.2.2.1, h.2.2.2⟩, fun h => ⟨h.1, h.2, h.3, h.4⟩⟩

def IsPlain (text : List Char) : Prop :=
  ∀ c ∈ text, Plain c

instance : DecidablePred IsPlain := fun text =>
  List.decidableBAll Plain text

theorem isPlain_cons : IsPlain (c :: text) ↔ Plain c ∧ IsPlain text :=
  List.forall_mem_cons

theorem isPlain_append : IsPlain (cs ++ text) ↔ IsPlain cs ∧ IsPlain text :=
  List.forall_mem_append

theorem codes?_append (plain : IsPlain text) :
    codes? (text ++ '"' :: rest) = some (text.map Char.toNat, rest) := by
  induction text with
  | nil => simp [codes?]
  | cons c text ih =>
      rw [isPlain_cons] at plain
      obtain ⟨⟨hprintable, -, hquote, hbackslash⟩, plain⟩ := plain
      have hcontrol : ¬ c.toNat < 32 := by omega
      simp [codes?, hbackslash, hcontrol, ih plain]

theorem join?_plain (plain : IsPlain text) :
    join? (text.map Char.toNat) = some text := by
  induction text with
  | nil => rfl
  | cons c text ih =>
      rw [isPlain_cons] at plain
      obtain ⟨⟨-, hascii, -, -⟩, plain⟩ := plain
      have hhigh : isHigh c.toNat = false := by
        simp only [isHigh, Bool.and_eq_false_iff, decide_eq_false_iff_not]
        omega
      have hlow : isLow c.toNat = false := by
        simp only [isLow, Bool.and_eq_false_iff, decide_eq_false_iff_not]
        omega
      have hrest := ih plain
      cases text with
      | nil => simp [join?, hhigh, hlow]
      | cons d text =>
          rw [List.map_cons] at hrest
          simp [join?, hhigh, hlow, hrest]

theorem string?_append (plain : IsPlain text) :
    string? (text ++ '"' :: rest) = some (some (String.ofList text), rest) := by
  simp [string?, codes?_append plain, join?_plain plain]

/-- The text is read as the value, given more fuel than it has characters. -/
def Spells (text : List Char) (value : Json) : Prop :=
  ∀ fuel rest, text.length < fuel → Closes rest → value? fuel (text ++ rest) = some (value, rest)

theorem spells_writeString (plain : IsPlain text) :
    Spells (writeString text) (.string (some (String.ofList text))) := by
  intro fuel rest hfuel _
  cases fuel with
  | zero => cases hfuel
  | succ fuel =>
      simp [value?, writeString, skipBlanks_cons, isBlank, string?_append plain]

theorem not_mem_starts (hc : c.isDigit = true ∨ c = '-') :
    c ∉ [' ', '\t', '\n', '\r', 'n', 't', 'f', '"', '[', '\x7b'] := by
  have hstarts : [' ', '\t', '\n', '\r', 'n', 't', 'f', '"', '[', '\x7b'].all
      (fun d => !(d.isDigit || d == '-')) = true := by decide
  intro hmem
  have hnot := List.all_eq_true.1 hstarts c hmem
  rcases hc with hc | hc <;> simp [hc] at hnot

theorem spells_writeInt (value : Int) : Spells (writeInt value) (.number (some value)) := by
  intro fuel rest hfuel closes
  obtain ⟨c, cs, hcs, hc⟩ := exists_head_writeInt value
  have hnumber := number?_writeInt value closes
  have hstart := not_mem_starts hc
  simp only [List.mem_cons, List.not_mem_nil, or_false, not_or] at hstart
  cases fuel with
  | zero => cases hfuel
  | succ fuel =>
      rw [hcs, List.cons_append] at hnumber ⊢
      have hblank : isBlank c = false := by simp [isBlank, hstart]
      simp [value?, skipBlanks_cons hblank, hstart, hnumber]

structure Member where
  key : String
  text : List Char
  value : Json
  plain : IsPlain key.toList
  spells : Spells text value

namespace Member

def write (member : Member) : List Char :=
  writeMember member.key member.text

def read (member : Member) : Option String × Json :=
  (some member.key, member.value)

end Member

theorem Member.length_text_lt (member : Member) : member.text.length < member.write.length := by
  simp only [Member.write, writeMember, writeString, List.length_append, List.length_cons]
  omega

section Read

variable {fuel : Nat} (member : Member)

theorem pairs?_last (hfuel : member.text.length < fuel) :
    pairs? (fuel + 1) (member.write ++ '\x7d' :: rest) = some ([member.read], rest) := by
  have hvalue := member.spells fuel ('\x7d' :: rest) hfuel closes_brace
  simp [Member.write, writeMember, writeString, pairs?, skipBlanks_cons,
    string?_append member.plain, hvalue, isBlank, Member.read]

theorem pairs?_comma {pairs : List (Option String × Json)} {tail : List Char}
    (hfuel : member.text.length < fuel) (hpairs : pairs? fuel rest = some (pairs, tail)) :
    pairs? (fuel + 1) (member.write ++ ',' :: rest) = some (member.read :: pairs, tail) := by
  have hvalue := member.spells fuel (',' :: rest) hfuel closes_comma
  simp [Member.write, writeMember, writeString, pairs?, skipBlanks_cons,
    string?_append member.plain, hvalue, hpairs, isBlank, Member.read]

theorem writeMembers_cons_cons (first second : List Char) (others : List (List Char)) :
    writeMembers (first :: second :: others) = first ++ ',' :: writeMembers (second :: others) :=
  rfl

variable (members : List Member)

theorem pairs?_writeMembers
    (hfuel : (writeMembers ((member :: members).map Member.write)).length < fuel) :
    pairs? fuel (writeMembers ((member :: members).map Member.write) ++ '\x7d' :: rest) =
      some ((member :: members).map Member.read, rest) := by
  induction members generalizing member fuel with
  | nil =>
      have hlength := member.length_text_lt
      change member.write.length < fuel at hfuel
      obtain ⟨fuel, rfl⟩ : ∃ less, fuel = less + 1 := ⟨fuel - 1, by omega⟩
      exact pairs?_last member (by omega)
  | cons next members ih =>
      have hlength := member.length_text_lt
      rw [List.map_cons, List.map_cons, writeMembers_cons_cons] at hfuel ⊢
      rw [List.length_append, List.length_cons] at hfuel
      obtain ⟨fuel, rfl⟩ : ∃ less, fuel = less + 1 := ⟨fuel - 1, by omega⟩
      rw [List.append_assoc, List.cons_append]
      exact pairs?_comma member (by omega) (ih next (by rw [List.map_cons]; omega))

theorem exists_writeMembers :
    ∃ cs, writeMembers ((member :: members).map Member.write) = '"' :: cs := by
  cases members with
  | nil => exact ⟨_, rfl⟩
  | cons next members => exact ⟨_, rfl⟩

theorem spells_writeObject :
    Spells (writeObject ((member :: members).map Member.write))
      (.object ((member :: members).map Member.read)) := by
  intro fuel rest hfuel _
  obtain ⟨cs, hcs⟩ := exists_writeMembers member members
  rw [writeObject, List.length_append, List.length_cons, List.length_singleton] at hfuel
  obtain ⟨fuel, rfl⟩ : ∃ less, fuel = less + 1 := ⟨fuel - 1, by omega⟩
  have hpairs : pairs? fuel (_ ++ '\x7d' :: rest) = _ :=
    pairs?_writeMembers member members (by omega)
  rw [hcs, List.cons_append] at hpairs
  simp only [writeObject, hcs, List.cons_append, List.append_assoc, List.nil_append]
  simp [value?, skipBlanks_cons, isBlank, hpairs]

end Read

theorem ofText?_of_spells {value : Json} (spells : Spells cs value) :
    ofText? (String.ofList cs) = some value := by
  have hvalue := spells (2 * cs.length + 1) [] (by omega) closes_nil
  rw [List.append_nil] at hvalue
  rw [ofText?, String.toList_ofList]
  simp only [hvalue]
  rfl

end CompactIds.Json
