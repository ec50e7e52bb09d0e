import CompactIds.Text.Hyphenated
import Mathlib.Algebra.Group.Nat.Defs
import Mathlib.Data.List.Induction

/-!
# Hexadecimal text

Reading takes digits of either case and writing gives them back in lower case.
The hyphenated form is five groups of digits that are read as one number.
-/

namespace CompactIds

namespace Hex

variable {c : Char} {cs ds es rest : List Char} {width acc n d : Nat}

def IsDigit (c : Char) : Prop :=
  (value? c).isSome = true

instance : DecidablePred IsDigit := fun c => inferInstanceAs (Decidable ((value? c).isSome = true))

/-- The number that some digits make behind those of `acc`. -/
def ofDigits (acc : Nat) (ds : List Char) : Nat :=
  ds.foldl (fun n c => 16 * n + (value? c).getD 0) acc

theorem forall_of_codes {bound : Nat} (P : Char → Prop)
    (h : ∀ code < bound, P (Char.ofNat code)) (hc : c.toNat < bound) : P c := by
  have hP := h c.toNat hc
  rwa [Char.ofNat_toNat] at hP

theorem toNat_lt_of_value? (h : value? c = some d) : c.toNat < 128 := by
  have hnine : '9'.toNat = 57 := rfl
  have hf : 'f'.toNat = 102 := rfl
  have hF : 'F'.toNat = 70 := rfl
  simp only [value?, Char.le_def, UInt32.le_iff_toNat_le] at h
  simp only [Char.toNat] at *
  split at h
  · omega
  · split at h
    · omega
    · split at h
      · omega
      · cases h

theorem value?_spec (h : value? c = some d) : d < 16 ∧ digit d = c.toLower := by
  have hall : (value? c).all (fun d => d < 16 && digit d == c.toLower) = true :=
    forall_of_codes (fun c => (value? c).all (fun d => d < 16 && digit d == c.toLower) = true)
      (by decide +kernel) (toNat_lt_of_value? h)
  simpa [h] using hall

theorem value?_digit : ∀ d < 16, value? (digit d) = some d := by
  decide +kernel

theorem IsDigit.exists_value (h : IsDigit c) : ∃ d, value? c = some d ∧ d < 16 := by
  obtain ⟨d, hd⟩ := Option.isSome_iff_exists.1 h
  exact ⟨d, hd, (value?_spec hd).1⟩

theorem ofDigits_append : ofDigits acc (ds ++ es) = ofDigits (ofDigits acc ds) es :=
  List.foldl_append

theorem ofDigits_cons (hd : value? c = some d) :
    ofDigits acc (c :: ds) = ofDigits (16 * acc + d) ds := by
  simp [ofDigits, hd]

theorem ofDigits_div (hdigits : ∀ c ∈ ds, IsDigit c) :
    ofDigits acc ds / 16 ^ ds.length = acc := by
  induction ds generalizing acc with
  | nil => simp [ofDigits]
  | cons c ds ih =>
      obtain ⟨hdigit, hdigits⟩ := List.forall_mem_cons.1 hdigits
      obtain ⟨d, hd, hlt⟩ := hdigit.exists_value
      rw [ofDigits_cons hd, List.length_cons, Nat.pow_succ, ← Nat.div_div_eq_div_mul, ih hdigits]
      omega

theorem fixed_ofDigits (hdigits : ∀ c ∈ ds, IsDigit c) :
    fixed ds.length (ofDigits acc ds) = ds.map Char.toLower := by
  induction ds using List.reverseRecOn with
  | nil => rfl
  | append_singleton ds c ih =>
      rw [List.forall_mem_append] at hdigits
      obtain ⟨d, hd, hlt⟩ := (hdigits.2 c (by simp)).exists_value
      have hvalue : ofDigits acc (ds ++ [c]) = 16 * ofDigits acc ds + d := by
        simp [ofDigits, hd]
      have hdiv : (16 * ofDigits acc ds + d) / 16 = ofDigits acc ds := by omega
      have hmod : (16 * ofDigits acc ds + d) % 16 = d := by omega
      rw [hvalue, List.length_append, List.length_singleton, fixed, hdiv, hmod,
        (value?_spec hd).2, ih hdigits.1, List.map_append, List.map_singleton]

theorem isDigit_of_mem_fixed (h : c ∈ fixed width n) : IsDigit c := by
  induction width generalizing n with
  | zero => simp [fixed] at h
  | succ width ih =>
      rw [fixed, List.mem_append, List.mem_singleton] at h
      rcases h with h | rfl
      · exact ih h
      · rw [IsDigit, value?_digit _ (Nat.mod_lt _ (by decide))]
        rfl

theorem ofDigits_fixed : ofDigits acc (fixed width n) = acc * 16 ^ width + n % 16 ^ width := by
  induction width generalizing n with
  | zero => simp [fixed, ofDigits, Nat.mod_one]
  | succ width ih =>
      have hlast : value? (digit (n % 16)) = some (n % 16) :=
        value?_digit _ (Nat.mod_lt _ (by decide))
      have hmod : n % 16 ^ (width + 1) = 16 * (n / 16 % 16 ^ width) + n % 16 := by
        rw [Nat.pow_succ', Nat.mod_mul, Nat.add_comm]
      rw [fixed, ofDigits_append, ih, hmod, Nat.pow_succ, ofDigits_cons hlast]
      change 16 * (acc * 16 ^ width + n / 16 % 16 ^ width) + n % 16 = _
      rw [Nat.mul_add, Nat.mul_left_comm, Nat.mul_comm 16 (16 ^ width), Nat.add_assoc]

structure Group (width : Nat) where
  digits : List Char
  length_eq : digits.length = width
  isDigit : ∀ c ∈ digits, IsDigit c

namespace Group

def value (group : Group width) (acc : Nat) : Nat :=
  ofDigits acc group.digits

theorem value_div (group : Group width) (acc : Nat) : group.value acc / 16 ^ width = acc := by
  have h : ofDigits acc group.digits / 16 ^ group.digits.length = acc :=
    ofDigits_div group.isDigit
  rwa [group.length_eq] at h

theorem fixed_value (group : Group width) (acc : Nat) :
    fixed width (group.value acc) = group.digits.map Char.toLower := by
  have h : fixed group.digits.length (ofDigits acc group.digits) = _ :=
    fixed_ofDigits group.isDigit
  rwa [group.length_eq] at h

def ofFixed (width n : Nat) : Group width :=
  ⟨fixed width n, length_fixed width n, fun _ => isDigit_of_mem_fixed⟩

theorem value_ofFixed (acc : Nat) :
    (ofFixed width n).value acc = acc * 16 ^ width + n % 16 ^ width :=
  ofDigits_fixed

theorem exists_head (group : Group (width + 1)) (acc : Nat) :
    ∃ c d, group.digits[0]? = some c ∧ value? c = some d ∧
      group.value acc / 16 ^ width = 16 * acc + d := by
  obtain ⟨digits, hlength, hdigits⟩ := group
  cases digits with
  | nil => cases hlength
  | cons c cs =>
      obtain ⟨hdigit, hdigits⟩ := List.forall_mem_cons.1 hdigits
      obtain ⟨d, hd, -⟩ := hdigit.exists_value
      have hdiv : ofDigits (16 * acc + d) cs / 16 ^ cs.length = 16 * acc + d :=
        ofDigits_div hdigits
      rw [Nat.succ.inj hlength] at hdiv
      exact ⟨c, d, rfl, hd, by rw [value, ofDigits_cons hd, hdiv]⟩

end Group

theorem extend?_eq_some_iff :
    extend? width acc cs = some (n, rest) ↔
      ∃ group : Group width, cs = group.digits ++ rest ∧ n = group.value acc := by
  induction width generalizing acc cs with
  | zero =>
      simp only [extend?, Option.some.injEq, Prod.mk.injEq]
      constructor
      · rintro ⟨rfl, rfl⟩
        exact ⟨⟨[], rfl, by simp⟩, rfl, rfl⟩
      · rintro ⟨⟨digits, hlength, -⟩, rfl, rfl⟩
        rw [List.length_eq_zero_iff] at hlength
        subst hlength
        exact ⟨rfl, rfl⟩
  | succ width ih =>
      cases cs with
      | nil =>
          simp only [extend?, reduceCtorEq, false_iff]
          rintro ⟨group, hnil, -⟩
          have hlength := group.length_eq
          rw [(List.append_eq_nil_iff.1 hnil.symm).1] at hlength
          cases hlength
      | cons c cs =>
          simp only [extend?, Option.bind_eq_bind, Option.bind_eq_some_iff, ih]
          constructor
          · rintro ⟨d, hd, ⟨digits, hlength, hdigits⟩, rfl, rfl⟩
            refine ⟨⟨c :: digits, congrArg Nat.succ hlength, ?_⟩, rfl, (ofDigits_cons hd).symm⟩
            simpa [IsDigit, hd] using hdigits
          · rintro ⟨⟨digits, hlength, hdigits⟩, happend, rfl⟩
            cases digits with
            | nil => cases hlength
            | cons c' digits =>
                obtain ⟨rfl, rfl⟩ := List.cons.inj happend
                obtain ⟨hdigit, hdigits⟩ := List.forall_mem_cons.1 hdigits
                obtain ⟨d, hd, -⟩ := hdigit.exists_value
                exact ⟨d, hd, ⟨digits, Nat.succ.inj hlength, hdigits⟩, rfl, ofDigits_cons hd⟩

end Hex

namespace Hyphenated

variable {cs rest : List Char} {n : Nat}

theorem hyphen?_eq_some_iff : hyphen? cs = some rest ↔ cs = '-' :: rest := by
  unfold hyphen?
  split <;> simp_all

/-- The digits of a number of 128 bits, in the groups in which they are written. -/
structure Groups where
  first : Hex.Group 8
  second : Hex.Group 4
  third : Hex.Group 4
  fourth : Hex.Group 4
  fifth : Hex.Group 12

namespace Groups

def text (groups : Groups) : List Char :=
  groups.first.digits ++
    '-' :: (groups.second.digits ++
    '-' :: (groups.third.digits ++
    '-' :: (groups.fourth.digits ++
    '-' :: groups.fifth.digits)))

/-! The numbers of the first 8, 12, 16, 20 digits and of all. -/

def value8 (groups : Groups) : Nat :=
  groups.first.value 0

def value12 (groups : Groups) : Nat :=
  groups.second.value groups.value8

def value16 (groups : Groups) : Nat :=
  groups.third.value groups.value12

def value20 (groups : Groups) : Nat :=
  groups.fourth.value groups.value16

def bits (groups : Groups) : Nat :=
  groups.fifth.value groups.value20

end Groups

theorem read?_eq_some_iff :
    read? cs = some n ↔ ∃ groups : Groups, cs = groups.text ∧ n = groups.bits := by
  simp only [read?, Option.bind_eq_bind, Option.bind_eq_some_iff, Prod.exists,
    Hex.extend?_eq_some_iff, hyphen?_eq_some_iff, Option.ite_none_right_eq_some,
    List.isEmpty_iff, Option.some.injEq]
  constructor
  · rintro ⟨_, _, ⟨a, rfl, rfl⟩, _, rfl, _, _, ⟨b, rfl, rfl⟩, _, rfl, _, _, ⟨c, rfl, rfl⟩, _, rfl,
      _, _, ⟨d, rfl, rfl⟩, _, rfl, _, _, ⟨e, rfl, rfl⟩, rfl, rfl⟩
    exact ⟨⟨a, b, c, d, e⟩, by simp [Groups.text], rfl⟩
  · rintro ⟨⟨a, b, c, d, e⟩, rfl, rfl⟩
    exact ⟨_, _, ⟨a, rfl, rfl⟩, _, rfl, _, _, ⟨b, rfl, rfl⟩, _, rfl, _, _, ⟨c, rfl, rfl⟩, _, rfl,
      _, _, ⟨d, rfl, rfl⟩, _, rfl, _, _, ⟨e, (List.append_nil _).symm, rfl⟩, rfl, rfl⟩

namespace Groups

variable (groups : Groups)

theorem bits_shift_48 : groups.bits >>> 48 = groups.value20 := by
  rw [Nat.shiftRight_eq_div_pow]
  exact groups.fifth.value_div groups.value20

theorem bits_shift_64 : groups.bits >>> 64 = groups.value16 := by
  rw [Nat.shiftRight_add groups.bits 48 16, bits_shift_48, Nat.shiftRight_eq_div_pow]
  exact groups.fourth.value_div groups.value16

theorem bits_shift_80 : groups.bits >>> 80 = groups.value12 := by
  rw [Nat.shiftRight_add groups.bits 64 16, bits_shift_64, Nat.shiftRight_eq_div_pow]
  exact groups.third.value_div groups.value12

theorem bits_shift_96 : groups.bits >>> 96 = groups.value8 := by
  rw [Nat.shiftRight_add groups.bits 80 16, bits_shift_80, Nat.shiftRight_eq_div_pow]
  exact groups.second.value_div groups.value8

theorem bits_lt : groups.bits < 1 <<< 128 := by
  have hshift := groups.bits_shift_96
  have hfirst : groups.value8 / 16 ^ 8 = 0 := groups.first.value_div 0
  omega

theorem write_bits : write groups.bits = groups.text.map Char.toLower := by
  have hfifth : Hex.fixed 12 groups.bits = _ := groups.fifth.fixed_value groups.value20
  have hfourth : Hex.fixed 4 groups.value20 = _ := groups.fourth.fixed_value groups.value16
  have hthird : Hex.fixed 4 groups.value16 = _ := groups.third.fixed_value groups.value12
  have hsecond : Hex.fixed 4 groups.value12 = _ := groups.second.fixed_value groups.value8
  have hfirst : Hex.fixed 8 groups.value8 = _ := groups.first.fixed_value 0
  have hhyphen : Char.toLower '-' = '-' := by decide
  simp only [write, bits_shift_48, bits_shift_64, bits_shift_80, bits_shift_96, hfirst, hsecond,
    hthird, hfourth, hfifth, text, List.map_append, List.map_cons, hhyphen]

end Groups

theorem read?_write (h : n < 1 <<< 128) : read? (write n) = some n := by
  refine read?_eq_some_iff.2 ⟨⟨.ofFixed 8 (n >>> 96), .ofFixed 4 (n >>> 80),
    .ofFixed 4 (n >>> 64), .ofFixed 4 (n >>> 48), .ofFixed 12 n⟩, rfl, ?_⟩
  simp only [Groups.bits, Groups.value20, Groups.value16, Groups.value12, Groups.value8,
    Hex.Group.value_ofFixed]
  omega

end Hyphenated

end CompactIds
