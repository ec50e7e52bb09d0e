import CompactIds.Proofs.Digits
import CompactIds.Fault

/-!
# The text of stable ids

A text is judged byte by byte: first its shape, then the digits that name
version and variant.
-/

namespace CompactIds

def bytesOf (text : String) : List UInt8 :=
  text.toUTF8.data.toList

theorem bytesOf_eq (text : String) :
    bytesOf text = text.toList.flatMap String.utf8EncodeChar := by
  rw [bytesOf, String.toUTF8_eq_toByteArray, ← String.utf8Encode_toList, List.utf8Encode,
    List.toList_data_toByteArray]

theorem length_bytesOf (text : String) : (bytesOf text).length = text.utf8ByteSize := by
  rw [bytesOf, Array.length_toList]
  rfl

theorem exists_byte_of_le {c : Char} (h : 128 ≤ c.toNat) :
    ∃ b ∈ String.utf8EncodeChar c, 128 ≤ b.toNat := by
  have hlast : 128 ≤ (UInt8.ofNat (c.toNat % 64 + 128)).toNat := by
    rw [UInt8.toNat_ofNat']
    omega
  refine ⟨_, ?_, hlast⟩
  simp only [String.utf8EncodeChar, Char.toNat] at *
  split
  · omega
  · split
    · simp
    · split <;> simp

variable {text : String} {c : Char}

theorem lt_of_bytesOf (h : ∀ b ∈ bytesOf text, b.toNat < 128) (hc : c ∈ text.toList) :
    c.toNat < 128 := by
  rw [bytesOf_eq] at h
  apply Nat.lt_of_not_le
  intro hle
  obtain ⟨b, hb, hlarge⟩ := exists_byte_of_le hle
  have := h b (List.mem_flatMap.2 ⟨c, hc, hb⟩)
  omega

theorem bytesOf_of_lt (h : ∀ c ∈ text.toList, c.toNat < 128) :
    bytesOf text = text.toList.map Char.toUInt8 := by
  have hone : ∀ c ∈ text.toList, String.utf8EncodeChar c = [c.toUInt8] := by
    intro c hc
    apply String.utf8EncodeChar_eq_singleton
    rw [Char.utf8Size_eq_one_iff, UInt32.le_iff_toNat_le]
    exact Nat.le_of_lt_succ (h c hc)
  rw [bytesOf_eq, List.flatMap_def, List.map_congr_left hone, ← List.flatMap_def,
    ← List.map_eq_flatMap]

def hyphenPlaces : List Nat :=
  [8, 13, 18, 23]

def digitBytes : List UInt8 :=
  "0123456789ABCDEFabcdef".toList.map Char.toUInt8

/-- 36 bytes with hyphens in their places and digits in all others. -/
structure HasShape (text : String) : Prop where
  size : text.utf8ByteSize = 36
  places : ∀ i b, (bytesOf text)[i]? = some b →
    if i ∈ hyphenPlaces then b = '-'.toUInt8 else b ∈ digitBytes

structure HasMarks (text : String) : Prop where
  version : (bytesOf text)[14]? = some '4'.toUInt8
  variant : ∃ c ∈ ['8', '9', 'a', 'b', 'A', 'B'], (bytesOf text)[19]? = some c.toUInt8

/-! ## Characters in their places -/

def FitsAt (i : Nat) (c : Char) : Prop :=
  if i ∈ hyphenPlaces then c = '-' else Hex.IsDigit c

theorem fitsAt_byte_iff {i : Nat} (hc : c.toNat < 128) :
    (if i ∈ hyphenPlaces then c.toUInt8 = '-'.toUInt8 else c.toUInt8 ∈ digitBytes) ↔
      FitsAt i c := by
  have hhyphen : c.toUInt8 = '-'.toUInt8 ↔ c = '-' :=
    Hex.forall_of_codes (fun c => c.toUInt8 = '-'.toUInt8 ↔ c = '-') (by decide +kernel) hc
  have hdigit : c.toUInt8 ∈ digitBytes ↔ Hex.IsDigit c :=
    Hex.forall_of_codes (fun c => c.toUInt8 ∈ digitBytes ↔ Hex.IsDigit c) (by decide +kernel) hc
  unfold FitsAt
  split
  · exact hhyphen
  · exact hdigit

variable {start : Nat} {cs rest : List Char}

def FitFrom (start : Nat) (cs : List Char) : Prop :=
  ∀ i c, cs[i]? = some c → FitsAt (start + i) c

theorem fitFrom_append_cons :
    FitFrom start (cs ++ c :: rest) ↔
      FitFrom start cs ∧ FitsAt (start + cs.length) c ∧
        FitFrom (start + (cs.length + 1)) rest := by
  have hnext : ∀ i, (cs ++ c :: rest)[cs.length + 1 + i]? = rest[i]? := by
    intro i
    rw [List.getElem?_append_right (by omega), Nat.add_assoc, Nat.add_sub_cancel_left,
      Nat.add_comm 1, List.getElem?_cons_succ]
  constructor
  · intro h
    refine ⟨fun i x hx => ?_, h cs.length c (by simp), fun i x hx => ?_⟩
    · have hlt := (List.getElem?_eq_some_iff.1 hx).1
      exact h i x (by rwa [List.getElem?_append_left hlt])
    · rw [Nat.add_assoc]
      exact h (cs.length + 1 + i) x (by rw [hnext, hx])
  · rintro ⟨hcs, hc, hrest⟩ i x hx
    rcases Nat.lt_trichotomy i cs.length with hlt | rfl | hgt
    · exact hcs i x (by rwa [List.getElem?_append_left hlt] at hx)
    · have hcx : c = x := by simpa using hx
      exact hcx ▸ hc
    · obtain ⟨j, rfl⟩ : ∃ j, i = cs.length + 1 + j := ⟨i - (cs.length + 1), by omega⟩
      rw [← Nat.add_assoc]
      exact hrest j x (by rw [← hx, hnext])

theorem fitFrom_iff_isDigit (hclear : ∀ i < cs.length, start + i ∉ hyphenPlaces) :
    FitFrom start cs ↔ ∀ c ∈ cs, Hex.IsDigit c := by
  constructor
  · intro h c hc
    obtain ⟨i, hi⟩ := List.mem_iff_getElem?.1 hc
    have hfits := h i c hi
    rwa [FitsAt, if_neg (hclear i (List.getElem?_eq_some_iff.1 hi).1)] at hfits
  · intro h i c hi
    rw [FitsAt, if_neg (hclear i (List.getElem?_eq_some_iff.1 hi).1)]
    exact h c (List.mem_of_getElem? hi)

theorem fitFrom_group (hplace : start + cs.length ∈ hyphenPlaces)
    (hclear : ∀ i < cs.length, start + i ∉ hyphenPlaces) :
    FitFrom start (cs ++ c :: rest) ↔
      (∀ x ∈ cs, Hex.IsDigit x) ∧ c = '-' ∧ FitFrom (start + (cs.length + 1)) rest := by
  rw [fitFrom_append_cons, fitFrom_iff_isDigit hclear, FitsAt, if_pos hplace]

theorem exists_split {n : Nat} (h : n < cs.length) :
    ∃ front c rest, cs = front ++ c :: rest ∧ front.length = n :=
  ⟨cs.take n, cs[n], cs.drop (n + 1), by simp, by simp; omega⟩

theorem fitFrom_zero_iff {a b d e f : List Char} {x y z w : Char}
    (ha : a.length = 8) (hb : b.length = 4) (hd : d.length = 4) (he : e.length = 4)
    (hf : f.length = 12) :
    FitFrom 0 (a ++ x :: (b ++ y :: (d ++ z :: (e ++ w :: f)))) ↔
      ((∀ c ∈ a, Hex.IsDigit c) ∧ x = '-') ∧ ((∀ c ∈ b, Hex.IsDigit c) ∧ y = '-') ∧
        ((∀ c ∈ d, Hex.IsDigit c) ∧ z = '-') ∧ ((∀ c ∈ e, Hex.IsDigit c) ∧ w = '-') ∧
          ∀ c ∈ f, Hex.IsDigit c := by
  rw [fitFrom_group (by rw [ha]; decide) (by rw [ha]; decide),
    fitFrom_group (by rw [ha, hb]; decide) (by rw [ha, hb]; decide),
    fitFrom_group (by rw [ha, hb, hd]; decide) (by rw [ha, hb, hd]; decide),
    fitFrom_group (by rw [ha, hb, hd, he]; decide) (by rw [ha, hb, hd, he]; decide),
    fitFrom_iff_isDigit (by rw [ha, hb, hd, he, hf]; decide)]
  simp only [and_assoc]

theorem exists_groups_iff :
    cs.length = 36 ∧ FitFrom 0 cs ↔ ∃ groups : Hyphenated.Groups, cs = groups.text := by
  constructor
  · rintro ⟨hlength, hfits⟩
    obtain ⟨a, x, rest, rfl, ha⟩ := exists_split (n := 8) (show 8 < cs.length by omega)
    rw [List.length_append, List.length_cons] at hlength
    obtain ⟨b, y, rest, rfl, hb⟩ := exists_split (n := 4) (show 4 < rest.length by omega)
    rw [List.length_append, List.length_cons] at hlength
    obtain ⟨d, z, rest, rfl, hd⟩ := exists_split (n := 4) (show 4 < rest.length by omega)
    rw [List.length_append, List.length_cons] at hlength
    obtain ⟨e, w, f, rfl, he⟩ := exists_split (n := 4) (show 4 < rest.length by omega)
    rw [List.length_append, List.length_cons] at hlength
    have hf : f.length = 12 := by omega
    rw [fitFrom_zero_iff ha hb hd he hf] at hfits
    obtain ⟨⟨hda, rfl⟩, ⟨hdb, rfl⟩, ⟨hdd, rfl⟩, ⟨hde, rfl⟩, hdf⟩ := hfits
    exact ⟨⟨⟨a, ha, hda⟩, ⟨b, hb, hdb⟩, ⟨d, hd, hdd⟩, ⟨e, he, hde⟩, ⟨f, hf, hdf⟩⟩, rfl⟩
  · rintro ⟨⟨⟨a, ha, hda⟩, ⟨b, hb, hdb⟩, ⟨d, hd, hdd⟩, ⟨e, he, hde⟩, ⟨f, hf, hdf⟩⟩, rfl⟩
    refine ⟨by simp [Hyphenated.Groups.text, ha, hb, hd, he, hf], ?_⟩
    exact (fitFrom_zero_iff ha hb hd he hf).2
      ⟨⟨hda, rfl⟩, ⟨hdb, rfl⟩, ⟨hdd, rfl⟩, ⟨hde, rfl⟩, hdf⟩

theorem lt_of_fitsAt {i : Nat} (h : FitsAt i c) : c.toNat < 128 := by
  unfold FitsAt at h
  split at h
  · subst h
    decide
  · obtain ⟨d, hd, -⟩ := h.exists_value
    exact Hex.toNat_lt_of_value? hd

theorem hasShape_iff_fitFrom :
    HasShape text ↔ text.toList.length = 36 ∧ FitFrom 0 text.toList := by
  constructor
  · rintro ⟨hsize, hplaces⟩
    have hbytes : ∀ b ∈ bytesOf text, b.toNat < 128 := by
      intro b hb
      obtain ⟨i, hi⟩ := List.mem_iff_getElem?.1 hb
      have hplace := hplaces i b hi
      split at hplace
      · subst hplace
        decide
      · have hdigits : ∀ d ∈ digitBytes, d.toNat < 128 := by decide +kernel
        exact hdigits b hplace
    have hlt : ∀ c ∈ text.toList, c.toNat < 128 := fun c => lt_of_bytesOf hbytes
    rw [← length_bytesOf] at hsize
    rw [bytesOf_of_lt hlt] at hsize hplaces
    refine ⟨by rwa [List.length_map] at hsize, fun i c hi => ?_⟩
    rw [Nat.zero_add, ← fitsAt_byte_iff (hlt c (List.mem_of_getElem? hi))]
    exact hplaces i c.toUInt8 (by rw [List.getElem?_map, hi, Option.map_some])
  · rintro ⟨hlength, hfits⟩
    have hlt : ∀ c ∈ text.toList, c.toNat < 128 := by
      intro c hc
      obtain ⟨i, hi⟩ := List.mem_iff_getElem?.1 hc
      exact lt_of_fitsAt (hfits i c hi)
    have hbytes := bytesOf_of_lt hlt
    refine ⟨by rw [← length_bytesOf, hbytes, List.length_map, hlength], fun i b hi => ?_⟩
    rw [hbytes, List.getElem?_map, Option.map_eq_some_iff] at hi
    obtain ⟨c, hc, rfl⟩ := hi
    rw [fitsAt_byte_iff (hlt c (List.mem_of_getElem? hc)), ← Nat.zero_add i]
    exact hfits i c hc

theorem hasShape_iff :
    HasShape text ↔ ∃ groups : Hyphenated.Groups, text.toList = groups.text := by
  rw [hasShape_iff_fitFrom, exists_groups_iff]

section Marks

variable {groups : Hyphenated.Groups} (htext : text.toList = groups.text)
include htext

theorem getElem?_bytesOf_groups (i : Nat) :
    (bytesOf text)[i]? = groups.text[i]?.map Char.toUInt8 := by
  have hfits := (exists_groups_iff.2 ⟨groups, rfl⟩).2
  have hlt : ∀ c ∈ text.toList, c.toNat < 128 := by
    intro c hc
    rw [htext] at hc
    obtain ⟨i, hi⟩ := List.mem_iff_getElem?.1 hc
    exact lt_of_fitsAt (hfits i c hi)
  rw [bytesOf_of_lt hlt, htext, List.getElem?_map]

theorem version_iff :
    (bytesOf text)[14]? = some '4'.toUInt8 ↔ groups.bits >>> 76 % 16 = 4 := by
  obtain ⟨c, d, hc, hd, hvalue⟩ := groups.third.exists_head groups.value12
  have hplace : groups.text[14]? = groups.third.digits[0]? := by
    simp [Hyphenated.Groups.text, List.getElem?_append, groups.first.length_eq,
      groups.second.length_eq, groups.third.length_eq]
  have hmark : c.toUInt8 = '4'.toUInt8 ↔ Hex.value? c = some 4 :=
    Hex.forall_of_codes (fun c => c.toUInt8 = '4'.toUInt8 ↔ Hex.value? c = some 4)
      (by decide +kernel) (Hex.toNat_lt_of_value? hd)
  have hbits : groups.bits >>> 76 % 16 = d := by
    have hlt := (Hex.value?_spec hd).1
    have hshift := groups.bits_shift_64
    change groups.value16 / 16 ^ 3 = _ at hvalue
    omega
  rw [getElem?_bytesOf_groups htext, hplace, hc, Option.map_some, Option.some.injEq, hmark, hd,
    hbits, Option.some.injEq]

theorem variant_iff :
    (∃ c ∈ ['8', '9', 'a', 'b', 'A', 'B'], (bytesOf text)[19]? = some c.toUInt8) ↔
      groups.bits >>> 62 % 4 = 2 := by
  obtain ⟨c, d, hc, hd, hvalue⟩ := groups.fourth.exists_head groups.value16
  have hplace : groups.text[19]? = groups.fourth.digits[0]? := by
    simp [Hyphenated.Groups.text, List.getElem?_append, groups.first.length_eq,
      groups.second.length_eq, groups.third.length_eq, groups.fourth.length_eq]
  have hmark : ['8', '9', 'a', 'b', 'A', 'B'].any (fun x => c.toUInt8 == x.toUInt8) =
      (Hex.value? c).any (fun d => d / 4 = 2) :=
    Hex.forall_of_codes (fun c => ['8', '9', 'a', 'b', 'A', 'B'].any
      (fun x => c.toUInt8 == x.toUInt8) = (Hex.value? c).any (fun d => d / 4 = 2))
      (by decide +kernel) (Hex.toNat_lt_of_value? hd)
  have hmem : (∃ x ∈ ['8', '9', 'a', 'b', 'A', 'B'], c.toUInt8 = x.toUInt8) ↔ d / 4 = 2 := by
    rw [hd, Option.any_some, Bool.eq_iff_iff, List.any_eq_true, decide_eq_true_eq] at hmark
    simpa only [beq_iff_eq] using hmark
  have hbits : groups.bits >>> 62 % 4 = d / 4 := by
    have hlt := (Hex.value?_spec hd).1
    have hshift := groups.bits_shift_48
    change groups.value20 / 16 ^ 3 = _ at hvalue
    omega
  rw [getElem?_bytesOf_groups htext, hplace, hc, Option.map_some]
  simp only [Option.some.injEq]
  rw [hmem, hbits]

theorem hasMarks_iff :
    HasMarks text ↔ groups.bits >>> 76 % 16 = 4 ∧ groups.bits >>> 62 % 4 = 2 := by
  rw [← version_iff htext, ← variant_iff htext]
  exact ⟨fun h => ⟨h.version, h.variant⟩, fun h => ⟨h.1, h.2⟩⟩

end Marks

namespace StableId

/-- How a text is read.  A text of the right shape is reported in lower case, any other
text as it stands. -/
inductive Reads (text : String) : Except Fault StableId → Prop
  | stable {id : StableId} (shape : HasShape text) (marks : HasMarks text)
      (lower : id.text = text.toLower) : Reads text (.ok id)
  | unmarked (shape : HasShape text) (marks : ¬ HasMarks text) :
      Reads text (.error (.invalidStableId text.toLower))
  | shapeless (shape : ¬ HasShape text) : Reads text (.error (.invalidStableId text))

theorem write_eq_toLower {groups : Hyphenated.Groups} (htext : text.toList = groups.text) :
    String.ofList (Hyphenated.write groups.bits) = text.toLower := by
  rw [groups.write_bits, ← htext, ← String.toList_map, String.ofList_toList]
  rfl

theorem reads_ofText (text : String) : Reads text (ofText text) := by
  by_cases hshape : HasShape text
  · obtain ⟨groups, htext⟩ := hasShape_iff.1 hshape
    have hread : Hyphenated.read? text.toList = some groups.bits :=
      Hyphenated.read?_eq_some_iff.2 ⟨groups, htext, rfl⟩
    rw [ofText, hread]
    by_cases hmarks : HasMarks text
    · obtain ⟨hversion, hvariant⟩ := (hasMarks_iff htext).1 hmarks
      have hbits : ofBits? groups.bits = some ⟨_, groups.bits_lt, hversion, hvariant⟩ :=
        dif_pos ⟨groups.bits_lt, hversion, hvariant⟩
      simp only [ofBits, hbits]
      exact .stable hshape hmarks (write_eq_toLower htext)
    · have hnone : ofBits? groups.bits = none :=
        dif_neg fun h => hmarks ((hasMarks_iff htext).2 h.2)
      simp only [ofBits, hnone, write_eq_toLower htext]
      exact .unmarked hshape hmarks
  · have hread : Hyphenated.read? text.toList = none := by
      rw [Option.eq_none_iff_forall_ne_some]
      intro bits hbits
      obtain ⟨groups, htext, -⟩ := Hyphenated.read?_eq_some_iff.1 hbits
      exact hshape (hasShape_iff.2 ⟨groups, htext⟩)
    rw [ofText, hread]
    exact .shapeless hshape

theorem ofText_text (id : StableId) : ofText id.text = .ok id := by
  rw [ofText, text, String.toList_ofList, Hyphenated.read?_write id.isLt]
  simp only [ofBits, ofBits?_bits]

/-- A text names a stable id exactly if it has the shape and the marks of one.  The
reading is exact: other texts are told apart by what they lack. -/
theorem ofText_exact :
    (∀ text, (∃ id, ofText text = .ok id) ↔ HasShape text ∧ HasMarks text) ∧
      (∀ text, Reads text (ofText text)) ∧ ∀ id : StableId, ofText id.text = .ok id := by
  refine ⟨fun text => ?_, reads_ofText, ofText_text⟩
  constructor
  · rintro ⟨id, hid⟩
    have hreads := reads_ofText text
    rw [hid] at hreads
    cases hreads with
    | stable shape marks _ => exact ⟨shape, marks⟩
  · rintro ⟨shape, marks⟩
    have hreads := reads_ofText text
    generalize ofText text = outcome at hreads
    cases hreads with
    | @stable id => exact ⟨id, rfl⟩
    | unmarked _ hmarks => exact absurd marks hmarks
    | shapeless hshape => exact absurd shape hshape

end StableId

end CompactIds
