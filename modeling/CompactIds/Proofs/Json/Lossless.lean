import CompactIds.Proofs.Digits
import CompactIds.Proofs.Json.Tokens
import CompactIds.Proofs.StableText

/-!
# The wire form loses nothing

What is written is read back.  A text that is read may be laid out in many ways,
but its value is one that can be written, and so every text has a normal form.
-/

namespace CompactIds

structure Wire (α : Type) where
  Fits : α → Prop
  write : α → List Char
  ofJson? : Json → Option α

namespace Wire

variable {α : Type} {wire : Wire α}

def print (wire : Wire α) (value : α) : String :=
  String.ofList (wire.write value)

def parse? (wire : Wire α) (text : String) : Option α := do
  wire.ofJson? (← Json.ofText? text)

/-- Nothing is lost on the way out, and every text that is read has a normal form. -/
structure Lossless (wire : Wire α) : Prop where
  parse_print : ∀ value, wire.Fits value → wire.parse? (wire.print value) = some value
  fits : ∀ text value, wire.parse? text = some value → wire.Fits value
  print_parse_print : ∀ text value, wire.parse? text = some value →
    (wire.parse? (wire.print value)).map wire.print = some (wire.print value)

/-- A value that fits spells a JSON value from which it is read, and nothing else is read. -/
structure Faithful (wire : Wire α) : Prop where
  spells : ∀ value, wire.Fits value →
    ∃ json, Json.Spells (wire.write value) json ∧ wire.ofJson? json = some value
  fits : ∀ json value, wire.ofJson? json = some value → wire.Fits value

theorem Faithful.lossless (faithful : wire.Faithful) : wire.Lossless := by
  have hprint : ∀ value, wire.Fits value → wire.parse? (wire.print value) = some value := by
    intro value hfits
    obtain ⟨json, hspells, hread⟩ := faithful.spells value hfits
    simp [parse?, print, Json.ofText?_of_spells hspells, hread]
  have hfits : ∀ text value, wire.parse? text = some value → wire.Fits value := by
    intro text value hparse
    obtain ⟨json, -, hread⟩ := Option.bind_eq_some_iff.1 hparse
    exact faithful.fits json value hread
  refine ⟨hprint, hfits, fun text value hparse => ?_⟩
  rw [hprint value (hfits text value hparse), Option.map_some]

end Wire

namespace Json

variable {json : Json}

theorem integer?_eq_some_iff {low high value : Int} :
    json.integer? low high = some value ↔
      json = .number (some value) ∧ low ≤ value ∧ value ≤ high := by
  unfold integer?
  split
  · rw [Option.ite_none_right_eq_some]
    grind
  · grind

theorem word?_number {n : Nat} (h : n < wordLimit) :
    (number (some (n : Int))).word? = some n := by
  have hrange : integer? 0 (wordLimit - 1) (number (some (n : Int))) = some (n : Int) :=
    integer?_eq_some_iff.2 ⟨rfl, by omega, by omega⟩
  rw [word?, hrange, Option.map_some, Int.toNat_natCast]

theorem word?_lt {n : Nat} (h : json.word? = some n) : n < wordLimit := by
  obtain ⟨value, hvalue, rfl⟩ := Option.map_eq_some_iff.1 h
  obtain ⟨-, hlow, hhigh⟩ := integer?_eq_some_iff.1 hvalue
  omega

end Json

def SpaceId.wire (space : Space) : Wire (SpaceId space) where
  Fits id := -(idLimit : Int) - 1 ≤ id.value ∧ id.value ≤ idLimit
  write := SpaceId.write
  ofJson? := SpaceId.ofJson?

theorem SpaceId.faithful_wire (space : Space) : (SpaceId.wire space).Faithful where
  spells := by
    rintro ⟨value⟩ ⟨hlow, hhigh⟩
    refine ⟨_, Json.spells_writeInt value, ?_⟩
    have hrange : Json.integer? (-(idLimit : Int) - 1) idLimit (.number (some value)) =
        some value :=
      Json.integer?_eq_some_iff.2 ⟨rfl, hlow, hhigh⟩
    simp [wire, ofJson?, hrange]
  fits := by
    intro json id hread
    obtain ⟨value, hvalue, rfl⟩ : ∃ value, _ = some value ∧ SpaceId.mk value = id := by
      simpa [wire, ofJson?, Option.bind_eq_some_iff] using hread
    exact (Json.integer?_eq_some_iff.1 hvalue).2

theorem Hex.IsDigit.plain {c : Char} (h : IsDigit c) : Json.Plain c := by
  obtain ⟨d, hd, -⟩ := h.exists_value
  exact forall_of_codes (fun c => IsDigit c → Json.Plain c) (by decide +kernel)
    (toNat_lt_of_value? hd) h

theorem Hyphenated.isPlain_write (bits : Nat) : Json.IsPlain (write bits) := by
  have hfixed : ∀ width n, Json.IsPlain (Hex.fixed width n) :=
    fun _ _ _ h => (Hex.isDigit_of_mem_fixed h).plain
  have hhyphen : Json.Plain '-' := by decide
  simp only [write, Json.isPlain_append, Json.isPlain_cons]
  exact ⟨hfixed _ _, hhyphen, hfixed _ _, hhyphen, hfixed _ _, hhyphen, hfixed _ _, hhyphen,
    hfixed _ _⟩

namespace StableId

def wire : Wire StableId where
  Fits _ := True
  write := write
  ofJson? := ofJson?

theorem spells_write (id : StableId) : Json.Spells id.write (.string (some id.text)) :=
  Json.spells_writeString (Hyphenated.isPlain_write id.bits)

theorem ofJson?_text (id : StableId) : ofJson? (.string (some id.text)) = some id := by
  simp [ofJson?, Json.text?, ofText_text, Except.toOption]

theorem faithful_wire : wire.Faithful where
  spells id _ := ⟨_, id.spells_write, id.ofJson?_text⟩
  fits _ _ _ := trivial

end StableId

namespace Span

def wire : Wire Span where
  Fits span := span.first < wordLimit ∧ span.count < wordLimit
  write := write
  ofJson? := ofJson?

def json (span : Span) : Json :=
  .object [(some "firstGenCount", .number (some span.first)),
    (some "count", .number (some span.count))]

theorem spells_write (span : Span) : Json.Spells span.write span.json :=
  Json.spells_writeObject ⟨"firstGenCount", _, _, by decide, Json.spells_writeInt span.first⟩
    [⟨"count", _, _, by decide, Json.spells_writeInt span.count⟩]

theorem ofJson?_json {span : Span} (hfits : wire.Fits span) : ofJson? span.json = some span := by
  simp [ofJson?, json, Json.fields?, Json.optional?, Json.valuesOf, Json.word?_number hfits.1,
    Json.word?_number hfits.2]

theorem fits_of_ofJson? {json : Json} {span : Span} (h : ofJson? json = some span) :
    wire.Fits span := by
  obtain ⟨fields, -, hfields⟩ := Option.bind_eq_some_iff.1 h
  split at hfields
  · obtain ⟨first, hfirst, count, hcount, rfl⟩ : ∃ first, _ = some first ∧ ∃ count, _ = some count ∧
        Span.mk first count = span := by
      simpa [Option.bind_eq_some_iff] using hfields
    exact ⟨Json.word?_lt hfirst, Json.word?_lt hcount⟩
  · cases hfields

theorem faithful_wire : wire.Faithful where
  spells span hfits := ⟨_, span.spells_write, ofJson?_json hfits⟩
  fits _ _ := fits_of_ofJson?

theorem ofField?_json {span : Span} (hfits : wire.Fits span) :
    ofField? (some span.json) = some (some span) := by
  have hread := ofJson?_json hfits
  rw [json] at hread ⊢
  rw [ofField?, hread, Option.map_some]
  exact nofun

theorem fits_of_ofField? {field : Option Json} {span : Span}
    (h : ofField? field = some (some span)) : wire.Fits span := by
  unfold ofField? at h
  split at h
  · cases h
  · cases h
  · obtain ⟨read, hread, heq⟩ := Option.map_eq_some_iff.1 h
    cases heq
    exact fits_of_ofJson? hread

end Span

namespace CreationRange

def wire : Wire CreationRange where
  Fits range := ∀ span, range.ids = some span → Span.wire.Fits span
  write := write
  ofJson? := ofJson?

theorem faithful_wire : wire.Faithful where
  spells := by
    rintro ⟨session, ids⟩ hfits
    cases ids with
    | none =>
        refine ⟨_, Json.spells_writeObject
          ⟨"sessionId", _, _, by decide, session.spells_write⟩ [], ?_⟩
        simp [wire, ofJson?, Json.fields?, Json.optional?, Json.valuesOf, Json.Member.read,
          session.ofJson?_text, Span.ofField?]
    | some span =>
        refine ⟨_, Json.spells_writeObject ⟨"sessionId", _, _, by decide, session.spells_write⟩
          [⟨"ids", _, _, by decide, span.spells_write⟩], ?_⟩
        simp [wire, ofJson?, Json.fields?, Json.optional?, Json.valuesOf, Json.Member.read,
          session.ofJson?_text, Span.ofField?_json (hfits span rfl)]
  fits := by
    intro json range hread span hids
    obtain ⟨fields, -, hfields⟩ := Option.bind_eq_some_iff.1 hread
    split at hfields
    · obtain ⟨session, -, ids, hfield, rfl⟩ : ∃ session, _ = some session ∧ ∃ ids, _ = some ids ∧
          CreationRange.mk session ids = range := by
        simpa [Option.bind_eq_some_iff] using hfields
      cases hids
      exact Span.fits_of_ofField? hfield
    · cases hfields

end CreationRange

namespace Settings

def wire : Wire Settings where
  Fits settings := settings.clusterCapacity < wordLimit
  write := write
  ofJson? := ofJson?

theorem faithful_wire : wire.Faithful where
  spells := by
    rintro ⟨capacity⟩ hfits
    refine ⟨_, Json.spells_writeObject
      ⟨"clusterCapacity", _, _, by decide, Json.spells_writeInt capacity⟩ [], ?_⟩
    have hcapacity : Json.word? _ = some capacity := Json.word?_number hfits
    simp [wire, ofJson?, Json.fields?, Json.optional?, Json.valuesOf, Json.Member.read, hcapacity]
  fits := by
    intro json settings hread
    obtain ⟨fields, -, hfields⟩ := Option.bind_eq_some_iff.1 hread
    split at hfields
    · obtain ⟨capacity, hcapacity, rfl⟩ : ∃ capacity, _ = some capacity ∧
          Settings.mk capacity = settings := by
        simpa [Option.bind_eq_some_iff] using hfields
      exact Json.word?_lt hcapacity
    · cases hfields
      have hdefault : defaultCapacity < wordLimit := by decide
      exact hdefault
    · cases hfields

end Settings

/-- Stable ids and with them session ids, the ids of either space, spans, creation ranges and
settings come back from their texts as they were, and what is read from any text has a text
of its own that is read and printed as itself. -/
theorem wire_lossless :
    StableId.wire.Lossless ∧ (∀ space, (SpaceId.wire space).Lossless) ∧ Span.wire.Lossless ∧
      CreationRange.wire.Lossless ∧ Settings.wire.Lossless :=
  ⟨StableId.faithful_wire.lossless, fun space => (SpaceId.faithful_wire space).lossless,
    Span.faithful_wire.lossless, CreationRange.faithful_wire.lossless,
    Settings.faithful_wire.lossless⟩

example : (Span.wire.parse? "\x7b \"count\":7, \"x\":[null], \"firstGen\\u0043ount\" :1\x7d").map
    Span.wire.print = some "\x7b\"firstGenCount\":1,\"count\":7\x7d" := by
  decide +kernel

example : (CreationRange.wire.parse?
      "\x7b\"ids\":null,\"sessionId\":\"748540CA-B7C5-4C99-83FF-C1B8E02C09D6\"\x7d").map
    CreationRange.wire.print =
      some "\x7b\"sessionId\":\"748540ca-b7c5-4c99-83ff-c1b8e02c09d6\"\x7d" := by
  decide +kernel

end CompactIds
