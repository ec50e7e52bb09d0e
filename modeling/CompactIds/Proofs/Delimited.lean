import CompactIds.Peer.Action
import CompactIds.Proofs.Decode

/-!
# Snapshots end by themselves

A part of a snapshot that can be read says itself how far it goes: the bytes
behind it do not matter, and without its last bytes the input ends too early.
This carries over from words to items, lists and whole snapshots, so a snapshot
that loads can be neither cut nor padded.
-/

namespace CompactIds

abbrev Reader (α : Type) : Type :=
  List UInt8 → Except Fault (α × List UInt8)

namespace Reader

variable {α β : Type} {read : Reader α} {next : α → Reader β} {xs ys : List UInt8} {a : α} {b : β}

def bind (read : Reader α) (next : α → Reader β) : Reader β := fun bytes => do
  let (a, bytes) ← read bytes
  next a bytes

def checked (result : Except Fault α) (next : α → Reader β) : Reader β := fun bytes => do
  let a ← result
  next a bytes

/-- The reader takes the bytes `xs` for a value, whatever follows, and needs all of
them. -/
structure Takes (read : Reader α) (xs : List UInt8) (a : α) : Prop where
  whole : ∀ rest, read (xs ++ rest) = .ok (a, rest)
  part : ∀ front back, front ++ back = xs → back ≠ [] → read front = malformed .truncated

/-- Whatever is read is delimited by its own bytes. -/
def Delimited (read : Reader α) : Prop :=
  ∀ ⦃bytes rest a⦄, read bytes = .ok (a, rest) → ∃ xs, bytes = xs ++ rest ∧ read.Takes xs a

theorem Takes.bind (first : read.Takes xs a) (second : (next a).Takes ys b) :
    (read.bind next).Takes (xs ++ ys) b where
  whole rest := by
    simp only [Reader.bind, List.append_assoc, first.whole, second.whole, Bind.bind, Except.bind]
  part front back hsplit hback := by
    -- The input ends in the first value, right behind it, or in the second one.
    rcases List.append_eq_append_iff.1 hsplit with ⟨mid, rfl, rfl⟩ | ⟨mid, rfl, rfl⟩
    · cases mid with
      | nil =>
          have hwhole := first.whole []
          have hpart := second.part [] ys rfl hback
          simp_all [Reader.bind, Bind.bind, Except.bind, malformed]
      | cons byte mid =>
          have hpart := first.part front (byte :: mid) rfl (by simp)
          simp [Reader.bind, hpart, malformed, Bind.bind, Except.bind]
    · have hpart := second.part mid back rfl hback
      simp [Reader.bind, first.whole, hpart, malformed, Bind.bind, Except.bind]

namespace Delimited

theorem pure (a : α) : Delimited fun bytes => .ok (a, bytes) := by
  rintro bytes rest _ ⟨⟩
  refine ⟨[], rfl, ⟨fun _ => rfl, fun front back hsplit hback => ?_⟩⟩
  exact absurd (List.append_eq_nil_iff.1 hsplit).2 hback

theorem fail (fault : Fault) :
    Delimited fun _ => (.error fault : Except Fault (α × List UInt8)) := by
  rintro bytes rest a ⟨⟩

theorem bind (first : Delimited read) (second : ∀ a, Delimited (next a)) :
    Delimited (read.bind next) := by
  intro bytes rest b h
  obtain ⟨⟨a, middle⟩, hread, hnext⟩ := bind_eq_ok h
  obtain ⟨xs, rfl, takes⟩ := first hread
  obtain ⟨ys, rfl, takes'⟩ := second a hnext
  exact ⟨xs ++ ys, (List.append_assoc ..).symm, takes.bind takes'⟩

theorem checked (result : Except Fault α) (second : ∀ a, Delimited (next a)) :
    Delimited (checked result next) := by
  cases result with
  | error fault => exact fail fault
  | ok a => exact second a

end Delimited

end Reader

open Reader

theorem Word.extend?_eq_none {width acc : Nat} {bytes : List UInt8} (h : bytes.length < width) :
    extend? width acc bytes = none := by
  induction width generalizing acc bytes with
  | zero => simp at h
  | succ width ih =>
      cases bytes with
      | nil => rfl
      | cons byte bytes => exact ih (Nat.lt_of_succ_lt_succ h)

theorem delimited_readWord (width : Nat) : Delimited (readWord width) := by
  intro bytes rest n h
  obtain ⟨hn, rfl⟩ := readWord_eq_ok h
  refine ⟨_, rfl, readWord_suffix hn, fun front back hsplit hback => ?_⟩
  have hlength := congrArg List.length hsplit
  have hshort := List.length_pos_iff.2 hback
  rw [List.length_append, Word.length_encode] at hlength
  simp [readWord, Word.decode?, Word.extend?_eq_none (show front.length < width by omega)]

section Lists

variable {σ α : Type} {item : Reader α} {accept : σ → α → Except Fault σ}

theorem readItems_succ (n : Nat) (state : σ) :
    readItems item accept (n + 1) state =
      Reader.bind item fun a => checked (accept state a) (readItems item accept n) := by
  funext bytes
  simp only [readItems, Reader.bind, checked, Bind.bind, Except.bind]
  cases item bytes with
  | error fault => rfl
  | ok result =>
      obtain ⟨a, rest⟩ := result
      dsimp only
      cases accept state a <;> rfl

theorem delimited_readItems (delimited : Delimited item) (n : Nat) (state : σ) :
    Delimited (readItems item accept n state) := by
  induction n generalizing state with
  | zero => exact .pure state
  | succ n ih =>
      rw [readItems_succ]
      exact delimited.bind fun a => .checked _ ih

theorem delimited_readList (delimited : Delimited item) (state : σ) :
    Delimited (readList item accept state) :=
  (delimited_readWord 8).bind fun n => delimited_readItems delimited n state

end Lists

/-! ## Parts of a snapshot -/

theorem delimited_readRun : Delimited readRun :=
  (delimited_readWord 8).bind fun _ => (delimited_readWord 8).bind fun _ => .pure _

theorem delimited_readEntry : Delimited readEntry :=
  (delimited_readWord 8).bind fun _ => (delimited_readWord 8).bind fun _ =>
    (delimited_readWord 8).bind fun _ => .pure _

theorem readLocalState_eq : readLocalState =
    Reader.bind (readWord 16) fun bits => checked (checkSessionId .localSession bits) fun session =>
      Reader.bind (readWord 8) fun generated => Reader.bind (readWord 8) fun next =>
        checked (checkCounters generated next) fun taken =>
          Reader.bind (readList readRun (fun runs run => .ok (runs.push run)) #[]) fun runs =>
            checked (checkRuns generated runs) fun locals => fun bytes =>
              .ok (⟨session, generated, taken, locals⟩, bytes) :=
  rfl

theorem delimited_readLocalState : Delimited readLocalState := by
  rw [readLocalState_eq]
  exact (delimited_readWord 16).bind fun bits => .checked _ fun session =>
    (delimited_readWord 8).bind fun generated => (delimited_readWord 8).bind fun next =>
      .checked _ fun taken => (delimited_readList delimited_readRun _).bind fun runs =>
        .checked _ fun locals => .pure _

def readFlagged (given : Option SessionId) (flag : Nat) : Reader Start :=
  match flag, given with
  | 0, some session => fun bytes => .ok (.join session, bytes)
  | 0, none => fun _ => .error .sessionIdRequired
  | 1, some _ => fun _ => .error .sessionIdForbidden
  | 1, none => Reader.bind readLocalState fun state bytes => .ok (.resume state, bytes)
  | _, _ => fun _ => malformed .localFlag

theorem readStart_eq (given : Option SessionId) : readStart given =
    Reader.bind (readWord 4) fun version =>
      if version ≠ layoutVersion then fun _ => .error (.versionMismatch version)
      else Reader.bind (readWord 1) (readFlagged given) := by
  funext bytes
  unfold readStart Reader.bind
  congr 1
  funext result
  obtain ⟨version, bytes⟩ := result
  simp only
  split
  · rfl
  · congr 1
    funext result
    obtain ⟨flag, bytes⟩ := result
    rcases flag with _ | _ | flag <;> cases given <;> rfl

theorem delimited_readFlagged (given : Option SessionId) (flag : Nat) :
    Delimited (readFlagged given flag) := by
  unfold readFlagged
  split
  · exact .pure _
  · exact .fail _
  · exact .fail _
  · exact delimited_readLocalState.bind fun _ => .pure _
  · exact .fail _

theorem delimited_readStart (given : Option SessionId) : Delimited (readStart given) := by
  rw [readStart_eq]
  refine (delimited_readWord 4).bind fun version => ?_
  split
  · exact .fail _
  · exact (delimited_readWord 1).bind (delimited_readFlagged given)

theorem readCapacity_eq : readCapacity = Reader.bind (readWord 8) fun capacity bytes =>
    match checkCapacity capacity with
    | .ok _ => .ok (capacity, bytes)
    | .error _ => malformed .capacity :=
  rfl

theorem delimited_readCapacity : Delimited readCapacity := by
  rw [readCapacity_eq]
  refine (delimited_readWord 8).bind fun capacity => ?_
  cases checkCapacity capacity with
  | ok _ => exact .pure _
  | error _ => exact .fail _

def readTables (given : Option SessionId) : Reader (Start × Loading) :=
  Reader.bind (readStart given) fun start => Reader.bind readCapacity fun capacity =>
    Reader.bind (readList (readWord 16) (Loading.acceptSession start) (.ofStart start capacity))
      fun loading => Reader.bind (readList readEntry Loading.acceptCluster loading)
        fun loading bytes => .ok ((start, loading), bytes)

theorem delimited_readTables (given : Option SessionId) : Delimited (readTables given) :=
  (delimited_readStart given).bind fun _ => delimited_readCapacity.bind fun _ =>
    (delimited_readList (delimited_readWord 16) _).bind fun _ =>
      (delimited_readList delimited_readEntry _).bind fun _ => .pure _

namespace Peer

variable {given : Option SessionId} {bytes : List UInt8} {peer : Peer}

/-- The end of the input is looked for before the tables are judged. -/
theorem load_eq_readTables (given : Option SessionId) (bytes : List UInt8) :
    load given bytes = (do
      let ((start, loading), rest) ← readTables given bytes
      if rest.isEmpty then loading.finish start else malformed .trailing) := by
  simp only [load, readTables, Reader.bind, bind_assoc]
  rfl

theorem exists_takes_of_load (h : load given bytes = .ok peer) :
    ∃ tables, (readTables given).Takes bytes tables := by
  rw [load_eq_readTables] at h
  obtain ⟨⟨⟨start, loading⟩, rest⟩, htables, hfinish⟩ := bind_eq_ok h
  obtain ⟨xs, rfl, takes⟩ := delimited_readTables given htables
  simp only at hfinish
  split at hfinish
  · rename_i hempty
    rw [List.isEmpty_iff] at hempty
    exact ⟨_, by rwa [hempty, List.append_nil]⟩
  · cases hfinish

theorem load_front (h : load given bytes = .ok peer) {front : List UInt8}
    (hpre : front <+: bytes) (hne : front ≠ bytes) :
    load given front = .error (.malformedSnapshot .truncated) := by
  obtain ⟨tables, takes⟩ := exists_takes_of_load h
  obtain ⟨back, rfl⟩ := hpre
  have hpart := takes.part front back rfl fun hback => hne (by rw [hback, List.append_nil])
  rw [load_eq_readTables, hpart]
  rfl

theorem load_append (h : load given bytes = .ok peer) {extra : List UInt8} (hne : extra ≠ []) :
    load given (bytes ++ extra) = .error (.malformedSnapshot .trailing) := by
  obtain ⟨tables, takes⟩ := exists_takes_of_load h
  obtain ⟨byte, extra, rfl⟩ := List.exists_cons_of_ne_nil hne
  rw [load_eq_readTables, takes.whole]
  rfl

end Peer

/-! ## In either mode -/

/-- Goes past a snapshot, whether or not it has a local state, and checks no table. -/
def skipSnapshot : Reader Unit :=
  Reader.bind (readWord 4) fun _ => Reader.bind (readWord 1) fun flag =>
    Reader.bind (if flag = 0 then fun bytes => .ok ((), bytes)
      else Reader.bind readLocalState fun _ bytes => .ok ((), bytes)) fun _ =>
    Reader.bind readCapacity fun _ =>
      Reader.bind (readList (readWord 16) (fun _ _ => .ok ()) ()) fun _ =>
        readList readEntry (fun _ _ => .ok ()) ()

private theorem foldlM_unit {α : Type} (items : List α) :
    items.foldlM (fun _ _ => (.ok () : Except Fault Unit)) () = .ok () := by
  induction items with
  | nil => rfl
  | cons _ items ih => rwa [List.foldlM_cons]

theorem skipSnapshot_suffix {given : Option SessionId} {snapshot : Snapshot} {start : Start}
    (fits : snapshot.Fits) (starts : Starts given snapshot.localState start) (rest : List UInt8) :
    skipSnapshot (snapshot.encode ++ rest) = .ok ((), rest) := by
  have hsessions : ∀ rest, readList (readWord 16) (fun _ _ => .ok ()) ()
      (encodeList encodeSession snapshot.sessions ++ rest) = .ok ((), rest) := by
    intro rest
    rw [readList_suffix (fun id _ rest => readSession_suffix id rest) fits.sessions, foldlM_unit]
    rfl
  have hclusters : readList readEntry (fun _ _ => .ok ()) ()
      (encodeList encodeEntry snapshot.clusters ++ rest) = .ok ((), rest) := by
    rw [readList_suffix (fun entry h rest => readEntry_suffix (fits.entries entry h) rest)
      fits.clusters, foldlM_unit]
    rfl
  have hversion : layoutVersion < 256 ^ 4 := by decide
  unfold skipSnapshot Snapshot.encode
  generalize snapshot.localState = localState at starts
  simp only [Reader.bind, List.append_assoc, readWord_suffix hversion, Bind.bind, Except.bind]
  cases starts with
  | join session =>
      simp only [encodeLocalState, readWord_suffix (show 0 < 256 ^ 1 by decide), if_true,
        readCapacity_suffix fits.capacity, hsessions, hclusters]
  | resume sound =>
      simp only [encodeLocalState, List.append_assoc, readWord_suffix (show 1 < 256 ^ 1 by decide),
        one_ne_zero, if_false, Reader.bind, Bind.bind, Except.bind, readLocalState_suffix sound,
        readCapacity_suffix fits.capacity, hsessions, hclusters]

namespace Peer

variable {given given' : Option SessionId} {bytes other : List UInt8} {peer peer' : Peer}

theorem skipSnapshot_of_load (h : load given bytes = .ok peer) (rest : List UInt8) :
    skipSnapshot (bytes ++ rest) = .ok ((), rest) := by
  obtain ⟨snapshot, start, fits, starts, rfl, -⟩ := load_eq_ok_iff.1 h
  exact skipSnapshot_suffix fits starts rest

theorem eq_of_prefix (h : load given bytes = .ok peer) (h' : load given' other = .ok peer')
    (hpre : other <+: bytes) : other = bytes := by
  obtain ⟨rest, rfl⟩ := hpre
  have hskip := skipSnapshot_of_load h []
  rw [List.append_nil, skipSnapshot_of_load h' rest, Except.ok.injEq, Prod.mk.injEq] at hskip
  rw [hskip.2, List.append_nil]

theorem load_delimited (h : load given bytes = .ok peer) :
    (∀ front, front <+: bytes → front ≠ bytes →
      load given front = .error (.malformedSnapshot .truncated)) ∧
    (∀ extra, extra ≠ [] →
      load given (bytes ++ extra) = .error (.malformedSnapshot .trailing)) ∧
    (∀ given' other peer', load given' other = .ok peer' → other <+: bytes → other = bytes) ∧
    SnapshotDefect.truncated.message = "unexpected end of snapshot" ∧
    SnapshotDefect.trailing.message = "trailing bytes" :=
  ⟨fun _ => load_front h, fun _ => load_append h, fun _ _ _ h' => eq_of_prefix h h', rfl, rfl⟩

theorem load_delimited_cut :
    let own : SessionId := Position.toStableId ⟨5, by decide⟩
    let other : SessionId := Position.toStableId ⟨900, by decide⟩
    let bytes := ((ofSession own).replay [.finalize (.ofSpan other 1 2)]).save false
    (load (some own) bytes).isOk = true ∧
      load (some own) (bytes.take 30) = .error (.malformedSnapshot .truncated) ∧
      load (some own) (bytes ++ [0]) = .error (.malformedSnapshot .trailing) := by
  intro own other bytes
  have hload : load (some own) bytes =
      .ok ((ofSession own).replay [.finalize (.ofSpan other 1 2)]) := by decide +kernel
  obtain ⟨hfront, hextra, -⟩ := load_delimited hload
  refine ⟨by rw [hload]; rfl, hfront _ (List.take_prefix 30 bytes) (by decide +kernel),
    hextra [0] (by decide)⟩

end Peer

end CompactIds
