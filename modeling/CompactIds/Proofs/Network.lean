import CompactIds.Proofs.Convergence
import CompactIds.Proofs.HonestRuns
import CompactIds.Proofs.Lookup

/-!
# Networks

Any number of peers send the ranges that they take to one log, and each follows
the log at its own pace.  Three counters of a session stay in step with each
other wherever they are kept: what its peer took, what the log has of it, and
how far every peer finalized it.
-/

namespace CompactIds

structure Delivery where
  range : CreationRange
  answer : Except Fault Unit
  deriving DecidableEq, Repr

/-- The ranges in `waiting` were taken and are not in the log yet, the oldest first. -/
structure Member where
  peer : Peer
  waiting : List CreationRange
  received : List Delivery
  deriving DecidableEq, Repr

structure Network where
  members : List Member
  log : List CreationRange
  deriving DecidableEq, Repr

/-- A member does something by itself, or its oldest range is put into the log, or it is
given the next range of the log. -/
inductive Event where
  | act (i : Nat) (action : Action)
  | sequence (i : Nat)
  | deliver (i : Nat)
  deriving DecidableEq, Repr

def Action.isFinalize : Action → Bool
  | .finalize _ => true
  | _ => false

namespace Member

def ofPeer (peer : Peer) : Member :=
  ⟨peer, [], []⟩

def act (m : Member) (action : Action) : Member :=
  { m with
    peer := m.peer.perform action
    waiting := m.waiting ++ (m.peer.handed action).filter fun range => !range.isEmpty }

def deliver (m : Member) (range : CreationRange) : Member :=
  { m with
    peer := m.peer.perform (.finalize range)
    received := m.received ++ [⟨range, m.peer.answer (.finalize range)⟩] }

def next? (m : Member) (log : List CreationRange) : Option CreationRange :=
  log[m.received.length]?

end Member

namespace Network

def ofPeers (peers : List Peer) : Network :=
  ⟨peers.map .ofPeer, []⟩

/-- An event that cannot happen changes nothing.  Ranges are finalized in no other way than
by following the log. -/
def step (net : Network) : Event → Network
  | .act i action =>
      if action.isFinalize then net else { net with members := net.members.modify i (·.act action) }
  | .sequence i =>
      match net.members[i]?.bind fun m => m.waiting.head? with
      | some range =>
          { members := net.members.modify i fun m => { m with waiting := m.waiting.tail }
            log := net.log ++ [range] }
      | none => net
  | .deliver i =>
      match net.members[i]?.bind fun m => m.next? net.log with
      | some range => { net with members := net.members.modify i (·.deliver range) }
      | none => net

def run (net : Network) (events : List Event) : Network :=
  events.foldl step net

end Network

/-! ## Consecutive ranges -/

/-- The ranges of a session, from one generation up to another, each starting where the one
before it ends. -/
inductive Consecutive (session : SessionId) : Nat → List CreationRange → Nat → Prop
  | nil (next : Nat) : Consecutive session next [] next
  | cons {next count stop : Nat} {ranges : List CreationRange} (pos : 0 < count)
      (rest : Consecutive session (next + count) ranges stop) :
      Consecutive session next (.ofSpan session next count :: ranges) stop

def total (ranges : List CreationRange) : Nat :=
  (ranges.map CreationRange.count).sum

namespace Consecutive

variable {session : SessionId} {first next stop : Nat} {xs ys : List CreationRange}

theorem append (h : Consecutive session first xs next) (h' : Consecutive session next ys stop) :
    Consecutive session first (xs ++ ys) stop := by
  induction h with
  | nil => exact h'
  | cons pos _ ih => exact .cons pos (ih h')

theorem of_append (h : Consecutive session first (xs ++ ys) stop) :
    ∃ next, Consecutive session first xs next ∧ Consecutive session next ys stop := by
  induction xs generalizing first with
  | nil => exact ⟨first, .nil first, h⟩
  | cons range xs ih =>
      cases h with
      | cons pos rest =>
          obtain ⟨next, hxs, hys⟩ := ih rest
          exact ⟨next, .cons pos hxs, hys⟩

theorem stop_eq (h : Consecutive session first xs stop) : stop = first + total xs := by
  induction h with
  | nil => simp [total]
  | cons pos _ ih =>
      simp only [total, List.map_cons, List.sum_cons, CreationRange.count,
        CreationRange.ofSpan] at *
      omega

theorem session_eq (h : Consecutive session first xs stop) :
    ∀ range ∈ xs, range.session = session := by
  induction h with
  | nil => simp
  | cons pos _ ih => simpa [CreationRange.ofSpan] using ih

end Consecutive

/-! ## What a member keeps track of -/

def rangesOf (session : SessionId) (ranges : List CreationRange) : List CreationRange :=
  ranges.filter fun range => range.session = session

@[simp] theorem rangesOf_append (session : SessionId) (xs ys : List CreationRange) :
    rangesOf session (xs ++ ys) = rangesOf session xs ++ rangesOf session ys :=
  List.filter_append ..

theorem rangesOf_singleton_of_ne {session : SessionId} {range : CreationRange}
    (h : range.session ≠ session) : rangesOf session [range] = [] := by
  simp [rangesOf, h]

theorem rangesOf_singleton {session : SessionId} {range : CreationRange}
    (h : range.session = session) : rangesOf session [range] = [range] := by
  simp [rangesOf, h]

def Delivery.accepted (session : SessionId) (delivery : Delivery) : Nat :=
  match delivery.answer with
  | .ok _ => if delivery.range.session = session then delivery.range.count else 0
  | .error _ => 0

def acceptedOf (session : SessionId) (received : List Delivery) : Nat :=
  (received.map (Delivery.accepted session)).sum

section Accepted

variable {session : SessionId} {received : List Delivery}

theorem acceptedOf_le (session : SessionId) (received : List Delivery) :
    acceptedOf session received ≤ total (rangesOf session (received.map Delivery.range)) := by
  induction received with
  | nil => simp [acceptedOf]
  | cons delivery received ih =>
      simp only [acceptedOf, total, rangesOf, List.map_cons, List.sum_cons, List.filter_cons,
        Delivery.accepted] at *
      cases delivery.answer <;> by_cases h : delivery.range.session = session <;>
        simp [h] <;> omega

theorem acceptedOf_eq
    (h : ∀ delivery ∈ received, delivery.range.session = session → delivery.answer = .ok ()) :
    acceptedOf session received = total (rangesOf session (received.map Delivery.range)) := by
  induction received with
  | nil => simp [acceptedOf, rangesOf, total]
  | cons delivery received ih =>
      rw [List.forall_mem_cons] at h
      have ih := ih h.2
      simp only [acceptedOf, total, rangesOf, List.map_cons, List.sum_cons, List.filter_cons,
        Delivery.accepted] at *
      by_cases hown : delivery.range.session = session
      · simp [hown, h.1 hown, ih]
      · cases delivery.answer <;> simp [hown, ih]

end Accepted

namespace Peer

variable {peer next : Peer} {action : Action}

theorem Step.endOf_eq (step : peer.Step action next) (h : action.isFinalize = false)
    (id : SessionId) (extent : Extent) :
    next.ledger.endOf id extent = peer.ledger.endOf id extent := by
  cases step with
  | finalize => cases h
  | _ => rfl

theorem Sound.consecutive_handed (sound : peer.Sound) (action : Action) :
    Consecutive peer.session (peer.taken + 1)
      ((peer.handed action).filter fun range => !range.isEmpty)
      ((peer.perform action).taken + 1) := by
  have step := sound.step action
  generalize peer.perform action = next at step
  cases step with
  | idle exhausted upToDate =>
      cases action with
      | take =>
          have hempty : peer.take.1 = .empty peer.session := by simp [Peer.take, upToDate rfl]
          simpa [handed, hempty, CreationRange.empty, CreationRange.isEmpty] using .nil _
      | _ => exact .nil _
  | take fresh =>
      have hpos : 0 < peer.generated - peer.taken := Nat.sub_pos_of_lt fresh
      have hspan : peer.take.1 =
          .ofSpan peer.session (peer.taken + 1) (peer.generated - peer.taken) := by
        simp [Peer.take, fresh]
      have hstop : peer.taken + 1 + (peer.generated - peer.taken) = peer.generated + 1 := by omega
      have hfilter : (peer.handed .take).filter (fun range => !range.isEmpty) =
          [.ofSpan peer.session (peer.taken + 1) (peer.generated - peer.taken)] := by
        simp [handed, hspan, CreationRange.isEmpty, CreationRange.ofSpan, hpos.ne']
      rw [hfilter]
      exact .cons hpos (hstop ▸ .nil _)
  | _ => exact .nil _

end Peer

namespace Member

variable {m : Member} {log : List CreationRange} {range : CreationRange} {action : Action}

/-- What a member has of its own session and of the log.  The ranges of its session go on from
those in the log to those that wait, up to what it took. -/
structure Tracks (log : List CreationRange) (m : Member) : Prop where
  sound : m.peer.Sound
  received : m.received.map Delivery.range <+: log
  finalized : ∀ id, m.peer.ledger.endOf id .finalized = 1 + acceptedOf id m.received
  sent : Consecutive m.peer.session 1 (rangesOf m.peer.session log ++ m.waiting) (m.peer.taken + 1)

theorem tracks_ofPeer {session : SessionId} {capacity : Nat} {peer : Peer}
    (created : Peer.Created session capacity peer) : (ofPeer peer).Tracks [] where
  sound := created.sound
  received := List.nil_prefix
  finalized := by
    intro id
    have htail : peer.ledger.tail? id = none := by
      rw [created.eq]
      refine Option.bind_eq_none_iff.2 fun i _ => ?_
      simp [Peer.ofSession, Ledger.empty, Tiling.cluster?, Tiling.empty]
    simp [ofPeer, Ledger.endOf, htail, acceptedOf]
  sent := by
    rw [created.eq]
    exact .nil 1

namespace Tracks

theorem act (tracks : m.Tracks log) (h : action.isFinalize = false) :
    (m.act action).Tracks log := by
  have step := tracks.sound.step action
  have handed := tracks.sound.consecutive_handed action
  constructor
  case sound => exact step.sound tracks.sound
  case received => exact tracks.received
  case finalized =>
    intro id
    simpa [Member.act, step.endOf_eq h id .finalized] using tracks.finalized id
  case sent =>
    simp only [Member.act, step.session_eq, ← List.append_assoc]
    exact tracks.sent.append handed

theorem sequence (tracks : m.Tracks log) {rest : List CreationRange}
    (h : m.waiting = range :: rest) : { m with waiting := rest }.Tracks (log ++ [range]) := by
  have hown : range.session = m.peer.session := tracks.sent.session_eq range (by simp [h])
  constructor
  case sound => exact tracks.sound
  case received => exact tracks.received.trans (List.prefix_append ..)
  case finalized => exact tracks.finalized
  case sent => simpa [rangesOf_singleton hown, h] using tracks.sent

theorem sequence_other (tracks : m.Tracks log) (h : range.session ≠ m.peer.session) :
    m.Tracks (log ++ [range]) := by
  constructor
  case sound => exact tracks.sound
  case received => exact tracks.received.trans (List.prefix_append ..)
  case finalized => exact tracks.finalized
  case sent => simpa [rangesOf_singleton_of_ne h] using tracks.sent

theorem log_eq (tracks : m.Tracks log) (h : m.next? log = some range) :
    ∃ rest, log = m.received.map Delivery.range ++ range :: rest := by
  obtain ⟨rest, rfl⟩ := tracks.received
  cases rest with
  | nil => simp [next?] at h
  | cons next rest => exact ⟨rest, by simp_all [next?]⟩

theorem deliver (tracks : m.Tracks log) (h : m.next? log = some range) :
    (m.deliver range).Tracks log := by
  have step := tracks.sound.step (.finalize range)
  obtain ⟨rest, hlog⟩ := tracks.log_eq h
  constructor
  case sound => exact step.sound tracks.sound
  case received => exact ⟨rest, by simp [Member.deliver, hlog]⟩
  case finalized =>
    intro id
    have hfinalized := tracks.finalized id
    cases hfinalize : m.peer.ledger.finalize range with
    | error fault =>
        simpa [Member.deliver, Peer.perform, Peer.answer, Peer.finalize, hfinalize, acceptedOf,
          Delivery.accepted, Except.map, Except.toOption] using hfinalized
    | ok ledger =>
        have hledger : (m.deliver range).peer.ledger = ledger := by
          simp [Member.deliver, Peer.perform, Peer.finalize, hfinalize, Except.toOption]
        have haccepted : acceptedOf id (m.deliver range).received =
            acceptedOf id m.received + if range.session = id then range.count else 0 := by
          simp [Member.deliver, Peer.answer, Peer.finalize, hfinalize, acceptedOf,
            Delivery.accepted, Except.map]
        rw [hledger, tracks.sound.ledger.endOf_finalize hfinalize id, hfinalized, haccepted,
          Nat.add_assoc]
  case sent =>
    have hsent := tracks.sent
    cases hfinalize : m.peer.ledger.finalize range <;>
      simpa [Member.deliver, Peer.perform, Peer.finalize, hfinalize, Except.toOption] using hsent

end Tracks

end Member

namespace Network

variable {net : Network} {i j : Nat} {m n : Member} {f : Member → Member}

structure Tracked (net : Network) : Prop where
  members : ∀ {i : Nat} {m : Member}, net.members[i]? = some m → m.Tracks net.log
  distinct : ∀ {i j : Nat} {m n : Member}, net.members[i]? = some m →
    net.members[j]? = some n → m.peer.session = n.peer.session → i = j
  log : ∀ id, ∃ stop, Consecutive id 1 (rangesOf id net.log) stop

theorem getElem?_modify_cases (h : (net.members.modify i f)[j]? = some n) :
    (i = j ∧ ∃ m, net.members[j]? = some m ∧ n = f m) ∨ i ≠ j ∧ net.members[j]? = some n := by
  rw [List.getElem?_modify] at h
  by_cases hij : i = j
  · obtain ⟨m, hm, hn⟩ := Option.map_eq_some_iff.1 h
    exact .inl ⟨hij, m, hm, by simpa [hij] using hn.symm⟩
  · exact .inr ⟨hij, by simpa [hij] using h⟩

namespace Tracked

theorem modify (tracked : net.Tracked) {log : List CreationRange}
    (keeps : ∀ m, net.members[i]? = some m → (f m).Tracks log ∧ (f m).peer.session = m.peer.session)
    (others : ∀ (j : Nat) (m : Member), i ≠ j → net.members[j]? = some m → m.Tracks log)
    (hlog : ∀ id, ∃ stop, Consecutive id 1 (rangesOf id log) stop) :
    ({ members := net.members.modify i f, log } : Network).Tracked := by
  have hsession : ∀ {j : Nat} {n : Member}, (net.members.modify i f)[j]? = some n →
      ∃ m, net.members[j]? = some m ∧ n.peer.session = m.peer.session := by
    intro j n hn
    rcases getElem?_modify_cases hn with ⟨rfl, m, hm, rfl⟩ | ⟨-, hn⟩
    · exact ⟨m, hm, (keeps m hm).2⟩
    · exact ⟨n, hn, rfl⟩
  constructor
  case members =>
    intro j n hn
    rcases getElem?_modify_cases hn with ⟨rfl, m, hm, rfl⟩ | ⟨hij, hn⟩
    · exact (keeps m hm).1
    · exact others j n hij hn
  case distinct =>
    intro j k n o hn ho heq
    obtain ⟨n', hn', hsn⟩ := hsession hn
    obtain ⟨o', ho', hso⟩ := hsession ho
    exact tracked.distinct hn' ho' (by rw [← hsn, ← hso, heq])
  case log => exact hlog

theorem step (tracked : net.Tracked) (event : Event) : (net.step event).Tracked := by
  cases event with
  | act i action =>
      cases h : action.isFinalize with
      | true => simpa [Network.step, h] using tracked
      | false =>
          simp only [Network.step, h, Bool.false_eq_true, if_false]
          refine tracked.modify (fun m hm => ?_) (fun j m _ hm => tracked.members hm) tracked.log
          have tracks := tracked.members hm
          exact ⟨tracks.act h, (tracks.sound.step action).session_eq⟩
  | sequence i =>
      cases h : net.members[i]?.bind fun m => m.waiting.head? with
      | none => simpa [Network.step, h] using tracked
      | some range =>
          obtain ⟨m, hm, hhead⟩ := Option.bind_eq_some_iff.1 h
          obtain ⟨rest, hwaiting⟩ := List.head?_eq_some_iff.1 hhead
          have tracks := tracked.members hm
          have hown : range.session = m.peer.session :=
            tracks.sent.session_eq range (by simp [hwaiting])
          simp only [Network.step, h]
          refine tracked.modify (fun n hn => ?_) (fun j n hij hn => ?_) (fun id => ?_)
          · obtain rfl : m = n := Option.some.inj (hm.symm.trans hn)
            simpa [hwaiting] using tracks.sequence hwaiting
          · refine (tracked.members hn).sequence_other fun heq => ?_
            exact hij (tracked.distinct hm hn (hown.symm.trans heq))
          · by_cases hid : range.session = id
            · have sent := (tracks.sequence hwaiting).sent
              rw [← hid, hown]
              obtain ⟨stop, hstop, -⟩ := sent.of_append
              exact ⟨stop, hstop⟩
            · simpa [rangesOf_singleton_of_ne hid] using tracked.log id
  | deliver i =>
      cases h : net.members[i]?.bind fun m => m.next? net.log with
      | none => simpa [Network.step, h] using tracked
      | some range =>
          obtain ⟨m, hm, hnext⟩ := Option.bind_eq_some_iff.1 h
          simp only [Network.step, h]
          refine tracked.modify (fun n hn => ?_) (fun j n _ hn => tracked.members hn) tracked.log
          obtain rfl : m = n := Option.some.inj (hm.symm.trans hn)
          have tracks := tracked.members hm
          exact ⟨tracks.deliver hnext, (tracks.sound.step (.finalize range)).session_eq⟩

theorem run (tracked : net.Tracked) (events : List Event) : (net.run events).Tracked := by
  induction events generalizing net with
  | nil => exact tracked
  | cons event events ih => exact ih (tracked.step event)

end Tracked

theorem tracked_ofPeers {peers : List Peer}
    (created : ∀ peer ∈ peers, ∃ session capacity, Peer.Created session capacity peer)
    (distinct : (peers.map Peer.session).Nodup) : (ofPeers peers).Tracked where
  members := by
    intro i m hm
    obtain ⟨peer, hpeer, rfl⟩ := List.mem_map.1 (List.mem_of_getElem? hm)
    obtain ⟨session, capacity, h⟩ := created peer hpeer
    exact Member.tracks_ofPeer h
  distinct := by
    intro i j m n hm hn heq
    have hsession : ∀ {k : Nat} {o : Member}, (ofPeers peers).members[k]? = some o →
        (peers.map Peer.session)[k]? = some o.peer.session := by
      intro k o ho
      obtain ⟨peer, hpeer, rfl⟩ := Option.map_eq_some_iff.1 ((List.getElem?_map ..).symm.trans ho)
      simp [hpeer, Member.ofPeer]
    have hi := hsession hm
    have hj := hsession hn
    rw [← heq, ← hi] at hj
    obtain ⟨hlt, -⟩ := List.getElem?_eq_some_iff.1 hi
    exact (List.getElem?_inj hlt distinct).1 hj.symm
  log := fun id => ⟨1, .nil 1⟩

end Network

/-! ## The next range of a session -/

namespace Peer

variable {peer : Peer} {range : CreationRange} {ids : Span}

/-- What can come of a range that goes on where its session was left.  It has ids, it is not out
of order, and it is refused only for want of generations, final ids or positions. -/
inductive NextOutcome (peer : Peer) (range : CreationRange) : Except Fault Peer → Prop
  | accepted (next : Peer) : NextOutcome peer range (.ok next)
  | collision (other : SessionId) :
      NextOutcome peer range (.error (.collision range.session other))
  | generationsTooLarge {ids : Span} (hids : range.ids = some ids)
      (exceeds : idLimit < ids.first + ids.count) :
      NextOutcome peer range (.error (.malformedRange range.session .generationsTooLarge))
  | noRoom {ids : Span} (hids : range.ids = some ids)
      (exceeds : idLimit < peer.ledger.endOf range.session .reserved +
          peer.ledger.roomFor range.session ids.count ∨
        idLimit < peer.ledger.tiling.nextBase + peer.ledger.roomFor range.session ids.count) :
      NextOutcome peer range (.error (.malformedRange range.session .noRoom))

theorem nextOutcome_finalize (hids : range.ids = some ids) (hcount : 0 < ids.count)
    (hfirst : 0 < ids.first) (hnext : ids.first = peer.ledger.endOf range.session .finalized) :
    peer.NextOutcome range (peer.finalize range) := by
  cases hrefusal : peer.ledger.refusal? range.session ids with
  | none =>
      simp only [finalize, Ledger.finalize, hids, hrefusal]
      exact .accepted _
  | some fault =>
      simp only [finalize, Ledger.finalize, hids, hrefusal]
      unfold Ledger.refusal? at hrefusal
      rw [if_neg hcount.ne', if_neg hfirst.ne', if_neg (not_not_intro hnext)] at hrefusal
      split_ifs at hrefusal with hlarge hfits
      · cases hrefusal
        exact .generationsTooLarge hids hlarge
      · unfold Ledger.roomRefusal? at hrefusal
        split_ifs at hrefusal with hroom
        · cases hrefusal
          exact .noRoom hids hroom
        · obtain ⟨other, -, rfl⟩ := Option.map_eq_some_iff.1 hrefusal
          exact .collision other

end Peer

namespace Member

variable {m : Member} {log : List CreationRange} {range : CreationRange}

theorem Tracks.nextOutcome (tracks : m.Tracks log) {stop : Nat}
    (ordered : Consecutive range.session 1 (rangesOf range.session log) stop)
    (hnext : m.next? log = some range)
    (clean : ∀ delivery ∈ m.received, delivery.range.session = range.session →
      delivery.answer = .ok ()) :
    m.peer.NextOutcome range (m.peer.finalize range) := by
  obtain ⟨rest, hlog⟩ := tracks.log_eq hnext
  have hsplit : rangesOf range.session log =
      rangesOf range.session (m.received.map Delivery.range) ++
        range :: rangesOf range.session rest := by
    rw [hlog]
    simp [rangesOf]
  rw [hsplit] at ordered
  obtain ⟨next, before, after⟩ := ordered.of_append
  have hfinalized := tracks.finalized range.session
  rw [acceptedOf_eq clean, ← before.stop_eq] at hfinalized
  have hstart := before.stop_eq
  generalize hsession : range.session = session at after hfinalized
  cases after with
  | cons pos rest' =>
      exact Peer.nextOutcome_finalize rfl pos (by simp only; omega) hfinalized.symm

theorem Tracks.finalOf?_iff (tracks : m.Tracks log) (id : SessionId) (g : Nat) :
    (∃ final, m.peer.ledger.finalOf? id .finalized g = some final) ↔
      1 ≤ g ∧ g ≤ acceptedOf id m.received := by
  have sound := tracks.sound.ledger
  have hend := tracks.finalized id
  constructor
  · rintro ⟨final, h⟩
    have := Ledger.lt_endOf_of_finalOf? sound.linked sound.laid h
    exact ⟨Ledger.one_le_of_finalOf? sound.linked sound.laid h, by omega⟩
  · rintro ⟨hpos, hle⟩
    exact Ledger.exists_finalOf? sound.linked sound.laid hpos (by omega)

theorem Tracks.acceptedOf_le_taken (tracks : m.Tracks log) :
    acceptedOf m.peer.session m.received ≤ m.peer.taken := by
  obtain ⟨rest, hlog⟩ := tracks.received
  have haccepted := acceptedOf_le m.peer.session m.received
  have htaken := tracks.sent.stop_eq
  rw [← hlog] at htaken
  simp only [total, rangesOf_append, List.map_append, List.sum_append] at haccepted htaken
  omega

end Member

namespace Network

theorem next_in_order {peers : List Peer}
    (created : ∀ peer ∈ peers, ∃ session capacity, Peer.Created session capacity peer)
    (distinct : (peers.map Peer.session).Nodup) (events : List Event) :
    let net := (ofPeers peers).run events
    ∀ m ∈ net.members,
      (∀ range, m.next? net.log = some range →
        (∀ delivery ∈ m.received, delivery.range.session = range.session →
          delivery.answer = .ok ()) →
        m.peer.NextOutcome range (m.peer.finalize range)) ∧
      (∀ id g, (∃ final, m.peer.ledger.finalOf? id .finalized g = some final) ↔
        1 ≤ g ∧ g ≤ acceptedOf id m.received) ∧
      acceptedOf m.peer.session m.received + 1 ≤ m.peer.taken + 1 ∧
      m.peer.taken + 1 ≤ m.peer.generated + 1 ∧
      Consecutive m.peer.session 1 (rangesOf m.peer.session net.log ++ m.waiting)
        (m.peer.taken + 1) := by
  intro net m hm
  have tracked : net.Tracked := (tracked_ofPeers created distinct).run events
  obtain ⟨i, hi⟩ := List.mem_iff_getElem?.1 hm
  have tracks := tracked.members hi
  refine ⟨fun range hnext clean => ?_, tracks.finalOf?_iff,
    Nat.succ_le_succ tracks.acceptedOf_le_taken, Nat.succ_le_succ tracks.sound.taken_le,
    tracks.sent⟩
  obtain ⟨stop, ordered⟩ := tracked.log range.session
  exact tracks.nextOutcome ordered hnext clean

theorem next_in_order_two :
    let first : SessionId := Position.toStableId ⟨5, by decide⟩
    let second : SessionId := Position.toStableId ⟨900, by decide⟩
    let net := (ofPeers [.ofSession first, .ofSession second]).run
      [.act 0 .generate, .act 0 .take, .act 1 .generate, .act 1 .take, .sequence 1, .sequence 0,
        .deliver 0, .deliver 0, .act 0 .generate, .act 0 .take, .act 0 .generate, .sequence 0,
        .deliver 1, .deliver 1]
    ∃ m ∈ net.members, m.next? net.log = some (.ofSpan first 2 1) ∧
      m.peer.NextOutcome (.ofSpan first 2 1) (m.peer.finalize (.ofSpan first 2 1)) ∧
      acceptedOf first m.received = 1 ∧ acceptedOf m.peer.session m.received ≤ m.peer.taken := by
  intro first second net
  have hcreated : ∀ peer ∈ [Peer.ofSession first, Peer.ofSession second],
      ∃ session capacity, Peer.Created session capacity peer := by
    simpa using ⟨⟨_, _, Peer.Created.standard first⟩, ⟨_, _, Peer.Created.standard second⟩⟩
  obtain ⟨m, hm, hnext, hclean, haccepted⟩ : ∃ m ∈ net.members,
      m.next? net.log = some (.ofSpan first 2 1) ∧
      (∀ delivery ∈ m.received, delivery.range.session = first → delivery.answer = .ok ()) ∧
      acceptedOf first m.received = 1 := by decide +kernel
  obtain ⟨houtcome, -, hown, -⟩ := next_in_order hcreated (by decide +kernel) _ m hm
  exact ⟨m, hm, hnext, houtcome _ hnext hclean, haccepted, Nat.le_of_succ_le_succ hown⟩

end Network

end CompactIds
