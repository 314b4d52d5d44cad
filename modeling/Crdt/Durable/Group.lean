import Crdt.Durable.Log

/-! Subscribers of a group.

Publishing appends to the log and offers the event to every registered subscriber under one lock, and
subscribing reads the log and registers the subscriber under the same lock. Everything else that happens to a
connection happens between these: its handshake writes the replay, its writer takes one message after the other
from the queue, and it may be closed at any time. A subscriber that cannot take an event is closed while the
lock is still held, so one that is open has missed nothing (`subscribers_gap_free`), but for a moment
`queuedBytes` is more than what is queued (`counted_not_queued`). -/
namespace Crdt.Durable

open Wire Replica List Option System

/-! ### Requests for identities -/

/-- The loop of `validateMerkleIdentityRequest`, after an identity or from the start. -/
def identitiesFit (maxBytes : Nat) (maxReplicaBytes : Int) : Option Tag → Nat → List Tag → Bool
  | _, _, [] => true
  | previous, used, identity :: rest =>
    validMerkleHLC identity maxReplicaBytes && !(previous.any fun previous => previous.compare identity != .lt) &&
      used + tagSize identity ≤ maxBytes &&
      identitiesFit maxBytes maxReplicaBytes (some identity) (used + (tagSize identity).toNat) rest

def validateMerkleIdentityRequest (identities : List Tag) (maxLeaves maxBytes : UInt64) (maxReplicaBytes : Int) : Bool :=
  maxLeaves ≠ 0 && maxBytes ≠ 0 && identities.length ≤ maxLeaves.toNat &&
    identitiesFit maxBytes.toNat maxReplicaBytes none 0 identities

/-! ### One connection -/

/-- Where `writeLoop` is. -/
inductive Writer
  | off
  | idle
  /-- It has received a message and not yet counted it off. -/
  | holds (encoded : List UInt8)
  | writes (encoded : List UInt8)

/-- The message that has left the queue. -/
def Writer.message : Writer → List (List UInt8)
  | off | idle => []
  | holds encoded | writes encoded => [encoded]

/-- A connection with its subscription. `replayed`, `live`, `written` and `sent` record what it has been given:
events of the replay and live ones, and the messages for them that the connection has taken. -/
structure ServerPeer where
  request : Request
  highWater : Nat
  /-- The tags of the snapshot, for the Merkle protocol. -/
  snapshot : List Tag := []
  /-- The replay is known. -/
  answered : Bool := true
  /-- What is still to be written of the replay. -/
  replay : List Event := []
  outbound : List (List UInt8) := []
  queuedBytes : Int := 0
  writer : Writer := .off
  closed : Bool := false
  /-- A key of the group's map. -/
  registered : Bool := true
  replayed : List Event := []
  live : List Event := []
  written : List (List UInt8) := []
  sent : List (List UInt8) := []

namespace ServerPeer

variable (p : ServerPeer) (limits : RelayLimits)

def marshal (event : Event) : Except Err (List UInt8) :=
  marshalEventForSubprotocol p.request.protocol event

/-- `enqueue`; `none` if it refuses. -/
def enqueue (p : ServerPeer) (event : Event) : Option ServerPeer :=
  match p.marshal event with
  | .error _ => none
  | .ok encoded =>
    if p.closed || encoded.length > limits.maxQueuedBytes || p.queuedBytes > limits.maxQueuedBytes - encoded.length then
      none
    else if p.outbound.length < limits.maxQueuedEvents then
      some {p with
        outbound := p.outbound ++ [encoded]
        queuedBytes := p.queuedBytes + encoded.length
        live := p.live ++ [event]}
    else none

/-- The loop of `publish` for one subscriber. -/
def offer (event : Event) (p : ServerPeer) : ServerPeer :=
  if !p.registered then p
  else (p.enqueue limits event).getD {p with closed := true, registered := false}

/-- What the handshake or the writer of a connection does next. -/
inductive Turn
  /-- The subscriber has named what it lacks, or it has the root of the snapshot. -/
  | readRequest (identities : Option (List Tag)) (refuses : Option Err)
  | writeEvent (ok : Bool)
  | startLoop
  | receive
  | countOff
  | write (ok : Bool)
  | close
  | remove

/-- The identities must be of the snapshot; their events are read from the log as it is now. -/
def readRequest (log : Log) (p : ServerPeer) (refuses : Option Err) :
    Option (List Tag) → ServerPeer
  | none => {p with answered := true}
  | some identities =>
    if validateMerkleIdentityRequest identities limits.maxMerkleLeaves limits.maxMerkleBytes limits.maxActorBytes &&
        identities.all p.snapshot.contains then
      match log.merkleEvents identities refuses with
      | .error _ => {p with closed := true}
      | .ok events => {p with request := .merkle identities, replay := events, answered := true}
    else {p with closed := true}

def writeEvent (ok : Bool) : ServerPeer :=
  match p.replay with
  | [] => p
  | event :: rest =>
    match p.marshal event, ok with
    | .ok encoded, true =>
      {p with replay := rest, replayed := p.replayed ++ [event], written := p.written ++ [encoded]}
    | _, _ => {p with closed := true}

/-- The start of `writeLoop`, unless the connection has been closed in the meantime. -/
def startLoop : ServerPeer :=
  match p.writer with
  | .off => if p.answered && p.replay.isEmpty && !p.closed then {p with writer := .idle} else p
  | _ => p

def receive : ServerPeer :=
  match p.writer, p.outbound with
  | .idle, encoded :: rest => {p with outbound := rest, writer := .holds encoded}
  | _, _ => p

/-- The locked section of `writeLoop`. -/
def countOff : ServerPeer :=
  match p.writer with
  | .holds encoded => {p with queuedBytes := p.queuedBytes - encoded.length, writer := .writes encoded}
  | _ => p

def write (ok : Bool) : ServerPeer :=
  match p.writer with
  | .writes encoded =>
    if ok then {p with writer := .idle, sent := p.sent ++ [encoded]} else {p with writer := .idle, closed := true}
  | _ => p

/-- A connection is removed after it has been closed. -/
def turn (log : Log) (p : ServerPeer) : Turn → ServerPeer
  | .readRequest identities refuses => if p.answered then p else p.readRequest limits log refuses identities
  | .writeEvent ok => if p.answered then p.writeEvent ok else p
  | .startLoop => p.startLoop
  | .receive => p.receive
  | .countOff => p.countOff
  | .write ok => p.write ok
  | .close => {p with closed := true}
  | .remove => if p.closed then {p with registered := false} else p

end ServerPeer

/-! ### The group -/

structure System where
  log : Log := []
  peers : List ServerPeer := []

inductive Action
  | publish (data : List UInt8) (tag : Tag) (refuses : Option Err)
  | subscribe (request : Request) (refuses : Option Err)
  | subscribeMerkle (refuses : Option Err)
  | turn (peer : Nat) (turn : ServerPeer.Turn)

namespace System

def publish (e : Env) (r : Relay) (s : System) (data : List UInt8) (tag : Tag) (refuses : Option Err) : System :=
  match r.accept e data with
  | .error _ => s
  | .ok change =>
    match s.log.append r.merkleEnabled change tag refuses with
    | (log, .ok ⟨event, false⟩) => {log, peers := s.peers.map (ServerPeer.offer r.limits event)}
    | (log, _) => {s with log}

def subscribe (s : System) (request : Request) (refuses : Option Err) : System :=
  let read := match request with
    | .cursor resume => s.log.replay resume refuses
    | .stateVector vector => s.log.catchUp vector refuses
    | .merkle _ => .error .invalidWire
  match read with
  | .error _ => s
  | .ok (replay, highWater) => {s with peers := s.peers ++ [{request, highWater := highWater.toNat, replay}]}

def subscribeMerkle (r : Relay) (s : System) (refuses : Option Err) : System :=
  if !r.merkleEnabled || refuses.isSome then s
  else {s with peers := s.peers ++ [{
    request := .merkle []
    highWater := s.log.highWater.toNat
    snapshot := s.log.map Event.hlc
    answered := false }]}

def step (e : Env) (r : Relay) (s : System) : Action → System
  | .publish data tag refuses => s.publish e r data tag refuses
  | .subscribe request refuses => s.subscribe request refuses
  | .subscribeMerkle refuses => s.subscribeMerkle r refuses
  | .turn peer turn => {s with peers := s.peers.modify peer fun p => p.turn r.limits s.log turn}

def run (e : Env) (r : Relay) (actions : List Action) : System := actions.foldl (step e r) {}

end System

/-! ### What an open subscriber has been given -/

theorem Log.Exact.filter_take {log : Log} (h : Log.Exact true log) {k : Nat} {identities : List Tag}
    (hids : ∀ identity ∈ identities, identity ∈ (log.take k).map Event.hlc) :
    log.filter (Request.merkle identities).wants = (log.take k).filter (Request.merkle identities).wants := by
  have hlater : (log.drop k).filter (Request.merkle identities).wants = [] := by
    refine filter_eq_nil_iff.mpr fun event hevent hwants => ?_
    rw [Request.wants, contains_iff_mem] at hwants
    obtain ⟨earlier, hearlier, htag⟩ := mem_map.mp (hids _ hwants)
    have hsplit := h.ascending rfl
    rw [← take_append_drop k log, pairwise_append] at hsplit
    have hlt := hsplit.2.2 earlier hearlier event hevent
    rw [htag] at hlt
    exact lt_irrefl _ hlt
  rw [← append_nil (List.filter _ (log.take k)), ← hlater, ← filter_append, take_append_drop]

namespace ServerPeer

/-- The bytes that are counted: those in the queue, and the message that the writer holds. -/
def counted (p : ServerPeer) : Nat :=
  (p.outbound.map List.length).sum + match p.writer with
    | .holds encoded => encoded.length
    | _ => 0

/-- The replay and the live events are those of the log, and each has its message. -/
structure Streams (merkle : Bool) (log : Log) (p : ServerPeer) : Prop where
  registered : p.registered = true
  highWater : p.highWater ≤ log.length
  resume : ∀ resume, p.request = .cursor resume → resume.toNat ≤ p.highWater
  live : p.live = log.drop p.highWater
  replay : p.replayed ++ p.replay = ((log.take p.highWater).filter p.request.wants).map p.request.view
  snapshot : p.answered = false → merkle = true ∧ p.request = .merkle [] ∧ p.replayed = [] ∧
    p.snapshot = (log.take p.highWater).map Event.hlc
  written : p.replayed.map p.marshal = p.written.map .ok
  sent : p.live.map p.marshal = (p.sent ++ (p.writer.message ++ p.outbound)).map .ok
  /-- The live events come after the replay. -/
  behind : p.replay ≠ [] ∨ p.answered = false → p.writer = .off ∧ p.sent = []

structure Sound (limits : RelayLimits) (merkle : Bool) (log : Log) (p : ServerPeer) : Prop where
  queued : p.queuedBytes = p.counted
  bounded : p.queuedBytes ≤ limits.maxQueuedBytes
  streams : p.closed = false → p.Streams merkle log

section Steps
variable {limits : RelayLimits} {merkle : Bool} {log : Log} {p : ServerPeer} {event : Event}

theorem Sound.closed (h : p.Sound limits merkle log) {p' : ServerPeer} (hbytes : p'.queuedBytes = p.queuedBytes)
    (hcounted : p'.counted = p.counted) (hclosed : p'.closed = true) : p'.Sound limits merkle log where
  queued := by rw [hbytes, hcounted, h.queued]
  bounded := by rw [hbytes]; exact h.bounded
  streams hopen := by rw [hclosed] at hopen; cases hopen

/-- A subscriber takes a new event, or it is closed. -/
theorem Sound.offer (h : p.Sound limits merkle log) (event : Event) :
    (p.offer limits event).Sound limits merkle (log ++ [event]) := by
  have hsame : p.closed = true → p.Sound limits merkle (log ++ [event]) := fun hclosed =>
    ⟨h.queued, h.bounded, fun hopen => by rw [hclosed] at hopen; cases hopen⟩
  have hdropped : Sound limits merkle (log ++ [event]) {p with closed := true, registered := false} :=
    ⟨h.queued, h.bounded, nofun⟩
  unfold ServerPeer.offer
  by_cases hregistered : p.registered = true
  swap
  · rw [if_pos (by simpa using hregistered)]
    by_cases hclosed : p.closed = true
    · exact hsame hclosed
    · exact absurd (h.streams (by simpa using hclosed)).registered hregistered
  rw [if_neg (by simp [hregistered])]
  unfold enqueue
  split
  · exact hdropped
  next encoded hencoded =>
  split_ifs with hfull hroom
  · exact hdropped
  swap
  · exact hdropped
  simp only [Bool.or_eq_true, decide_eq_true_eq, not_or, Bool.not_eq_true] at hfull
  have hs := h.streams hfull.1.1
  refine ⟨?_, ?_, fun _ => ⟨hs.registered, ?_, hs.resume, ?_, ?_, fun hno => ?_, hs.written, ?_, hs.behind⟩⟩
  · show p.queuedBytes + encoded.length = _
    rw [getD_some, h.queued]
    simp only [counted, map_append, sum_append, map_cons, map_nil, sum_singleton]
    omega
  · show p.queuedBytes + encoded.length ≤ _
    omega
  · show p.highWater ≤ (log ++ [event]).length
    rw [length_append]
    exact hs.highWater.trans (Nat.le_add_right _ _)
  · show p.live ++ [event] = (log ++ [event]).drop p.highWater
    rw [drop_append_of_le_length hs.highWater, hs.live]
  · show p.replayed ++ p.replay = (((log ++ [event]).take p.highWater).filter p.request.wants).map p.request.view
    rw [take_append_of_le_length hs.highWater, hs.replay]
  · obtain ⟨hmerkle, hrequest, hnone, hsnapshot⟩ := hs.snapshot hno
    refine ⟨hmerkle, hrequest, hnone, ?_⟩
    show p.snapshot = ((log ++ [event]).take p.highWater).map Event.hlc
    rw [take_append_of_le_length hs.highWater, hsnapshot]
  show (p.live ++ [event]).map p.marshal =
    (p.sent ++ (p.writer.message ++ (p.outbound ++ [encoded]))).map .ok
  have hsent := hs.sent
  simp only [map_append, map_cons, map_nil] at hsent ⊢
  simp only [hsent, hencoded, append_assoc]

section
variable (h : p.Sound limits merkle log)
include h

/-- The replay is read after the lock has been given up, and still it is that of the snapshot. -/
theorem Sound.readRequest (hlog : Log.Exact merkle log)
    (hno : p.answered = false) (refuses : Option Err) (identities : Option (List Tag)) :
    (p.readRequest limits log refuses identities).Sound limits merkle log := by
  unfold ServerPeer.readRequest
  split
  · refine ⟨h.queued, h.bounded, fun hopen => ?_⟩
    have hs := h.streams hopen
    exact ⟨hs.registered, hs.highWater, hs.resume, hs.live, hs.replay, nofun, hs.written, hs.sent,
      fun _ => hs.behind (.inr hno)⟩
  next identities =>
  split_ifs with hvalid
  swap
  · exact h.closed rfl rfl rfl
  unfold Log.merkleEvents
  cases refuses with
  | some err => exact h.closed rfl rfl rfl
  | none =>
    split_ifs
    · exact h.closed rfl rfl rfl
    refine ⟨h.queued, h.bounded, fun hopen => ?_⟩
    have hs := h.streams hopen
    obtain ⟨rfl, hrequest, hnone, hsnapshot⟩ := hs.snapshot hno
    have hids : ∀ identity ∈ identities, identity ∈ (log.take p.highWater).map Event.hlc := by
      intro identity hidentity
      rw [Bool.and_eq_true, List.all_eq_true] at hvalid
      rw [← hsnapshot]
      exact contains_iff_mem.mp (hvalid.2 identity hidentity)
    have hmarshal : marshal {p with request := .merkle identities} = p.marshal := by
      unfold marshal
      rw [hrequest]
      rfl
    refine ⟨hs.registered, hs.highWater, nofun, hs.live, ?_, nofun, ?_, ?_, fun _ => hs.behind (.inr hno)⟩
    · show p.replayed ++ log.filter (Request.merkle identities).wants = _
      rw [hnone, hlog.filter_take hids]
      exact (map_id _).symm
    · show p.replayed.map (marshal {p with request := .merkle identities}) = _
      rw [hmarshal]
      exact hs.written
    show p.live.map (marshal {p with request := .merkle identities}) = _
    rw [hmarshal]
    exact hs.sent

theorem Sound.writeEvent (hyes : p.answered = true) (ok : Bool) : (p.writeEvent ok).Sound limits merkle log := by
  unfold ServerPeer.writeEvent
  split
  · exact h
  next event rest hreplay =>
  split
  · next encoded hencoded =>
    refine ⟨h.queued, h.bounded, fun hopen => ?_⟩
    have hs := h.streams hopen
    have hbehind := hs.behind (.inl (hreplay ▸ cons_ne_nil event rest))
    refine ⟨hs.registered, hs.highWater, hs.resume, hs.live, ?_, fun hno => ?_, ?_, hs.sent, fun _ => hbehind⟩
    · show (p.replayed ++ [event]) ++ rest = _
      rw [append_assoc, singleton_append, ← hreplay]
      exact hs.replay
    · rw [show p.answered = false from hno] at hyes
      cases hyes
    · show (p.replayed ++ [event]).map p.marshal = (p.written ++ [encoded]).map .ok
      rw [map_append, map_append, hs.written, map_singleton, map_singleton, hencoded]
  · exact h.closed rfl rfl rfl

theorem Sound.moved {outbound : List (List UInt8)} {queuedBytes : Int}
    {writer : Writer} {sent : List (List UInt8)} (hle : queuedBytes ≤ p.queuedBytes)
    (hqueued : queuedBytes = counted {p with outbound, writer})
    (hsent : sent ++ (writer.message ++ outbound) = p.sent ++ (p.writer.message ++ p.outbound))
    (hafter : p.closed = false → p.replay = [] ∧ p.answered = true) :
    Sound limits merkle log {p with outbound, queuedBytes, writer, sent} := by
  refine ⟨hqueued, hle.trans h.bounded, fun hopen => ?_⟩
  have hs := h.streams hopen
  obtain ⟨hreplay, hanswered⟩ := hafter hopen
  refine ⟨hs.registered, hs.highWater, hs.resume, hs.live, hs.replay, hs.snapshot, hs.written, ?_, fun hwaits => ?_⟩
  · show p.live.map p.marshal = (sent ++ (writer.message ++ outbound)).map .ok
    rw [hsent]
    exact hs.sent
  cases hwaits with
  | inl hne => exact absurd hreplay hne
  | inr hno => rw [show p.answered = false from hno] at hanswered; cases hanswered

end

theorem Streams.after (h : p.Streams merkle log) (hwriter : p.writer ≠ .off) : p.replay = [] ∧ p.answered = true := by
  by_contra hnot
  rw [not_and_or, Bool.not_eq_true] at hnot
  exact hwriter (h.behind hnot).1

theorem Sound.turn (h : p.Sound limits merkle log) (hlog : Log.Exact merkle log)
    (turn : Turn) : (p.turn limits log turn).Sound limits merkle log := by
  cases turn with
  | readRequest identities refuses =>
    simp only [ServerPeer.turn]
    split_ifs with hyes
    · exact h
    · exact h.readRequest hlog (Bool.not_eq_true _ ▸ hyes) refuses identities
  | writeEvent ok =>
    simp only [ServerPeer.turn]
    split_ifs with hyes
    · exact h.writeEvent hyes ok
    · exact h
  | startLoop =>
    simp only [ServerPeer.turn, startLoop]
    split
    · next hoff =>
      split_ifs with hready
      · simp only [Bool.and_eq_true, List.isEmpty_iff] at hready
        refine h.moved le_rfl ?_ ?_ fun _ => ⟨hready.1.2, hready.1.1⟩
        · rw [h.queued, counted, hoff]
          rfl
        · rw [hoff]
          rfl
      · exact h
    · exact h
  | receive =>
    simp only [ServerPeer.turn, receive]
    split
    · next encoded rest hidle hout =>
      refine h.moved le_rfl ?_ ?_ fun hopen => (h.streams hopen).after (by rw [hidle]; nofun)
      · rw [h.queued]
        simp only [counted, hidle, hout, map_cons, sum_cons]
        omega
      · rw [hidle, hout]
        rfl
    · exact h
  | countOff =>
    simp only [ServerPeer.turn, countOff]
    split
    · next encoded hholds =>
      have hqueued := h.queued
      simp only [counted, hholds] at hqueued
      refine h.moved (by omega) ?_ ?_ fun hopen => (h.streams hopen).after (by rw [hholds]; nofun)
      · simp only [counted]
        omega
      · rw [hholds]
        rfl
    · exact h
  | write ok =>
    simp only [ServerPeer.turn, write]
    split
    · next encoded hwrites =>
      have hqueued : p.queuedBytes = counted {p with writer := .idle} := by
        rw [h.queued, counted, hwrites]
        rfl
      split_ifs
      · refine h.moved le_rfl hqueued ?_ fun hopen => (h.streams hopen).after (by rw [hwrites]; nofun)
        rw [hwrites, append_assoc]
        rfl
      · exact ⟨hqueued, h.bounded, nofun⟩
    · exact h
  | close => exact h.closed rfl rfl rfl
  | remove =>
    simp only [ServerPeer.turn]
    split_ifs with hclosed
    · exact h.closed rfl rfl hclosed
    · exact h

/-- A subscriber has missed an event only if it is closed by now. -/
theorem Sound.offer_live (h : p.Sound limits merkle log) (event : Event) :
    (p.offer limits event).closed = true ∨ (p.offer limits event).live = p.live ++ [event] := by
  unfold ServerPeer.offer
  split_ifs with hregistered
  · left
    by_contra hclosed
    have hyes := (h.streams (by simpa using hclosed)).registered
    rw [hyes] at hregistered
    cases hregistered
  unfold enqueue
  split
  · exact .inl rfl
  split_ifs
  · exact .inl rfl
  · exact .inr rfl
  · exact .inl rfl

theorem turn_live (turn : Turn) : (p.turn limits log turn).live = p.live := by
  cases turn <;> simp only [ServerPeer.turn, startLoop, receive, countOff,
    write, readRequest, writeEvent] <;> (repeat' split) <;> rfl

end Steps

end ServerPeer

/-! ### Runs -/

structure System.Sound (r : Relay) (s : System) : Prop where
  log : Log.Exact r.merkleEnabled s.log
  peers : ∀ p ∈ s.peers, p.Sound r.limits r.merkleEnabled s.log

section Runs
variable {e : Env} {config : Config} {r : Relay} {s : System}

theorem System.publish_cases (h : Log.Exact r.merkleEnabled s.log) (data : List UInt8) (tag : Tag)
    (refuses : Option Err) : s.publish e r data tag refuses = s ∨ ∃ event,
      Log.Exact r.merkleEnabled (s.log ++ [event]) ∧ s.publish e r data tag refuses =
        {log := s.log ++ [event], peers := s.peers.map (ServerPeer.offer r.limits event)} := by
  unfold publish
  split
  · exact .inl rfl
  next change _ =>
  cases h.append_cases change tag refuses with
  | inl hnew =>
    obtain ⟨event, happend, hexact⟩ := hnew
    rw [happend]
    exact .inr ⟨event, hexact, rfl⟩
  | inr hsame =>
    obtain ⟨res, happend, hother⟩ := hsame
    rw [happend]
    split
    · next event heq => exact absurd (congrArg Prod.snd heq) (hother event)
    next heq =>
    cases heq
    exact .inl rfl

theorem System.subscribe_cases (h : Log.Exact r.merkleEnabled s.log) (hlimits : 0 ≤ r.limits.maxQueuedBytes)
    (request : Request) (refuses : Option Err) : s.subscribe request refuses = s ∨ ∃ p : ServerPeer,
      p.Sound r.limits r.merkleEnabled s.log ∧ s.subscribe request refuses = {s with peers := s.peers ++ [p]} := by
  have hsound : (∀ resume, request = .cursor resume → resume.toNat ≤ s.log.length) → ServerPeer.Sound r.limits
      r.merkleEnabled s.log {
        request, highWater := s.log.highWater.toNat, replay := (s.log.filter request.wants).map request.view } := by
    intro hresume
    refine ⟨rfl, hlimits, fun _ => ?_⟩
    rw [h.toNat_highWater]
    refine ⟨rfl, le_rfl, hresume, ?_, ?_, nofun, rfl, rfl, fun _ => ⟨rfl, rfl⟩⟩
    · exact drop_length.symm
    show _ = ((s.log.take s.log.length).filter request.wants).map request.view
    rw [take_length]
    rfl
  unfold subscribe Log.replay Log.catchUp
  cases refuses with
  | some err => cases request <;> exact .inl rfl
  | none =>
    cases request with
    | cursor resume =>
      dsimp only
      split_ifs with hahead
      · exact .inl rfl
      refine .inr ⟨_, hsound fun other heq => ?_, by rw [h.drop_eq_filter]⟩
      cases heq
      rw [← h.toNat_highWater]
      exact UInt64.le_iff_toNat_le.mp (not_lt.mp hahead)
    | stateVector vector =>
      dsimp only
      split_ifs
      · exact .inl rfl
      · exact .inr ⟨_, hsound nofun, rfl⟩
    | merkle identities => exact .inl rfl

theorem System.Sound.subscribeMerkle (h : s.Sound r) (hlimits : 0 ≤ r.limits.maxQueuedBytes) (refuses : Option Err) :
    (s.subscribeMerkle r refuses).Sound r := by
  unfold System.subscribeMerkle
  split_ifs with hno
  · exact h
  rw [Bool.or_eq_true, not_or, Bool.not_eq_true', Bool.not_eq_false] at hno
  refine ⟨h.log, forall_mem_append.mpr ⟨h.peers, forall_mem_singleton.mpr ⟨rfl, hlimits, fun _ => ?_⟩⟩⟩
  rw [h.log.toNat_highWater]
  refine ⟨rfl, le_rfl, nofun, drop_length.symm, ?_, fun _ => ⟨hno.1, rfl, rfl, ?_⟩, rfl, rfl,
    fun _ => ⟨rfl, rfl⟩⟩
  · show [] = ((s.log.take s.log.length).filter (Request.merkle []).wants).map (Request.merkle []).view
    rw [filter_eq_nil_iff.mpr fun event _ => by simp [Request.wants]]
    rfl
  · show s.log.map Event.hlc = (s.log.take s.log.length).map Event.hlc
    rw [take_length]

theorem System.Sound.step (h : s.Sound r) (hlimits : 0 ≤ r.limits.maxQueuedBytes) (action : Action) :
    (s.step e r action).Sound r := by
  cases action with
  | publish data tag refuses =>
    show (s.publish e r data tag refuses).Sound r
    cases publish_cases h.log data tag refuses with
    | inl hsame => rwa [hsame]
    | inr hnew =>
      obtain ⟨event, hexact, heq⟩ := hnew
      rw [heq]
      refine ⟨hexact, fun p hp => ?_⟩
      obtain ⟨q, hq, rfl⟩ := mem_map.mp hp
      exact (h.peers q hq).offer event
  | subscribe request refuses =>
    show (s.subscribe request refuses).Sound r
    cases subscribe_cases h.log hlimits request refuses with
    | inl hsame => rwa [hsame]
    | inr hnew =>
      obtain ⟨p, hp, heq⟩ := hnew
      rw [heq]
      exact ⟨h.log, forall_mem_append.mpr ⟨h.peers, forall_mem_singleton.mpr hp⟩⟩
  | subscribeMerkle refuses => exact h.subscribeMerkle hlimits refuses
  | turn i turn =>
    refine ⟨h.log, fun p hp => ?_⟩
    obtain ⟨j, hj⟩ := mem_iff_getElem?.mp (show p ∈ s.peers.modify i fun p => p.turn r.limits s.log turn from hp)
    rw [getElem?_modify] at hj
    obtain ⟨q, hq, rfl⟩ := map_eq_some_iff.mp hj
    have hsound := h.peers q (mem_of_getElem? hq)
    split_ifs
    · exact hsound.turn h.log turn
    · exact hsound

theorem System.run_sound (hlimits : 0 ≤ r.limits.maxQueuedBytes) (actions : List Action) : (run e r actions).Sound r := by
  have hall : ∀ (actions : List Action) (s : System), s.Sound r → (actions.foldl (step e r) s).Sound r := by
    intro actions
    induction actions with
    | nil => exact fun _ h => h
    | cons action actions ih => exact fun s h => ih _ (h.step hlimits action)
  exact hall actions {} ⟨.empty _, nofun⟩

/-- Whatever happens, a subscriber gets the new events of the log or is closed. -/
theorem System.Sound.step_live (h : s.Sound r) (hlimits : 0 ≤ r.limits.maxQueuedBytes) (action : Action) {i : Nat}
    {p p' : ServerPeer}
    (hp : s.peers[i]? = some p) (hp' : (s.step e r action).peers[i]? = some p') :
    p'.closed = true ∨ p'.live = p.live ++ (s.step e r action).log.drop s.log.length := by
  have hstays : ∀ {t : System}, t.log = s.log → p'.live = p.live →
      p'.closed = true ∨ p'.live = p.live ++ t.log.drop s.log.length := by
    intro t hlog hlive
    rw [hlog, drop_length, append_nil]
    exact .inr hlive
  have hadded : ∀ q : ServerPeer, (s.peers ++ [q])[i]? = some p' → p' = p := fun q hq => by
    rw [getElem?_append_left (List.getElem?_eq_some_iff.mp hp).1, hp] at hq
    exact (some.inj hq).symm
  cases action with
  | publish data tag refuses =>
    change (s.publish e r data tag refuses).peers[i]? = some p' at hp'
    show p'.closed = true ∨ p'.live = p.live ++ (s.publish e r data tag refuses).log.drop s.log.length
    cases publish_cases h.log data tag refuses with
    | inl hsame =>
      rw [hsame] at hp' ⊢
      rw [hp] at hp'
      exact hstays rfl (by rw [some.inj hp'])
    | inr hnew =>
      obtain ⟨event, -, heq⟩ := hnew
      rw [heq] at hp' ⊢
      rw [getElem?_map, hp] at hp'
      rw [← some.inj hp', drop_left]
      exact (h.peers p (mem_of_getElem? hp)).offer_live event
  | subscribe request refuses =>
    change (s.subscribe request refuses).peers[i]? = some p' at hp'
    show p'.closed = true ∨ p'.live = p.live ++ (s.subscribe request refuses).log.drop s.log.length
    cases subscribe_cases h.log hlimits request refuses with
    | inl hsame =>
      rw [hsame] at hp' ⊢
      exact hstays rfl (by rw [hp] at hp'; rw [some.inj hp'])
    | inr hnew =>
      obtain ⟨q, -, heq⟩ := hnew
      rw [heq] at hp' ⊢
      exact hstays rfl (by rw [hadded q hp'])
  | subscribeMerkle refuses =>
    change (s.subscribeMerkle r refuses).peers[i]? = some p' at hp'
    show p'.closed = true ∨ p'.live = p.live ++ (s.subscribeMerkle r refuses).log.drop s.log.length
    unfold System.subscribeMerkle at hp' ⊢
    split_ifs at hp' ⊢
    · exact hstays rfl (by rw [hp] at hp'; rw [some.inj hp'])
    · exact hstays rfl (by rw [hadded _ hp'])
  | turn j turn =>
    change (s.peers.modify j fun p => p.turn r.limits s.log turn)[i]? = some p' at hp'
    rw [getElem?_modify, hp] at hp'
    refine hstays rfl ?_
    rw [← some.inj hp']
    split_ifs
    · exact ServerPeer.turn_live turn
    · rfl

end Runs

/-- The replay, and behind it the live events. -/
def ServerPeer.stream (p : ServerPeer) : List Event := p.replayed ++ p.replay ++ p.live

/-- The subscriber has been given, or has waiting for it, every event above its point of resumption once. -/
structure ServerPeer.GapFree (log : Log) (p : ServerPeer) : Prop where
  replay : p.replayed ++ p.replay = ((log.take p.highWater).filter p.request.wants).map p.request.view
  live : p.live = log.drop p.highWater
  once : (p.stream.map (·.sequence.toNat)).Nodup
  consecutive : p.live.map (·.sequence.toNat) = List.range' (p.highWater + 1) p.live.length
  cursor : ∀ resume, p.request = .cursor resume →
    p.stream.map (·.sequence.toNat) = List.range' (resume.toNat + 1) (log.length - resume.toNat)
  /-- Each event has its message, and the live messages are behind those of the replay. -/
  written : p.replayed.map p.marshal = p.written.map .ok
  sent : p.live.map p.marshal = (p.sent ++ (p.writer.message ++ p.outbound)).map .ok
  order : p.replay ≠ [] → p.sent = []

theorem ServerPeer.Streams.gapFree {merkle : Bool} {log : Log} {p : ServerPeer} (h : p.Streams merkle log)
    (hlog : Log.Exact merkle log) : p.GapFree log := by
  have hview : ∀ event, (p.request.view event).sequence.toNat = event.sequence.toNat := by
    intro event
    cases p.request <;> rfl
  have hstream : p.stream.map (·.sequence.toNat) =
      ((log.take p.highWater).filter p.request.wants ++ log.drop p.highWater).map (·.sequence.toNat) := by
    rw [ServerPeer.stream, h.replay, h.live, map_append, map_append, List.map_map]
    exact congrArg (· ++ _) (map_congr_left fun event _ => hview event)
  refine ⟨h.replay, h.live, ?_, ?_, fun resume hresume => ?_, h.written, h.sent, fun hne => (h.behind (.inl hne)).2⟩
  · have hsub : ((log.take p.highWater).filter p.request.wants ++ log.drop p.highWater).Sublist log := by
      have hbefore : ((log.take p.highWater).filter p.request.wants).Sublist (log.take p.highWater) := filter_sublist
      have happend := hbefore.append (List.Sublist.refl (log.drop p.highWater))
      rwa [take_append_drop] at happend
    have hnodup : (log.map (·.sequence.toNat)).Nodup := by
      rw [hlog.numbered]
      exact nodup_range'
    rw [hstream]
    exact hnodup.sublist (hsub.map _)
  · rw [h.live, hlog.map_drop, length_drop]
  have hle := h.resume resume hresume
  have hlater : (log.drop p.highWater).filter p.request.wants = log.drop p.highWater := by
    refine filter_eq_self.mpr fun event hevent => ?_
    have hin : event.sequence.toNat ∈ (log.drop p.highWater).map (·.sequence.toNat) := mem_map_of_mem hevent
    rw [hlog.map_drop, mem_range'_1] at hin
    rw [hresume, Request.wants, decide_eq_true_eq, UInt64.lt_iff_toNat_lt]
    omega
  rw [hstream, ← hlater, ← filter_append, take_append_drop, hresume, ← hlog.drop_eq_filter, hlog.map_drop]

/-- In every state of every run the bytes that a subscriber counts are those of its queue and of the message
that its writer holds, and within the bound. Each subscriber that is open has a stream without a gap, and one
that does not take an event is closed in the step that published it. -/
theorem subscribers_gap_free (e : Env) (config : Config) (r : Relay) (actions : List Action)
    (hlimits : normalizeLimits config = .ok r.limits) :
    (∀ p ∈ (System.run e r actions).peers, p.queuedBytes = p.counted ∧ p.queuedBytes ≤ r.limits.maxQueuedBytes ∧
      (p.closed = false → p.GapFree (System.run e r actions).log)) ∧
    ∀ (action : Action) (i : Nat) (p p' : ServerPeer), (System.run e r actions).peers[i]? = some p →
      ((System.run e r actions).step e r action).peers[i]? = some p' → p'.closed = true ∨
        p'.live = p.live ++ ((System.run e r actions).step e r action).log.drop (System.run e r actions).log.length := by
  have hpositive : 0 ≤ r.limits.maxQueuedBytes := by
    unfold normalizeLimits at hlimits
    dsimp only at hlimits
    split_ifs at hlimits with _ hbad
    rw [← Except.ok.inj hlimits]
    simp only [Bool.or_eq_true, decide_eq_true_eq] at hbad ⊢
    omega
  have h := System.run_sound (e := e) hpositive actions
  refine ⟨fun p hp => ?_, fun action i p p' hp hp' => h.step_live hpositive action hp hp'⟩
  have hsound := h.peers p hp
  exact ⟨hsound.queued, hsound.bounded, fun hopen => (hsound.streams hopen).gapFree h.log⟩

/-- A subscriber from the start of the log, and one change. -/
def oneEvent : List Action :=
  [.subscribe (.cursor 0) none, .turn 0 .startLoop, .publish (zerosMessage 10) .zero none]

/-- Another subscriber starts after the first change; then there is a second one. -/
def twoEvents : List Action := oneEvent ++ [.turn 0 .receive, .subscribe (.cursor 1) none, .turn 1 .startLoop,
  .publish (changeMessage :: changeFields ⟨[66], 1⟩ (zeros 10).delta) .zero none]

theorem subscribers_gap_free_two : let s := System.run (plainEnv .bits64) (tightRelay [] nofun) twoEvents
    s.peers.map (fun p => (p.closed, p.stream.map (·.sequence.toNat))) = [(false, [1, 2]), (false, [2])] ∧
      ∀ p ∈ s.peers, p.queuedBytes = p.counted ∧ p.GapFree s.log := by
  intro s
  have hopen : (s.peers.all fun p => !p.closed) = true := by decide +kernel
  refine ⟨by decide +kernel, fun p hp => ?_⟩
  obtain ⟨hcounted, -, hgap⟩ := (subscribers_gap_free (plainEnv .bits64) {maxMessageBytes := 1024}
    (tightRelay [] nofun) twoEvents (by decide +kernel)).1 p hp
  exact ⟨hcounted, hgap (by simpa using all_eq_true.mp hopen p hp)⟩

/-- The writer has received the message and does not have the lock yet: nothing is queued, and its bytes are
still counted. -/
theorem counted_not_queued :
    (System.run (plainEnv .bits64) (tightRelay [] nofun) (oneEvent ++ [.turn 0 .receive])).peers.map
      (fun p => (p.closed, p.outbound, p.queuedBytes)) = [(false, [], 28)] := by
  decide +kernel

end Crdt.Durable
