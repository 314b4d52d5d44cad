import Crdt.Durable.Wire

/-! What a relay accepts, and what it sends on.

A relay checks a change message against its limits before it appends the change, and sends the stored event to
each subscriber in the message of the subscriber's protocol. The event message is longer than the change
message, and the relay keeps room for that only if its store has a clock of its own. `deliverable_iff` says for
which accepted changes every subscriber with the limits of the relay can read its message. -/
namespace Crdt.Durable

open Wire Replica List

/-! ### Limits -/

/-- The limits of a handler, where zero stands for the default. -/
structure Config where
  maxMessageBytes : Int := 0
  maxActorBytes : Int := 0
  maxQueuedEvents : Int := 0
  maxQueuedBytes : Int := 0
  maxReplayEvents : Int := 0
  maxReplayBytes : Int := 0
  maxStateVectorEntries : Int := 0
  maxMerkleLeaves : Int := 0
  maxMerkleBytes : Int := 0
  handshakeTimeout : Int := 0
  writeTimeout : Int := 0
  pingInterval : Int := 0
  pingTimeout : Int := 0

structure RelayLimits where
  maxMessageBytes : Int
  maxActorBytes : Int
  maxQueuedEvents : Int
  maxQueuedBytes : Int
  maxReplayEvents : UInt64
  maxReplayBytes : UInt64
  maxStateVectorEntries : Int
  maxMerkleLeaves : UInt64
  maxMerkleBytes : UInt64
  handshakeTimeout : Int
  writeTimeout : Int
  pingInterval : Int
  pingTimeout : Int
deriving DecidableEq

/-- A value, or the default if it is zero. -/
def orDefault (value default : Int) : Int := if value = 0 then default else value

/-- The conversion of an `int` that is not negative. -/
def asUint64 (value : Int) : UInt64 := .ofNat value.toNat

def normalizeLimits (config : Config) : Except Err RelayLimits :=
  if config.maxReplayEvents < 0 || config.maxReplayBytes < 0 || config.maxMerkleLeaves < 0 ||
      config.maxMerkleBytes < 0 then .error .invalidConfig
  else
    let second : Int := 1000000000
    let result : RelayLimits := {
      maxMessageBytes := orDefault config.maxMessageBytes 1048576
      maxActorBytes := orDefault config.maxActorBytes 128
      maxQueuedEvents := orDefault config.maxQueuedEvents 64
      maxQueuedBytes := orDefault config.maxQueuedBytes 4194304
      maxReplayEvents := asUint64 (orDefault config.maxReplayEvents 4096)
      maxReplayBytes := asUint64 (orDefault config.maxReplayBytes 33554432)
      maxStateVectorEntries := orDefault config.maxStateVectorEntries 256
      maxMerkleLeaves := asUint64 (orDefault config.maxMerkleLeaves 4096)
      maxMerkleBytes := asUint64 (orDefault config.maxMerkleBytes 4194304)
      handshakeTimeout := orDefault config.handshakeTimeout (10 * second)
      writeTimeout := orDefault config.writeTimeout (10 * second)
      pingInterval := orDefault config.pingInterval (30 * second)
      pingTimeout := orDefault config.pingTimeout (10 * second) }
    let maxWireBytes := Limits.default.maxFrameBytes + result.maxActorBytes + 1 + 3 * 10
    if result.maxMessageBytes < 1024 || result.maxMessageBytes > maxWireBytes || result.maxActorBytes ≤ 0 ||
        result.maxActorBytes > Limits.default.maxStringBytes || result.maxQueuedEvents ≤ 0 ||
        result.maxQueuedBytes < result.maxMessageBytes || result.maxReplayEvents = 0 ||
        result.maxReplayBytes.toNat < result.maxMessageBytes || result.maxStateVectorEntries ≤ 0 ||
        result.maxMerkleLeaves = 0 || result.maxMerkleBytes.toNat < result.maxActorBytes + 32 ||
        result.handshakeTimeout ≤ 0 || result.writeTimeout ≤ 0 || result.pingInterval ≤ 0 || result.pingTimeout ≤ 0 then
      .error .invalidConfig
    else .ok result

/-- What the Merkle protocol adds to a change message at most, if the clock's replica has so many bytes. -/
def maxMerkleEventOverhead (maxReplicaBytes : Int) : Int :=
  1 + Uvarint.size 18446744073709551615 + Uvarint.size (lengthAsUint64 maxReplicaBytes) + maxReplicaBytes +
    2 * Uvarint.size 18446744073709551615

/-! ### A group of a relay -/

structure Relay where
  limits : RelayLimits
  manifest : Manifest
  /-- The replica of the store's clock; a store without one has no Merkle protocol. -/
  hlcReplicaID : List UInt8
  authorize : Dot → Bool
  validate : List UInt8 → Bool
  /-- `OpenStore` has made the clock. -/
  opened : hlcReplicaID ≠ [] → blank hlcReplicaID = false

namespace Relay

def merkleEnabled (r : Relay) : Bool := r.hlcReplicaID ≠ []

/-- `publish`, up to the call of `Append`. -/
def accept (e : Env) (r : Relay) (data : List UInt8) : Except Err Change :=
  match unmarshalChange e.intSize data r.limits.maxMessageBytes r.limits.maxActorBytes with
  | .ok (dot, delta) =>
    match newChangeWithPolicy e r.manifest dot delta with
    | .error _ => .error .invalidChange
    | .ok change =>
      if !r.authorize change.dot then .error .unauthorized
      else if !r.validate change.delta then .error .refused
      else if r.merkleEnabled &&
          data.length > r.limits.maxMessageBytes - maxMerkleEventOverhead r.limits.maxActorBytes then
        .error .invalidWire
      else .ok change
  | _ => .error .invalidWire

end Relay

inductive Subprotocol
  | cursor
  | stateVector
  | merkle
deriving DecidableEq, Repr

def marshalEventForSubprotocol : Subprotocol → Event → Except Err (List UInt8)
  | .merkle, event => marshalMerkleEvent event
  | .cursor, event | .stateVector, event => marshalEvent event

/-- What a client of the protocol reads from an event message. -/
def readEventForSubprotocol (n : IntSize) (limits : RelayLimits) (protocol : Subprotocol) (data : List UInt8) :
    Checked Err (UInt64 × Dot × List UInt8) :=
  match protocol with
  | .merkle => do
    let (sequence, _, dot, delta) ← unmarshalMerkleEvent n data limits.maxMessageBytes limits.maxActorBytes
    return (sequence, dot, delta)
  | .cursor | .stateVector => unmarshalEvent n data limits.maxMessageBytes limits.maxActorBytes

/-- The message for an event can be made and is not too long, and a client reads from it what was stored. -/
def Deliverable (n : IntSize) (limits : RelayLimits) (protocol : Subprotocol) (event : Event) : Prop :=
  ∃ message, marshalEventForSubprotocol protocol event = .ok message ∧
    (message.length : Int) ≤ limits.maxMessageBytes ∧
    readEventForSubprotocol n limits protocol message = .ok (event.sequence, event.change.dot, event.change.delta)

/-- There is room in an event message for the accepted data: for the sequence number behind it, or for the
replica of the store's clock, which must be UTF-8 too. -/
def Relay.Room (r : Relay) (protocol : Subprotocol) (data : List UInt8) (sequence : UInt64) : Prop :=
  match protocol with
  | .merkle => Utf8.valid r.hlcReplicaID = true ∧ (r.hlcReplicaID.length : Int) ≤ r.limits.maxActorBytes
  | .cursor | .stateVector => (data.length + Uvarint.size sequence : Int) ≤ r.limits.maxMessageBytes

section Deliver
variable {e : Env} {config : Config} {limits : RelayLimits} {r : Relay} {data : List UInt8}
  {change : Change}
  {event : Event}

theorem normalizeLimits_fit (h : normalizeLimits config = .ok limits) (n : IntSize) :
    limits.maxMessageBytes ≤ n.max ∧ 0 < limits.maxActorBytes ∧
      limits.maxActorBytes ≤ Limits.default.maxStringBytes ∧ limits.maxActorBytes ≤ n.max := by
  unfold normalizeLimits at h
  dsimp only at h
  split_ifs at h with hneg hbad
  cases h
  simp only [Bool.or_eq_true, decide_eq_true_eq] at hbad ⊢
  have hframe : Limits.default.maxFrameBytes = 16777216 := rfl
  have hstring : Limits.default.maxStringBytes = 1048576 := rfl
  have hn : (2147483647 : Int) ≤ n.max := by cases n <;> decide
  omega

theorem newChangeWithPolicy_eq_ok {manifest : Manifest} {dot : Dot} {delta : List UInt8}
    (h : newChangeWithPolicy e manifest dot delta = .ok change) : change.dot = dot ∧ change.delta = delta := by
  unfold newChangeWithPolicy at h
  cases hm : manifest.validate with
  | error err => simp [hm] at h
  | ok _ =>
    simp only [hm] at h
    split_ifs at h
    cases h
    exact ⟨rfl, rfl⟩

theorem accept_eq_ok (h : r.accept e data = .ok change) (hm : r.limits.maxMessageBytes ≤ e.intSize.max)
    (ha : r.limits.maxActorBytes ≤ e.intSize.max) :
    (data = changeMessage :: changeFields change.dot change.delta ∧ sendable change.dot change.delta = true ∧
      (change.dot.actor.length : Int) ≤ r.limits.maxActorBytes) ∧ (r.merkleEnabled = true →
      (data.length : Int) ≤ r.limits.maxMessageBytes - maxMerkleEventOverhead r.limits.maxActorBytes) := by
  unfold Relay.accept at h
  split at h
  · next dot delta hread =>
    obtain ⟨hdata, hsend, _, _, hactor⟩ := (unmarshalChange_eq_ok_iff hm ha).mp hread
    split at h
    · cases h
    next made hmade =>
    split_ifs at h with _ _ hroom
    cases h
    obtain ⟨rfl, rfl⟩ := newChangeWithPolicy_eq_ok hmade
    refine ⟨⟨hdata, hsend, hactor⟩, fun hmerkle => ?_⟩
    simpa [hmerkle] using hroom
  · cases h

theorem marshalEvent_eq_ok (hsequence : event.sequence ≠ 0)
    (hsend : sendable event.change.dot event.change.delta = true) : marshalEvent event =
      .ok (eventMessage :: (Uvarint.put event.sequence ++ changeFields event.change.dot event.change.delta)) := by
  rw [marshalEvent, if_neg (by simp [hsequence, hsend])]

theorem marshalMerkleEvent_eq_ok_iff {message : List UInt8} : marshalMerkleEvent event = .ok message ↔
    event.sequence ≠ 0 ∧ validMerkleHLC event.hlc Limits.default.maxStringBytes = true ∧
      sendable event.change.dot event.change.delta = true ∧
      message = merkleEventMessage :: (Uvarint.put event.sequence ++ (appendTag event.hlc ++
        (changeMessage :: changeFields event.change.dot event.change.delta))) := by
  unfold marshalMerkleEvent
  split_ifs with hbad
  · refine iff_of_false nofun fun ⟨hsequence, hvalid, _⟩ => ?_
    simp [hsequence, hvalid] at hbad
  simp only [Bool.or_eq_true, decide_eq_true_eq, Bool.not_eq_true', not_or, Bool.not_eq_false] at hbad
  simp only [Except.bind_eq_ok_iff, marshalChange_eq_ok_iff]
  constructor
  · intro ⟨_, ⟨hsend, rfl⟩, hmessage⟩
    cases hmessage
    exact ⟨hbad.1, hbad.2, hsend, rfl⟩
  · intro ⟨_, _, hsend, hmessage⟩
    exact ⟨_, ⟨hsend, rfl⟩, congrArg _ hmessage.symm⟩

/-- An accepted change as an event of the log. -/
structure Accepted (limits : RelayLimits) (data : List UInt8) (event : Event) : Prop where
  data_eq : data = changeMessage :: changeFields event.change.dot event.change.delta
  sendable : sendable event.change.dot event.change.delta = true
  actor : (event.change.dot.actor.length : Int) ≤ limits.maxActorBytes
  sequence : event.sequence ≠ 0

variable {event : Event}

theorem Accepted.deliverable_event_iff (h : Accepted limits data event) (hlimits : normalizeLimits config = .ok limits)
    {protocol : Subprotocol} (hprotocol : protocol ≠ .merkle) (n : IntSize) : Deliverable n limits protocol event ↔
      (data.length + Uvarint.size event.sequence : Int) ≤ limits.maxMessageBytes := by
  obtain ⟨hm, hpos, _, ha⟩ := normalizeLimits_fit hlimits n
  have hmarshal := marshalEvent_eq_ok h.sequence h.sendable
  generalize hmessage : eventMessage :: (Uvarint.put event.sequence ++ changeFields event.change.dot event.change.delta) =
    message at hmarshal
  have hlength : (message.length : Int) = data.length + Uvarint.size event.sequence := by
    rw [← hmessage, h.data_eq, length_cons, length_append, length_cons, Uvarint.size]
    omega
  have hread : (message.length : Int) ≤ limits.maxMessageBytes →
      unmarshalEvent n message limits.maxMessageBytes limits.maxActorBytes =
        .ok (event.sequence, event.change.dot, event.change.delta) := fun hfits =>
    (unmarshalEvent_eq_ok_iff hm ha).mpr ⟨hmessage.symm, h.sequence, h.sendable, hfits, hpos, h.actor⟩
  rw [← hlength]
  cases protocol with
  | merkle => exact absurd rfl hprotocol
  | cursor | stateVector =>
    constructor
    · rintro ⟨other, hother, hfits, _⟩
      cases hmarshal.symm.trans hother
      exact hfits
    · intro hfits
      exact ⟨message, hmarshal, hfits, hread hfits⟩

/-- The room that is kept is enough for a replica no longer than an actor may be. -/
theorem tagSize_le_overhead {tag : Tag} {maxReplicaBytes : Int} (hid : (tag.replicaID.length : Int) ≤ maxReplicaBytes)
    (hmax : maxReplicaBytes < 2 ^ 63) (sequence : UInt64) :
    1 + Uvarint.size sequence + tagSize tag ≤ maxMerkleEventOverhead maxReplicaBytes := by
  have hten : Uvarint.size 18446744073709551615 = 10 := by decide +kernel
  have hsequence := Uvarint.size_le sequence
  have hwall := Uvarint.size_le tag.wallTime
  have hlogical := Uvarint.size_le tag.logical
  have hlength : lengthAsUint64 tag.replicaID.length ≤ lengthAsUint64 maxReplicaBytes := by
    rw [UInt64.le_iff_toNat_le, lengthAsUint64_toNat (by omega)]
    obtain ⟨k, rfl⟩ := Int.eq_ofNat_of_zero_le (show 0 ≤ maxReplicaBytes by omega)
    rw [lengthAsUint64_toNat (by omega)]
    omega
  have hsize := Uvarint.size_mono hlength
  unfold tagSize maxMerkleEventOverhead
  omega

theorem Accepted.deliverable_merkle_iff (h : Accepted limits data event) (hlimits : normalizeLimits config = .ok limits)
    (hid : event.hlc.valid = true)
    (hroom : (data.length : Int) ≤ limits.maxMessageBytes - maxMerkleEventOverhead limits.maxActorBytes) (n : IntSize) :
    Deliverable n limits .merkle event ↔
      Utf8.valid event.hlc.replicaID = true ∧ (event.hlc.replicaID.length : Int) ≤ limits.maxActorBytes := by
  obtain ⟨hm, hpos, hstring, ha⟩ := normalizeLimits_fit hlimits n
  constructor
  · intro ⟨message, hmarshal, _, hread⟩
    obtain ⟨⟨sequence, tag, dot, delta⟩, hfields, heq⟩ := Checked.bind_eq_ok_iff.mp hread
    cases heq
    obtain ⟨hmessage, _, hvalid, _⟩ := (unmarshalMerkleEvent_eq_ok_iff hm ha).mp hfields
    obtain ⟨_, htag, hutf8, hlength⟩ := validMerkleHLC_iff.mp hvalid
    obtain ⟨_, hvalid', _, hmessage'⟩ := marshalMerkleEvent_eq_ok_iff.mp hmarshal
    obtain ⟨_, _, _, hlength'⟩ := validMerkleHLC_iff.mp hvalid'
    rw [hmessage, List.cons.injEq, append_cancel_left_eq, append_cancel_right_eq] at hmessage'
    have hinverts := inverts_readTag (Limits.default_fit n).maxStringBytes Err.invalidWire
    have hsame : tag = event.hlc := hinverts.eq_of_write_eq ⟨hlength.trans hstring, htag⟩ ⟨hlength', hid⟩ hmessage'.2
    rw [← hsame]
    exact ⟨hutf8, hlength⟩
  intro ⟨hutf8, hlength⟩
  have hvalid : validMerkleHLC event.hlc limits.maxActorBytes = true := validMerkleHLC_iff.mpr ⟨hpos, hid, hutf8, hlength⟩
  have hvalid' : validMerkleHLC event.hlc Limits.default.maxStringBytes = true :=
    validMerkleHLC_iff.mpr ⟨by decide, hid, hutf8, hlength.trans hstring⟩
  have hmarshal := marshalMerkleEvent_eq_ok_iff.mpr ⟨h.sequence, hvalid', h.sendable, rfl⟩
  generalize hmessage : merkleEventMessage :: (Uvarint.put event.sequence ++ (appendTag event.hlc ++
    (changeMessage :: changeFields event.change.dot event.change.delta))) = message at hmarshal
  have hmax : limits.maxActorBytes < 2 ^ 63 := by
    have := n.max_lt
    omega
  have hoverhead := tagSize_le_overhead hlength hmax event.sequence
  have hfits : (message.length : Int) ≤ limits.maxMessageBytes := by
    rw [← hmessage, ← h.data_eq, length_cons, length_append, length_append]
    have htag := length_appendTag event.hlc
    unfold Uvarint.size at hoverhead
    omega
  have hread := (unmarshalMerkleEvent_eq_ok_iff hm ha).mpr
    ⟨hmessage.symm, h.sequence, hvalid, h.sendable, hfits, h.actor⟩
  exact ⟨message, hmarshal, hfits, by simp [readEventForSubprotocol, hread]⟩

end Deliver

/-- Every subscriber with the limits of the relay can read its message for an accepted change exactly if there
is room in it for the sequence number; and, where the protocol is the Merkle protocol, if the replica of the
store's clock is UTF-8 and no longer than an actor may be. -/
theorem deliverable_iff (e : Env) (config : Config) (r : Relay) (data : List UInt8) (change : Change) (sequence : UInt64)
    (tag : Tag) (protocol : Subprotocol) (hlimits : normalizeLimits config = .ok r.limits)
    (haccept : r.accept e data = .ok change) (hsequence : sequence ≠ 0) (htag : tag.replicaID = r.hlcReplicaID)
    (hoffered : protocol = .merkle → r.merkleEnabled = true) :
    Deliverable e.intSize r.limits protocol {sequence, hlc := tag, change} ↔ r.Room protocol data sequence := by
  obtain ⟨hm, _, _, ha⟩ := normalizeLimits_fit hlimits e.intSize
  obtain ⟨⟨hdata, hsend, hactor⟩, hreserved⟩ := accept_eq_ok haccept hm ha
  have h : Accepted r.limits data {sequence, hlc := tag, change} := ⟨hdata, hsend, hactor, hsequence⟩
  cases protocol with
  | cursor => exact h.deliverable_event_iff hlimits (by decide) _
  | stateVector => exact h.deliverable_event_iff hlimits (by decide) _
  | merkle =>
    have henabled := hoffered rfl
    have hid : tag.valid = true := by
      have hblank := r.opened (by simpa [Relay.merkleEnabled] using henabled)
      rw [Tag.valid, htag, hblank]
      rfl
    have hiff := h.deliverable_merkle_iff hlimits hid (hreserved henabled) e.intSize
    rw [hiff, htag]
    rfl

/-- The limits of a relay whose messages have 1024 bytes at most. -/
def tightLimits : RelayLimits where
  maxMessageBytes := 1024
  maxActorBytes := 128
  maxQueuedEvents := 64
  maxQueuedBytes := 4194304
  maxReplayEvents := 4096
  maxReplayBytes := 33554432
  maxStateVectorEntries := 256
  maxMerkleLeaves := 4096
  maxMerkleBytes := 4194304
  handshakeTimeout := 10000000000
  writeTimeout := 10000000000
  pingInterval := 30000000000
  pingTimeout := 10000000000

/-- A relay that refuses nothing. -/
def tightRelay (hlcReplicaID : List UInt8) (opened : hlcReplicaID ≠ [] → blank hlcReplicaID = false) : Relay where
  limits := tightLimits
  manifest := {groupID := [103], schemaID := [115], epoch := 1, protocol := {stateID := 1, deltaID := 3, semanticsVersion := 1}}
  hlcReplicaID := hlcReplicaID
  authorize := fun _ => true
  validate := fun _ => true
  opened := opened

/-- The first change of `A`, with a frame around a payload of zeros. -/
def zeros (size : Nat) : Change where
  dot := ⟨[65], 1⟩
  manifest := (tightRelay [] nofun).manifest
  delta := v1Bytes (plainEnv .bits64) 3 [] (List.replicate size 0)
  validated := true

def zerosMessage (size : Nat) : List UInt8 := changeMessage :: changeFields (zeros size).dot (zeros size).delta

/-- A small change over the Merkle protocol. -/
theorem deliverable_small : Deliverable .bits64 tightLimits .merkle
    {sequence := 1, hlc := ⟨[114], 7, 0⟩, change := zeros 10} :=
  (deliverable_iff (plainEnv .bits64) {maxMessageBytes := 1024} (tightRelay [114] fun _ => by decide) (zerosMessage 10)
    (zeros 10) 1 ⟨[114], 7, 0⟩ .merkle (by decide +kernel) (by decide +kernel) (by decide) rfl fun _ => by decide).mpr
      ⟨by decide, by decide⟩

/-- A change message that fills the bound is accepted; the event message is one byte too long. -/
theorem full_message_not_deliverable :
    (tightRelay [] nofun).accept (plainEnv .bits64) (zerosMessage 1005) = .ok (zeros 1005) ∧
      ¬ Deliverable .bits64 tightLimits .cursor {sequence := 1, change := zeros 1005} := by
  refine ⟨by decide +kernel, fun ⟨message, hmarshal, hfits, _⟩ => ?_⟩
  have hlength : (marshalEvent {sequence := 1, change := zeros 1005}).map List.length = .ok 1025 := by decide +kernel
  have hmessage : marshalEvent {sequence := 1, change := zeros 1005} = .ok message := hmarshal
  rw [hmessage] at hlength
  rw [show message.length = 1025 from Except.ok.inj hlength] at hfits
  exact absurd hfits (by decide)

end Crdt.Durable
