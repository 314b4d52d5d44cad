import Crdt.Lib.Utf8
import Crdt.Replica.Inbox
import Crdt.Wire.Read

/-! The messages of the durable relay.

A change travels to the relay as a change message and to its subscribers as an event message: the same fields
behind the sequence number of the event, and for the Merkle protocol behind its clock tag too. The change
message is also what the stores keep. Each of the three decoders accepts exactly what its encoder writes for
fields within the limits (`unmarshalChange_eq_ok_iff`, `unmarshalEvent_eq_ok_iff`,
`unmarshalMerkleEvent_eq_ok_iff`). -/
namespace Crdt.Durable

open Wire Replica Reader List

inductive Err
  | invalidConfig
  | unauthorized
  | conflictingDot
  | storeFull
  | replayUnavailable
  | antiEntropyUnavailable
  | merkleDiverged
  | corruptStore
  | closed
  | invalidWire
  /-- The change is not one of the manifest. -/
  | invalidChange
  /-- The application refuses the delta. -/
  | refused
deriving DecidableEq, Repr

structure Event where
  sequence : UInt64
  hlc : Tag := Tag.zero
  change : Change
deriving DecidableEq, Repr

def changeMessage : UInt8 := 1

def eventMessage : UInt8 := 2

def merkleEventMessage : UInt8 := 3

/-- The fields of a change, as they stand in every message. -/
def changeFields (dot : Dot) (delta : List UInt8) : List UInt8 :=
  appendBytes dot.actor ++ (Uvarint.put dot.counter ++ appendBytes delta)

/-- The dot and the delta can be sent. -/
def sendable (dot : Dot) (delta : List UInt8) : Bool :=
  Utf8.valid dot.actor && !blank dot.actor && dot.counter ≠ 0 && delta.length ≠ 0

def marshalChange (change : Change) : Except Err (List UInt8) :=
  if !sendable change.dot change.delta then .error .invalidWire
  else .ok (changeMessage :: changeFields change.dot change.delta)

def marshalEvent (event : Event) : Except Err (List UInt8) :=
  if event.sequence = 0 || !sendable event.change.dot event.change.delta then .error .invalidWire
  else .ok (eventMessage :: (Uvarint.put event.sequence ++ changeFields event.change.dot event.change.delta))

def validMerkleHLC (tag : Tag) (maxReplicaBytes : Int) : Bool :=
  maxReplicaBytes > 0 && tag.valid && Utf8.valid tag.replicaID && !blank tag.replicaID &&
    tag.replicaID.length ≤ maxReplicaBytes

def marshalMerkleEvent (event : Event) : Except Err (List UInt8) :=
  if event.sequence = 0 || !validMerkleHLC event.hlc Limits.default.maxStringBytes then .error .invalidWire
  else do
    let change ← marshalChange event.change
    return merkleEventMessage :: (Uvarint.put event.sequence ++ (appendTag event.hlc ++ change))

/-! ### Decoders -/

section Decode
variable (n : IntSize)

/-- The fields of a change, to the end of the message. -/
def unmarshalChangeFields (maxMessageBytes maxActorBytes : Int) : Reader UInt8 Err (Dot × List UInt8) := do
  let actor ← readBytesOr n maxActorBytes .invalidWire
  let counter ← readUvarintOr .invalidWire
  check (counter ≠ 0) .invalidWire
  let delta ← readBytesOr n maxMessageBytes .invalidWire
  let rest ← remaining
  check (rest = [] && delta.length ≠ 0) .invalidWire
  check (Utf8.valid actor && !blank actor) .invalidWire
  return (⟨actor, counter⟩, delta)

/-- What stands behind the first byte of a message of this kind. -/
def openMessage {α : Type} (kind : UInt8) (read : Reader UInt8 Err α) (maxMessageBytes maxActorBytes : Int)
    (data : List UInt8) : Checked Err α :=
  match data with
  | [] => .error .invalidWire
  | first :: rest =>
    if data.length > maxMessageBytes || maxActorBytes ≤ 0 || first ≠ kind then .error .invalidWire
    else do
      let (a, _) ← read rest
      return a

def unmarshalChange (data : List UInt8) (maxMessageBytes maxActorBytes : Int) : Checked Err (Dot × List UInt8) :=
  openMessage changeMessage (unmarshalChangeFields n maxMessageBytes maxActorBytes) maxMessageBytes maxActorBytes data

def readSequence : Reader UInt8 Err UInt64 := do
  let sequence ← readUvarintOr .invalidWire
  check (sequence ≠ 0) .invalidWire
  return sequence

def unmarshalEvent (data : List UInt8) (maxMessageBytes maxActorBytes : Int) :
    Checked Err (UInt64 × Dot × List UInt8) :=
  openMessage eventMessage (do
    let sequence ← readSequence
    let fields ← unmarshalChangeFields n maxMessageBytes maxActorBytes
    return (sequence, fields)) maxMessageBytes maxActorBytes data

def unmarshalMerkleEvent (data : List UInt8) (maxMessageBytes maxActorBytes : Int) :
    Checked Err (UInt64 × Tag × Dot × List UInt8) :=
  openMessage merkleEventMessage (do
    let sequence ← readSequence
    let tag ← readTagOr n maxActorBytes .invalidWire
    check (validMerkleHLC tag maxActorBytes) .invalidWire
    let kind ← take 1 .invalidWire
    check (kind = [changeMessage]) .invalidWire
    let fields ← unmarshalChangeFields n maxMessageBytes maxActorBytes
    return (sequence, tag, fields)) maxMessageBytes maxActorBytes data

end Decode

/-! ### The decoders invert the encoders -/

section Invert
variable {n : IntSize} {maxMessageBytes maxActorBytes : Int} {data : List UInt8} {dot : Dot}
  {delta : List UInt8}
  {sequence : UInt64} {tag : Tag} {rest : List UInt8} {α : Type} {a : α}

theorem sendable_iff : sendable dot delta = true ↔
    (Utf8.valid dot.actor = true ∧ blank dot.actor = false) ∧ dot.counter ≠ 0 ∧ delta.length ≠ 0 := by
  simp [sendable, and_assoc]

theorem unmarshalChangeFields_eq_ok_iff (hm : maxMessageBytes ≤ n.max) (ha : maxActorBytes ≤ n.max) :
    unmarshalChangeFields n maxMessageBytes maxActorBytes data = .ok ((dot, delta), rest) ↔
      (rest = [] ∧ data = changeFields dot delta) ∧ sendable dot delta = true ∧
        (dot.actor.length : Int) ≤ maxActorBytes ∧ (delta.length : Int) ≤ maxMessageBytes := by
  simp only [unmarshalChangeFields, (inverts_readBytes ha _).bind_eq_ok_iff, (inverts_readBytes hm _).bind_eq_ok_iff,
    (inverts_readUvarint _).bind_eq_ok_iff, check_bind_eq_ok_iff, remaining_bind_apply, pure_eq_ok_iff, true_and,
    sendable_iff, changeFields, decide_eq_true_eq, Bool.and_eq_true, Bool.not_eq_true', Prod.mk.injEq]
  constructor
  · intro ⟨actor, _, hactor, hdata, counter, _, hleft, hcounter, delta', _, hdelta, hleft', ⟨hend, hlength⟩, hname,
      ⟨hdot, heq⟩, hrest⟩
    rw [← hdot, ← heq, ← hrest, hdata, hleft, hleft', hend, append_nil]
    exact ⟨⟨rfl, rfl⟩, ⟨hname, hcounter, hlength⟩, hactor, hdelta⟩
  intro ⟨⟨hrest, hdata⟩, ⟨hname, hcounter, hlength⟩, hactor, hdelta⟩
  refine ⟨dot.actor, _, hactor, hdata, dot.counter, _, rfl, hcounter, delta, [], hdelta, (append_nil _).symm,
    ⟨rfl, hlength⟩, hname, ⟨rfl, rfl⟩, hrest.symm⟩

theorem openMessage_eq_ok_iff {kind : UInt8} {read : Reader UInt8 Err α} :
    openMessage kind read maxMessageBytes maxActorBytes data = .ok a ↔
      ((data.length : Int) ≤ maxMessageBytes ∧ 0 < maxActorBytes) ∧
        ∃ body rest, data = kind :: body ∧ read body = .ok (a, rest) := by
  cases data with
  | nil => exact iff_of_false nofun fun ⟨_, _, _, h, _⟩ => nomatch h
  | cons first body =>
    rw [openMessage]
    split_ifs with hbad
    · refine iff_of_false nofun fun ⟨⟨hlength, hmax⟩, _, _, h, _⟩ => ?_
      obtain ⟨rfl, rfl⟩ := List.cons.inj h
      simp only [Bool.or_eq_true, decide_eq_true_eq] at hbad
      rcases hbad with (hbad | hbad) | hbad
      · omega
      · omega
      · exact hbad rfl
    simp only [Bool.or_eq_true, decide_eq_true_eq, not_or, not_not] at hbad
    obtain ⟨⟨hlength, hmax⟩, rfl⟩ := hbad
    rw [Checked.bind_eq_ok_iff]
    constructor
    · intro ⟨p, hp, ha⟩
      cases ha
      exact ⟨⟨by omega, by omega⟩, body, p.2, rfl, hp⟩
    intro ⟨_, _, rest, h, hread⟩
    obtain ⟨_, rfl⟩ := List.cons.inj h
    exact ⟨(a, rest), hread, rfl⟩

theorem marshalChange_eq_ok_iff {change : Change} : marshalChange change = .ok data ↔
    sendable change.dot change.delta = true ∧ data = changeMessage :: changeFields change.dot change.delta := by
  unfold marshalChange
  cases sendable change.dot change.delta with
  | false => simp
  | true => simp [eq_comm]

theorem length_delta_le : delta.length ≤ (changeFields dot delta).length := by
  simp only [changeFields, length_append, length_appendBytes]
  omega

theorem unmarshalChange_eq_ok_iff (hm : maxMessageBytes ≤ n.max) (ha : maxActorBytes ≤ n.max) :
    unmarshalChange n data maxMessageBytes maxActorBytes = .ok (dot, delta) ↔
      data = changeMessage :: changeFields dot delta ∧ sendable dot delta = true ∧
        (data.length : Int) ≤ maxMessageBytes ∧ 0 < maxActorBytes ∧ (dot.actor.length : Int) ≤ maxActorBytes := by
  have hdelta : delta.length ≤ (changeFields dot delta).length := length_delta_le
  simp only [unmarshalChange, openMessage_eq_ok_iff, unmarshalChangeFields_eq_ok_iff hm ha]
  constructor
  · intro ⟨⟨hlength, hmax⟩, body, _, hdata, ⟨_, hbody⟩, hsend, hactor, _⟩
    rw [hbody] at hdata
    exact ⟨hdata, hsend, hlength, hmax, hactor⟩
  intro ⟨hdata, hsend, hlength, hmax, hactor⟩
  refine ⟨⟨hlength, hmax⟩, _, [], hdata, ⟨rfl, rfl⟩, hsend, hactor, ?_⟩
  rw [hdata, length_cons] at hlength
  omega

theorem readSequence_bind_eq_ok_iff {f : UInt64 → Reader UInt8 Err α} :
    (readSequence >>= f) data = .ok (a, rest) ↔
      ∃ sequence left, sequence ≠ 0 ∧ data = Uvarint.put sequence ++ left ∧ f sequence left = .ok (a, rest) := by
  have hinverts : Inverts readSequence Uvarint.put (· ≠ 0) := by
    intro data sequence rest
    simp only [readSequence, (inverts_readUvarint _).bind_eq_ok_iff, check_bind_eq_ok_iff, pure_eq_ok_iff, true_and,
      decide_eq_true_eq]
    constructor
    · intro ⟨_, _, hdata, hne, rfl, rfl⟩
      exact ⟨hne, hdata⟩
    · intro ⟨hne, hdata⟩
      exact ⟨sequence, rest, hdata, hne, rfl, rfl⟩
  exact hinverts.bind_eq_ok_iff

theorem fields_bind_eq_ok_iff {f : Dot × List UInt8 → α} :
    (unmarshalChangeFields n maxMessageBytes maxActorBytes >>= fun fields => pure (f fields)) data = .ok (a, rest) ↔
      ∃ fields, unmarshalChangeFields n maxMessageBytes maxActorBytes data = .ok (fields, rest) ∧ f fields = a := by
  rw [bind_apply, Checked.bind_eq_ok_iff]
  constructor
  · intro ⟨p, hp, ha⟩
    cases ha
    exact ⟨p.1, hp, rfl⟩
  · intro ⟨fields, hfields, ha⟩
    exact ⟨(fields, rest), hfields, by rw [pure_apply, ha]⟩

theorem unmarshalEvent_eq_ok_iff (hm : maxMessageBytes ≤ n.max) (ha : maxActorBytes ≤ n.max) :
    unmarshalEvent n data maxMessageBytes maxActorBytes = .ok (sequence, dot, delta) ↔
      data = eventMessage :: (Uvarint.put sequence ++ changeFields dot delta) ∧ sequence ≠ 0 ∧
        sendable dot delta = true ∧ (data.length : Int) ≤ maxMessageBytes ∧ 0 < maxActorBytes ∧
        (dot.actor.length : Int) ≤ maxActorBytes := by
  have hdelta : delta.length ≤ (changeFields dot delta).length := length_delta_le
  simp only [unmarshalEvent, openMessage_eq_ok_iff, readSequence_bind_eq_ok_iff, fields_bind_eq_ok_iff]
  constructor
  · intro ⟨⟨hlength, hmax⟩, body, rest, hdata, _, left, hne, hbody, _, hfields, heq⟩
    cases heq
    obtain ⟨⟨_, hleft⟩, hsend, hactor, _⟩ := (unmarshalChangeFields_eq_ok_iff hm ha).mp hfields
    rw [hbody, hleft] at hdata
    exact ⟨hdata, hne, hsend, hlength, hmax, hactor⟩
  intro ⟨hdata, hne, hsend, hlength, hmax, hactor⟩
  refine ⟨⟨hlength, hmax⟩, _, [], hdata, sequence, _, hne, rfl, (dot, delta), ?_, rfl⟩
  refine (unmarshalChangeFields_eq_ok_iff hm ha).mpr ⟨⟨rfl, rfl⟩, hsend, hactor, ?_⟩
  rw [hdata, length_cons, length_append] at hlength
  omega

theorem validMerkleHLC_iff : validMerkleHLC tag maxActorBytes = true ↔
    0 < maxActorBytes ∧ tag.valid = true ∧ Utf8.valid tag.replicaID = true ∧
      (tag.replicaID.length : Int) ≤ maxActorBytes := by
  simp [validMerkleHLC, Tag.valid]
  tauto

theorem unmarshalMerkleEvent_eq_ok_iff (hm : maxMessageBytes ≤ n.max) (ha : maxActorBytes ≤ n.max) :
    unmarshalMerkleEvent n data maxMessageBytes maxActorBytes = .ok (sequence, tag, dot, delta) ↔
      data = merkleEventMessage ::
          (Uvarint.put sequence ++ (appendTag tag ++ (changeMessage :: changeFields dot delta))) ∧
        sequence ≠ 0 ∧ validMerkleHLC tag maxActorBytes = true ∧ sendable dot delta = true ∧
        (data.length : Int) ≤ maxMessageBytes ∧ (dot.actor.length : Int) ≤ maxActorBytes := by
  have hdelta : delta.length ≤ (changeFields dot delta).length := length_delta_le
  simp only [unmarshalMerkleEvent, openMessage_eq_ok_iff, readSequence_bind_eq_ok_iff, fields_bind_eq_ok_iff,
    (inverts_readTag ha _).bind_eq_ok_iff, check_bind_eq_ok_iff, (Inverts.take 1 _).bind_eq_ok_iff, decide_eq_true_eq]
  constructor
  · intro ⟨⟨hlength, _⟩, body, rest, hdata, _, left, hne, hbody, _, left', _, hleft, hvalid, _, _, _, hleft', hkind, _,
      hfields, heq⟩
    cases heq
    obtain ⟨⟨_, hrest⟩, hsend, hactor, _⟩ := (unmarshalChangeFields_eq_ok_iff hm ha).mp hfields
    rw [hbody, hleft, hleft', hkind, hrest] at hdata
    exact ⟨hdata, hne, hvalid, hsend, hlength, hactor⟩
  intro ⟨hdata, hne, hvalid, hsend, hlength, hactor⟩
  obtain ⟨hmax, htag, _, hid⟩ := validMerkleHLC_iff.mp hvalid
  refine ⟨⟨hlength, hmax⟩, _, [], hdata, sequence, _, hne, rfl, tag, _, ⟨hid, htag⟩, rfl, hvalid, [changeMessage], _, rfl,
    rfl, rfl, (dot, delta), ?_, rfl⟩
  refine (unmarshalChangeFields_eq_ok_iff hm ha).mpr ⟨⟨rfl, rfl⟩, hsend, hactor, ?_⟩
  simp only [hdata, length_cons, length_append] at hlength
  omega

end Invert

end Crdt.Durable
