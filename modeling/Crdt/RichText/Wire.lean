import Crdt.RichText.Marks
import Crdt.Text.Prepare

/-! Deltas and states of a document on the wire.

A delta is the frame of a text delta, which may be missing, and formatting operations; a state is the
frame of a text state and the marks in the order of their positions and keys. Both encoders check what
they can be asked to write against the limits of the caller, and hand the payload to a frame with the
default limits. A decoder reads the payload, checks it as the encoder does, and accepts it only if it is
what the encoder writes. -/
namespace Crdt.RichText

open Text (RGA)
open Wire Checked Reader
open Wire.Payload (readUvarint readBytes readTag require)

def typeIDRichTextState : UInt64 := 23

def typeIDRichTextDelta : UInt64 := 24

structure Delta where
  textDelta : List UInt8 := []
  operations : List FormatOperation := []
deriving DecidableEq, Repr

structure RichState where
  textState : List UInt8
  marks : TagMap MarkSet

/-- An error of the text or of its frame. -/
def Err.ofWire : Text.WireErr → Err
  | .text err => .text err
  | .frame err => .frame err

/-- Whatever is wrong, the delta is invalid. -/
def invalid {ε α : Type} (x : Checked ε α) : Checked Err α := mapError (fun _ => .invalidDelta) x

/-! ### Writing -/

variable (limits : Limits) (e : Env)

section
variable (payload : List UInt8)

def checkPayloadLimit : Checked Err Unit :=
  check (payload.length ≤ limits.maxPayload) (.frame .frameLimit)

def appendBytes (limits : Limits) (payload value : List UInt8) : Checked Err (List UInt8) := do
  check (value.length ≤ limits.maxPayload) (.frame .frameLimit)
  let payload := payload ++ Wire.appendBytes value
  checkPayloadLimit limits payload
  return payload

def appendString (payload value : List UInt8) : Checked Err (List UInt8) := do
  check (value.length ≤ limits.maxStringBytes && Utf8.valid value) (.frame .frameLimit)
  let payload := payload ++ Wire.appendBytes value
  checkPayloadLimit limits payload
  return payload

/-- A value, or the mark of a removal. -/
def appendValue (removed : Bool) (value : Str) : Checked Err (List UInt8) :=
  if removed then return payload ++ Uvarint.put 1
  else appendString limits (payload ++ Uvarint.put 0) value

def appendChange (change : AttributeChange) : Checked Err (List UInt8) := do
  let payload ← appendString limits payload change.key
  let payload ← appendValue limits payload change.remove change.value
  checkPayloadLimit limits payload
  return payload

def appendOperation (op : FormatOperation) : Checked Err (List UInt8) :=
  op.changes.foldlM (appendChange limits) (payload ++ appendTag op.tag ++
    Uvarint.put (lengthAsUint64 op.targets.length) ++ op.targets.flatMap appendTag ++
    Uvarint.put (lengthAsUint64 op.changes.length))

end

/-- The nested text delta, if there is one. -/
def nestedDelta (textDelta : List UInt8) (limits : Limits) : Checked Wire.Err (Option Text.Delta) :=
  if textDelta.length > 0 then do
    let delta ← Text.unmarshalRGARunDeltaWithLimits e textDelta limits
    return some delta
  else return none

/-- The last loop of `validateDelta`. -/
def withinLimits (limits : Limits) : Int → List FormatOperation → Bool
  | _, [] => true
  | targetCount, op :: rest =>
    if op.changes.length > limits.maxElements || op.targets.length > limits.maxElements - targetCount then false
    else if op.changes.any fun change =>
        change.key.length > limits.maxStringBytes || change.value.length > limits.maxStringBytes then false
    else withinLimits limits (targetCount + op.targets.length) rest

def validateDelta (delta : Delta) (limits : Limits) : Checked Err Unit := do
  check (limits.valid && delta.textDelta.length ≤ limits.maxPayload &&
    delta.operations.length ≤ limits.maxElements) .invalidDelta
  let _ ← invalid (nestedDelta e delta.textDelta limits)
  check (validOperations none delta.operations) .invalidDelta
  check (withinLimits limits 0 delta.operations) .invalidDelta

def marshalDelta (delta : Delta) (limits : Limits) : Checked Err (List UInt8) := do
  validateDelta e delta limits
  let payload ← appendBytes limits [] delta.textDelta
  let payload := payload ++ Uvarint.put (lengthAsUint64 delta.operations.length)
  checkPayloadLimit limits payload
  let payload ← delta.operations.foldlM (appendOperation limits) payload
  checkPayloadLimit limits payload
  mapError .frame (Frame.marshalWithLimits e ⟨typeIDRichTextDelta, [], payload, 0⟩ .default)

/-! ### Reading -/

section
variable (n : IntSize) (limits : Limits)

def readValue : PayloadReader (Bool × Str) := do
  let kind ← readUvarint
  require (kind ≤ 1)
  if kind = 1 then return (true, [])
  else do
    let value ← readBytes n limits.maxStringBytes
    return (false, value)

def readTarget (targets : List Position) : PayloadReader (List Position) := do
  let target ← readTag n limits.maxStringBytes
  require (targets.getLast?.all fun previous => previous.compare target = .lt)
  return targets ++ [target]

def readTargets (total : Int) : PayloadReader (List Position) := do
  let count ← readUvarint
  require (count ≠ 0 && count.toNat ≤ limits.maxElements - total)
  times (readTarget n limits) count.toNat []

def readChange (changes : List AttributeChange) : PayloadReader (List AttributeChange) := do
  let key ← readBytes n limits.maxStringBytes
  let (remove, value) ← readValue n limits
  let change : AttributeChange := {key, value, remove}
  require ((changes.getLast?.all fun previous => compare previous.key change.key = .lt) && validChanges none [change])
  return changes ++ [change]

def readChanges : PayloadReader (List AttributeChange) := do
  let count ← readUvarint
  require (count ≠ 0 && count.toNat ≤ limits.maxElements)
  times (readChange n limits) count.toNat []

/-- One round of `decodeDeltaPayload`: the operations and the number of their targets. -/
def readOperation (s : List FormatOperation × Int) : PayloadReader (List FormatOperation × Int) := do
  let tag ← readTag n limits.maxStringBytes
  let targets ← readTargets n limits s.2
  let changes ← readChanges n limits
  return (s.1 ++ [⟨tag, targets, changes⟩], s.2 + targets.length)

end

def readDelta (limits : Limits) : PayloadReader Delta := do
  let textDelta ← readBytes e.intSize limits.maxPayload
  let _ ← step (nestedDelta e textDelta limits)
  let count ← readUvarint
  require (count.toNat ≤ limits.maxElements)
  let (operations, _) ← times (readOperation e.intSize limits) count.toNat ([], 0)
  return {textDelta, operations}

def decodeDeltaPayload (payload : List UInt8) (limits : Limits) : Checked Err Delta := do
  let delta ← invalid (Payload.run (readDelta e limits) payload)
  invalid (validateDelta e delta limits)
  return delta

def unmarshalDeltaWithLimits (data : List UInt8) (limits : Limits) : Checked Err Delta := do
  let decoded ← invalid (unmarshalFrame e data limits)
  check (decoded.typeID = typeIDRichTextDelta && decoded.codecID = []) .invalidDelta
  let delta ← decodeDeltaPayload e decoded.payload limits
  let canonical ← invalid (marshalDelta e delta limits)
  let canonicalFrame ← invalid (unmarshalFrame e canonical limits)
  check (canonicalFrame.payload = decoded.payload) .invalidDelta
  return delta

/-! ### States -/

/-- The order of the entries of a state. -/
def entryLe (a b : Assignment) : Bool :=
  match a.position.compare b.position with
  | .lt => true
  | .gt => false
  | .eq => compare a.key b.key ≠ .gt

def sortedMarkEntries (marks : TagMap MarkSet) : List Assignment := (Marks.assignments marks).mergeSort entryLe

/-- The replica "richtext-validator". -/
def validatorID : List UInt8 := [114, 105, 99, 104, 116, 101, 120, 116, 45, 118, 97, 108, 105, 100, 97, 116, 111, 114]

/-- A text that has nothing but the state, to see whether it is one. -/
def validateNestedState (data : List UInt8) (limits : Limits) (millis : Int64) : Checked Err Unit :=
  match Text.newWithOptions validatorID Text.defaultOptions with
  | none => .broken
  | some (.error err) => .error (.text err)
  | some (.ok validator) =>
    match validator.unmarshalRunBinaryWithLimits e data limits millis with
    | none => .broken
    | some (_, .error err) => .error (.ofWire err)
    | some (_, .ok ()) => .ok ()

def appendEntry (payload : List UInt8) (a : Assignment) : Checked Err (List UInt8) := do
  let payload ← appendString limits (payload ++ appendTag a.position) a.key
  let payload ← appendValue limits (payload ++ appendTag a.value.tag) a.value.deleted a.value.value
  checkPayloadLimit limits payload
  return payload

def marshalState (state : RichState) (limits : Limits) (millis : Int64) : Checked Err (List UInt8) := do
  check (limits.valid && state.marks.size ≤ limits.maxElements) .invalidDelta
  validateNestedState e state.textState limits millis
  let entries := sortedMarkEntries state.marks
  check (entries.length ≤ limits.maxElements) .invalidDelta
  check (entries.all fun a => a.position.valid && a.wellFormed) .invalidDelta
  let payload ← appendBytes limits [] state.textState
  let payload := payload ++ Uvarint.put (lengthAsUint64 entries.length)
  let payload ← entries.foldlM (appendEntry limits) payload
  checkPayloadLimit limits payload
  mapError .frame (Frame.marshalWithLimits e ⟨typeIDRichTextState, [], payload, 0⟩ .default)

/-- One round of `unmarshalState`: the marks so far and the position and key of the last one. -/
def readEntry (n : IntSize) (limits : Limits) (s : TagMap MarkSet × Option (Position × Str)) :
    PayloadReader (TagMap MarkSet × Option (Position × Str)) := do
  let position ← readTag n limits.maxStringBytes
  let key ← readBytes n limits.maxStringBytes
  require (key.length ≠ 0)
  let tag ← readTag n limits.maxStringBytes
  let (deleted, value) ← readValue n limits
  require (!((s.2.any fun previous => previous.1.compare position = .gt ||
      (previous.1 = position && compare previous.2 key ≠ .lt)) ||
    !position.valid || !Utf8.valid key || !Utf8.valid value || (deleted && value ≠ [])))
  let entries := s.1[position]?.getD {}
  require (entries.get key).isNone
  return (s.1.insert position (entries.put key ⟨tag, value, deleted⟩).1, some (position, key))

def readState (limits : Limits) (millis : Int64) : PayloadReader RichState := do
  let textState ← readBytes e.intSize limits.maxPayload
  step (mapError (fun _ => .invalidFrame) (validateNestedState e textState limits millis))
  let count ← readUvarint
  require (count.toNat ≤ limits.maxElements)
  let (marks, _) ← times (readEntry e.intSize limits) count.toNat (∅, none)
  return {textState, marks}

/-- `millis 0` is read for the state that was decoded, `millis 1` for its canonical form. -/
def unmarshalState (data : List UInt8) (limits : Limits) (millis : Nat → Int64) :
    Checked Err RichState := do
  let decoded ← invalid (unmarshalFrame e data limits)
  check (decoded.typeID = typeIDRichTextState && decoded.codecID = []) .invalidDelta
  let state ← invalid (Payload.run (readState e limits (millis 0)) decoded.payload)
  let canonical ← invalid (marshalState e state limits (millis 1))
  let canonicalFrame ← invalid (unmarshalFrame e canonical limits)
  check (canonicalFrame.payload = decoded.payload) .invalidDelta
  return state

end Crdt.RichText
