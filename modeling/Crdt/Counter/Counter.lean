import Crdt.Lib.SortedMap
import Crdt.Wire.Read

/-! Counters.

A G-Counter has one component for each replica, the total of what it has added; a replica raises its own
and takes the greater one of any other. A PN-Counter is two of them, one for what is added and one for what
is taken away. A component that is missing counts as zero. Increments store a component whatever it is, and
joins store it only if it is greater than what is there. -/
namespace Crdt.Counter

open Wire Checked MapLoop

inductive Err
  | invalidReplicaID
  | counterOverflow
  /-- The error of the frame. -/
  | frame (err : Wire.Err)
deriving DecidableEq, Repr

abbrev ReplicaID := List UInt8

abbrev Counts := ByteMap UInt64

/-- A component; one that is missing is zero. -/
def count (counts : Counts) (id : ReplicaID) : UInt64 := counts[id]?.getD 0

/-- A replica ID is checked as that of a tag. -/
def validateCounts (counts : Counts) : Bool := counts.toList.all fun p => !blank p.1

/-! ### Joins -/

/-- One round of a join, and whether anything has changed so far. -/
def joinCount (s : Counts × Bool) (p : ReplicaID × UInt64) : Counts × Bool :=
  if p.2 > count s.1 p.1 then (s.1.insert p.1 p.2, true) else s

def joinCountsChanged (target source : Counts) : Counts × Bool := source.toList.foldl joinCount (target, false)

def joinCounts (target source : Counts) : Counts := (joinCountsChanged target source).1

/-- `math.MaxUint64 - value`, which is not negative. -/
def headroom (value : UInt64) : Nat := 18446744073709551615 - value.toNat

/-- A component is raised by an amount, if it does not overflow. -/
def addCount (counts : Counts) (id : ReplicaID) (amount : UInt64) : Except Err UInt64 :=
  if headroom (count counts id) < amount.toNat then .error .counterOverflow
  else .ok (count counts id + amount)

/-! ### G-Counters -/

structure GCounter where
  replicaID : ReplicaID
  counts : Counts := ∅

structure GCounterDelta where
  counts : Counts

namespace GCounter

def new (replicaID : ReplicaID) : Except Err GCounter :=
  if blank replicaID then .error .invalidReplicaID else .ok {replicaID}

def increment (c : GCounter) (amount : UInt64) : GCounter × Except Err GCounterDelta :=
  match addCount c.counts c.replicaID amount with
  | .error err => (c, .error err)
  | .ok next => ({c with counts := c.counts.insert c.replicaID next}, .ok ⟨(∅ : Counts).insert c.replicaID next⟩)

/-- The loop of `Value` over the components, in the order in which the map is ranged over. -/
def sumChecked : List UInt64 → UInt64 → Except Err UInt64
  | [], total => .ok total
  | value :: rest, total =>
    if headroom total < value.toNat then .error .counterOverflow else sumChecked rest (total + value)

/-- The components may come in any order. -/
def value (order : List (ReplicaID × UInt64)) : Except Err UInt64 := sumChecked (order.map (·.2)) 0

def merge (c other : GCounter) : GCounter := {c with counts := joinCounts c.counts other.counts}

def applyDeltaChanged (c : GCounter) (delta : GCounterDelta) : GCounter × Except Err Bool :=
  if validateCounts delta.counts then
    let (counts, changed) := joinCountsChanged c.counts delta.counts
    ({c with counts}, .ok changed)
  else (c, .error .invalidReplicaID)

end GCounter

def GCounterDelta.merge (d other : GCounterDelta) : Except Err GCounterDelta :=
  if validateCounts d.counts then
    if validateCounts other.counts then .ok ⟨joinCounts d.counts other.counts⟩ else .error .invalidReplicaID
  else .error .invalidReplicaID

/-! ### PN-Counters -/

structure PNCounter where
  replicaID : ReplicaID
  positive : Counts := ∅
  negative : Counts := ∅

structure PNCounterDelta where
  positive : Counts := ∅
  negative : Counts := ∅

def validatePNCounts (positive negative : Counts) : Bool := validateCounts positive && validateCounts negative

namespace PNCounter

def new (replicaID : ReplicaID) : Except Err PNCounter :=
  if blank replicaID then .error .invalidReplicaID else .ok {replicaID}

variable (c : PNCounter)

def add (amount : UInt64) (positive : Bool) : PNCounter × Except Err PNCounterDelta :=
  let counts := if positive then c.positive else c.negative
  match addCount counts c.replicaID amount with
  | .error err => (c, .error err)
  | .ok next =>
    if positive then
      ({c with positive := counts.insert c.replicaID next}, .ok {positive := (∅ : Counts).insert c.replicaID next})
    else
      ({c with negative := counts.insert c.replicaID next}, .ok {negative := (∅ : Counts).insert c.replicaID next})

def increment (amount : UInt64) : PNCounter × Except Err PNCounterDelta := c.add amount true

def decrement (amount : UInt64) : PNCounter × Except Err PNCounterDelta := c.add amount false

/-- The sum of the components, in any order. -/
def sumCounts (order : List (ReplicaID × UInt64)) : Int := order.foldl (fun total p => total + p.2.toNat) 0

def value (positive negative : List (ReplicaID × UInt64)) : Int := sumCounts positive - sumCounts negative

def merge (c other : PNCounter) : PNCounter :=
  {c with positive := joinCounts c.positive other.positive, negative := joinCounts c.negative other.negative}

def applyDeltaChanged (delta : PNCounterDelta) : PNCounter × Except Err Bool :=
  if validatePNCounts delta.positive delta.negative then
    let (positive, changed) := joinCountsChanged c.positive delta.positive
    let (negative, changed') := joinCountsChanged c.negative delta.negative
    ({c with positive, negative}, .ok (changed' || changed))
  else (c, .error .invalidReplicaID)

end PNCounter

def PNCounterDelta.merge (d other : PNCounterDelta) : Except Err PNCounterDelta :=
  if validatePNCounts d.positive d.negative then
    if validatePNCounts other.positive other.negative then
      .ok {positive := joinCounts d.positive other.positive, negative := joinCounts d.negative other.negative}
    else .error .invalidReplicaID
  else .error .invalidReplicaID

/-! ### Frames -/

def typeIDGCounterState : UInt64 := 1

def typeIDGCounterDelta : UInt64 := 3

def typeIDPNCounterState : UInt64 := 5

def typeIDPNCounterDelta : UInt64 := 6

/-- The loop that adds up the size of the entries. -/
def countsSize (limits : Limits) : List (ReplicaID × UInt64) → Int → Checked Err Int
  | [], size => return size
  | (id, value) :: rest, size => do
    check (id.length ≤ limits.maxStringBytes) (.frame .frameLimit)
    let additional : Int := Uvarint.size (lengthAsUint64 id.length) + id.length + Uvarint.size value
    check (additional ≤ limits.maxPayload - size) (.frame .frameLimit)
    countsSize limits rest (size + additional)

/-- The size of the entries with their number. -/
def pnCountsSection (counts : Counts) (limits : Limits) : Checked Err Int :=
  countsSize limits counts.toList (Uvarint.size (lengthAsUint64 counts.size))

/-- What is appended for an entry. -/
def appendCount (p : ReplicaID × UInt64) : List UInt8 := appendBytes p.1 ++ Uvarint.put p.2

/-- What is appended for a map, with its replica IDs in ascending order. -/
def appendCounts (counts : Counts) : List UInt8 :=
  Uvarint.put (lengthAsUint64 counts.size) ++ counts.toList.flatMap appendCount

variable (e : Env)

def marshalCountsWithLimits (typeID : UInt64) (counts : Counts) (limits : Limits) : Checked Err (List UInt8) := do
  check (counts.size ≤ limits.maxElements) (.frame .frameLimit)
  let _ ← pnCountsSection counts limits
  mapError .frame (Frame.marshalWithLimits e ⟨typeID, [], appendCounts counts, 0⟩ .default)

def marshalPNCountsWithLimits (typeID : UInt64) (positive negative : Counts) (limits : Limits) :
    Checked Err (List UInt8) := do
  check (validatePNCounts positive negative) .invalidReplicaID
  check (positive.size ≤ limits.maxElements && negative.size ≤ limits.maxElements - positive.size) (.frame .frameLimit)
  let positiveSize ← pnCountsSection positive limits
  let negativeSize ← pnCountsSection negative limits
  check (negativeSize ≤ limits.maxPayload - positiveSize) (.frame .frameLimit)
  mapError .frame (Frame.marshalWithLimits e ⟨typeID, [], appendCounts positive ++ appendCounts negative, 0⟩ .default)

/-- An entry with a replica ID that is not blank. -/
def readCount (n : IntSize) (limits : Limits) : PayloadReader (ReplicaID × UInt64) := do
  let id ← Payload.readBytes n limits.maxStringBytes
  let value ← Payload.readUvarint
  Payload.require (!blank id)
  return (id, value)

/-- The number of entries is not trusted: there must be room before each of them. -/
def unmarshalPNCountsSection (n : IntSize) (maxElements : Int) (limits : Limits) : PayloadReader Counts := do
  let number ← Payload.readUvarint
  Payload.require (0 ≤ maxElements)
  SortedMap.readMap (readCount n limits) (fun size => size < maxElements) .invalidFrame number.toNat

/-- A frame without a codec whose payload the reader reads to its end. -/
def unmarshalPayload {α : Type} (e : Env) (data : List UInt8) (expectedTypeID : UInt64) (limits : Limits)
    (read : PayloadReader α) : Checked Wire.Err α := do
  let decoded ← unmarshalFrame e data limits
  check (decoded.typeID = expectedTypeID && decoded.codecID = []) .invalidFrame
  Payload.run read decoded.payload

section
variable (data : List UInt8)

/-- The limits of a frame that was read are positive, so the section needs no other check of them. -/
def unmarshalCounts (expectedTypeID : UInt64) (limits : Limits) : Checked Wire.Err Counts :=
  unmarshalPayload e data expectedTypeID limits (unmarshalPNCountsSection e.intSize limits.maxElements limits)

def unmarshalPNCounts (expectedTypeID : UInt64) (limits : Limits) : Checked Wire.Err (Counts × Counts) :=
  unmarshalPayload e data expectedTypeID limits do
    let positive ← unmarshalPNCountsSection e.intSize limits.maxElements limits
    let negative ← unmarshalPNCountsSection e.intSize (limits.maxElements - positive.size) limits
    return (positive, negative)

def GCounter.marshalBinary (c : GCounter) : Checked Err (List UInt8) :=
  marshalCountsWithLimits e typeIDGCounterState c.counts .default

def GCounterDelta.marshalBinary (d : GCounterDelta) : Checked Err (List UInt8) := do
  check (validateCounts d.counts) .invalidReplicaID
  marshalCountsWithLimits e typeIDGCounterDelta d.counts .default

def PNCounter.marshalBinary (c : PNCounter) : Checked Err (List UInt8) :=
  marshalPNCountsWithLimits e typeIDPNCounterState c.positive c.negative .default

def PNCounterDelta.marshalBinary (d : PNCounterDelta) : Checked Err (List UInt8) := do
  check (validatePNCounts d.positive d.negative) .invalidReplicaID
  marshalPNCountsWithLimits e typeIDPNCounterDelta d.positive d.negative .default

/-- The state of the counter is replaced by that of the frame. -/
def GCounter.unmarshalBinary (c : GCounter) (data : List UInt8) : Checked Wire.Err GCounter := do
  let counts ← unmarshalCounts e data typeIDGCounterState .default
  return {c with counts}

def unmarshalGCounterDelta : Checked Wire.Err GCounterDelta := do
  let counts ← unmarshalCounts e data typeIDGCounterDelta .default
  return ⟨counts⟩

def PNCounter.unmarshalBinary (c : PNCounter) (data : List UInt8) : Checked Wire.Err PNCounter := do
  let (positive, negative) ← unmarshalPNCounts e data typeIDPNCounterState .default
  return {c with positive, negative}

def unmarshalPNCounterDelta : Checked Wire.Err PNCounterDelta := do
  let (positive, negative) ← unmarshalPNCounts e data typeIDPNCounterDelta .default
  return {positive, negative}

end

end Crdt.Counter
