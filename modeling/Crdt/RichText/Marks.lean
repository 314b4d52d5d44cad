import Crdt.Lib.TwoLevel
import Crdt.Lib.Utf8
import Crdt.Text.Rga
import Crdt.Wire.Frame

/-! Formatting marks.

A position has a register for each attribute, with a value or a removal and the tag of the operation
that wrote it; the later tag wins. The registers of one position are a `MarkSet`, the first attribute
inline and the others in a map that most positions do without. A formatting operation assigns the same
changes to a list of positions. Before it is applied it is checked as a whole: against the registers
that it meets and against the room that is left. -/
namespace Crdt.RichText

open MapLoop

inductive Err
  | invalidAttribute
  | invalidDelta
  | tagConflict
  | resourceLimit
  | unsafeCompaction
  /-- The error of the text. -/
  | text (err : Text.Err)
  /-- The error of the frame. -/
  | frame (err : Wire.Err)
deriving DecidableEq, Repr

/-- A name of an attribute, or its value. -/
abbrev Str := List UInt8

structure AttributeChange where
  key : Str
  value : Str := []
  remove : Bool := false
deriving DecidableEq, Repr

structure MarkValue where
  tag : Tag
  value : Str
  deleted : Bool
deriving DecidableEq, Repr, Inhabited

/-! ### Sets of marks -/

/-- The registers of a position; `key` is empty if there are none. -/
structure MarkSet where
  key : Str := []
  value : MarkValue := default
  extra : ByteMap MarkValue := ∅

namespace MarkSet

variable (s : MarkSet)

def get (key : Str) : Option MarkValue :=
  if s.key ≠ [] ∧ s.key = key then some s.value else s.extra[key]?

def len : Nat := if s.key = [] then 0 else 1 + s.extra.size

/-- Whether there was a value is the second result. -/
def put (key : Str) (value : MarkValue) : MarkSet × Bool :=
  if s.key = [] then ({s with key, value}, false)
  else if s.key = key then ({s with value}, true)
  else ({s with extra := s.extra.insert key value}, s.extra.contains key)

def rangeValues : List (Str × MarkValue) :=
  (if s.key ≠ [] then [(s.key, s.value)] else []) ++ s.extra.toList

/-- Whether there was a value is the second result. The least of the other keys moves up. -/
def remove (key : Str) : MarkSet × Bool :=
  if s.key = key then
    match s.extra.toList with
    | [] => ({}, true)
    | (nextKey, next) :: _ => ({key := nextKey, value := next, extra := s.extra.erase nextKey}, true)
  else if s.extra.contains key then ({s with extra := s.extra.erase key}, true)
  else (s, false)

end MarkSet

/-- One register with what it is assigned. -/
structure Assignment where
  position : Position
  key : Str
  value : MarkValue
deriving DecidableEq, Repr

/-- A mark has a name, and a removal has no value. -/
def Assignment.wellFormed (a : Assignment) : Bool :=
  !(a.key = [] || !Utf8.valid a.key || !Utf8.valid a.value.value || !a.value.tag.valid ||
    (a.value.deleted && a.value.value ≠ []))

/-- Values at one position. -/
def assignmentsAt (position : Position) (values : List (Str × MarkValue)) : List Assignment :=
  values.map fun p => ⟨position, p.1, p.2⟩

/-- The marks of a document. -/
structure Marks where
  marks : TagMap MarkSet := ∅
  markCount : Int := 0

/-- An assignment within the set of a position: a later value stays. -/
def assignIn (acc : MarkSet × Int) (p : Str × MarkValue) : MarkSet × Int :=
  if (acc.1.get p.1).any fun current => current.tag.compare p.2.tag = .gt then acc
  else
    let (entries, existed) := acc.1.put p.1 p.2
    (entries, if existed then acc.2 else acc.2 + 1)

/-- Assignments at one position. -/
def assignAt (values : List (Str × MarkValue)) (m : Marks) (position : Position) : Marks :=
  let (entries, markCount) := values.foldl assignIn (m.marks[position]?.getD {}, m.markCount)
  {marks := m.marks.insert position entries, markCount}

/-! ### Formatting operations -/

structure FormatOperation where
  tag : Tag
  targets : List Position
  changes : List AttributeChange
deriving DecidableEq, Repr

/-- What an operation writes at each of its targets. -/
def FormatOperation.values (op : FormatOperation) : List (Str × MarkValue) :=
  op.changes.map fun change => (change.key, ⟨op.tag, change.value, change.remove⟩)

def FormatOperation.assignments (op : FormatOperation) : List Assignment :=
  op.targets.flatMap fun target => assignmentsAt target op.values

/-- The loop of `validateChanges`, after a key or from the start. -/
def validChanges : Option Str → List AttributeChange → Bool
  | _, [] => true
  | previous, change :: rest =>
    if change.key = [] || !Utf8.valid change.key || !Utf8.valid change.value || (change.remove && change.value ≠ []) ||
        previous.any (fun previous => compare previous change.key != .lt) then false
    else validChanges (some change.key) rest

def validateChanges (changes : List AttributeChange) : Except Err Unit :=
  if validChanges none changes then .ok () else .error .invalidAttribute

/-- The inner loop of `validateOperations`. -/
def validTargets : Option Position → List Position → Bool
  | _, [] => true
  | previous, target :: rest =>
    if !target.valid || previous.any (fun previous => previous.compare target != .lt) then false
    else validTargets (some target) rest

/-- The loop of `validateOperations`, after a tag or from the start. -/
def validOperations : Option Tag → List FormatOperation → Bool
  | _, [] => true
  | previous, op :: rest =>
    if !op.tag.valid || op.targets.length = 0 || op.changes.length = 0 ||
        previous.any (fun previous => previous.compare op.tag != .lt) || !validChanges none op.changes then false
    else if !validTargets none op.targets then false
    else validOperations (some op.tag) rest

def validateOperations (operations : List FormatOperation) : Except Err Unit :=
  if validOperations none operations then .ok () else .error .invalidDelta

/-- The tag of the last operation. -/
def greatestOperationTag (operations : List FormatOperation) : Option Tag := operations.getLast?.map FormatOperation.tag

structure MarkOptions where
  maxMarkEntries : Int
  maxAttributesPerOperation : Int

namespace Marks

variable (m : Marks) (o : MarkOptions)

/-- The register of an attribute at a position. -/
def register (position : Position) (key : Str) : Option MarkValue :=
  m.marks[position]?.bind fun entries => entries.get key

/-- Another value under the same tag. -/
def conflicts (current : Option MarkValue) (incoming : MarkValue) : Bool :=
  current.any fun current => current.tag = incoming.tag && current ≠ incoming

/-- The updates of all operations fit in the room of a document. -/
def withinUpdates (o : MarkOptions) : Int → List FormatOperation → Bool
  | _, [] => true
  | updates, op :: rest =>
    if op.targets.length > (o.maxMarkEntries - updates).tdiv op.changes.length then false
    else withinUpdates o (updates + op.targets.length * op.changes.length) rest

/-- The loops of `preflightOperationLocked`: the number of new entries. -/
def countNew (m : Marks) : List Assignment → Nat → Except Err Nat
  | [], newEntries => .ok newEntries
  | a :: rest, newEntries =>
    match m.register a.position a.key with
    | none => countNew m rest (newEntries + 1)
    | some current =>
      if conflicts (some current) a.value then .error .tagConflict else countNew m rest newEntries

def checkRoom (newEntries : Nat) : Except Err Unit :=
  if newEntries > o.maxMarkEntries - m.markCount then .error .resourceLimit else .ok ()

def preflightOperation (op : FormatOperation) : Except Err Unit := do
  let newEntries ← m.countNew op.assignments 0
  m.checkRoom o newEntries

/-- The values a batch of operations leaves behind, keyed by position and attribute. -/
abbrev Pending := TwoLevel Tag.compare (compare : Str → Str → Ordering) MarkValue

/-- One assignment of a batch. One that meets an earlier one of the batch is not compared with the
register. -/
def preflightAssignment (pending : Pending) (a : Assignment) : Except Err Pending :=
  match pending.get a.position a.key with
  | some current =>
    if conflicts (some current) a.value then .error .tagConflict else .ok (pending.put a.position a.key a.value)
  | none =>
    if conflicts (m.register a.position a.key) a.value then .error .tagConflict
    else .ok (pending.put a.position a.key a.value)

def preflightBatch (m : Marks) (o : MarkOptions) : Pending → List FormatOperation → Except Err Pending
  | pending, [] => .ok pending
  | pending, op :: rest =>
    if op.changes.length > o.maxAttributesPerOperation then .error .resourceLimit
    else do
      let pending ← op.assignments.foldlM m.preflightAssignment pending
      preflightBatch m o pending rest

/-- `preflightOperationsLocked` -/
def preflightOperations (operations : List FormatOperation) : Except Err Unit :=
  if operations.length = 0 then .ok ()
  else do
    validateOperations operations
    if !withinUpdates o 0 operations then .error .resourceLimit
    else
      match operations with
      | [op] => m.preflightOperation o op
      | _ => do
        let pending ← m.preflightBatch o ∅ operations
        m.checkRoom o (pending.entries.filter fun p => (m.register p.1 p.2.1).isNone).length

/-- `applyOperationsLocked` -/
def applyOperations (operations : List FormatOperation) : Marks :=
  operations.foldl (fun m op => op.targets.foldl (assignAt op.values) m) m

/-! ### Marks of another document -/

/-- The assignments of all marks. -/
def assignments (marks : TagMap MarkSet) : List Assignment :=
  marks.toList.flatMap fun p => assignmentsAt p.1 p.2.rangeValues

/-- The inner loop of `preflightMarksLocked`: the number of new entries. -/
def countNewAt (m : Marks) (position : Position) : List (Str × MarkValue) → Nat → Except Err Nat
  | [], newEntries => .ok newEntries
  | (key, incoming) :: rest, newEntries =>
    if !Assignment.wellFormed ⟨position, key, incoming⟩ then .error .invalidDelta
    else
      match m.register position key with
      | none => countNewAt m position rest (newEntries + 1)
      | some current =>
        if conflicts (some current) incoming then .error .tagConflict else countNewAt m position rest newEntries

def countNewMarks (m : Marks) : List (Position × MarkSet) → Nat → Except Err Nat
  | [], newEntries => .ok newEntries
  | (position, entries) :: rest, newEntries =>
    if !position.valid then .error .invalidDelta
    else do
      let newEntries ← m.countNewAt position entries.rangeValues newEntries
      countNewMarks m rest newEntries

/-- `preflightMarksLocked` -/
def preflightMarks (marks : TagMap MarkSet) : Except Err Unit := do
  let newEntries ← m.countNewMarks marks.toList 0
  m.checkRoom o newEntries

/-- `applyMarksLocked` -/
def applyMarks (marks : TagMap MarkSet) : Marks :=
  marks.toList.foldl (fun m p => assignAt p.2.rangeValues m p.1) m

end Marks

def countMarks (marks : TagMap MarkSet) : Nat := (marks.toList.map fun p => p.2.len).sum

/-- The greatest tag of all marks. -/
def greatestMarkTag (marks : TagMap MarkSet) : Option Tag :=
  (Marks.assignments marks).foldl (fun greatest a =>
    match greatest with
    | none => some a.value.tag
    | some greatest => some (if greatest.compare a.value.tag = .lt then a.value.tag else greatest)) none

end Crdt.RichText
