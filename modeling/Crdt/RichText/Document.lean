import Crdt.RichText.Wire

/-! Documents.

A document is a text with marks. A call decodes and checks what it is given, applies the text, moves the
clock of the text past the tags of the marks, and writes the marks; each of these steps may fail, and the
document is returned beside the result either way. -/
namespace Crdt.RichText

open Text (RGA Rune)
open Wire Checked MapLoop

structure Options extends MarkOptions where
  text : Text.Options

def Options.valid (o : Options) : Bool :=
  o.text.valid && o.maxMarkEntries > 0 && o.maxAttributesPerOperation > 0

structure Document extends Marks where
  text : RGA
  options : Options

/-- What a call returns beside the document; `none` if it breaks. -/
abbrev Outcome (α : Type) := Option (Document × Except Err α)

def newFromClockWithOptions (state : Clock.State) (options : Options) : Option (Except Err Document) :=
  if !options.valid then some (.error .resourceLimit) else do
    match ← Text.newFromClockWithOptions state options.text with
    | .error err => return .error (.text err)
    | .ok text => return .ok {text, options}

def newWithOptions (replicaID : List UInt8) (options : Options) : Option (Except Err Document) :=
  newFromClockWithOptions ⟨replicaID, 0, 0⟩ options

/-- `attributesToChanges` -/
def attributesToChanges (attributes : ByteMap Str) : Except Err (List AttributeChange) :=
  let changes := attributes.toList.map fun p => ({key := p.1, value := p.2} : AttributeChange)
  match validateChanges changes with
  | .error err => .error err
  | .ok () => .ok changes

def canonicalChanges (changes : List AttributeChange) : List AttributeChange :=
  changes.mergeSort fun a b => compare a.key b.key ≠ .gt

def sortTargets (positions : List Position) : List Position := positions.mergeSort fun a b => a.compare b ≠ .gt

namespace Document

variable {α β : Type}

/-! ### Steps -/

variable (d : Document) (e : Env)

/-- A check that leaves the document as it is. -/
def checked (x : Checked Err α) (next : α → Outcome β) : Outcome β :=
  match x with
  | .broken => none
  | .error err => some (d, .error err)
  | .ok a => next a

/-- A call of the text. -/
def onText {ε : Type} (d : Document) (wrap : ε → Err) (x : Option (RGA × Except ε α))
    (next : Document → α → Outcome β) : Outcome β :=
  match x with
  | none => none
  | some (text, .error err) => some ({d with text}, .error (wrap err))
  | some (text, .ok a) => next {d with text} a

/-- `preflightOperationsLocked` -/
def preflight (operations : List FormatOperation) : Checked Err Unit :=
  .ofExcept (d.toMarks.preflightOperations d.options.toMarkOptions operations)

/-- The text delta, if there is one. -/
def applyText (delta : Option Text.Delta) (millis : Int64) (next : Document → Outcome β) : Outcome β :=
  match delta with
  | none => next d
  | some delta => d.onText .text (d.text.applyDelta delta millis) fun d _ => next d

/-- The greatest tag of the marks, if there is one. -/
def witness (greatest : Option Tag) (millis : Int64) (next : Document → Outcome β) : Outcome β :=
  match greatest with
  | none => next d
  | some tag => d.onText .text (some (d.text.witnessTag tag millis)) fun d _ => next d

/-- `applyOperationsLocked` -/
def format (operations : List FormatOperation) : Document :=
  {d with toMarks := d.toMarks.applyOperations operations}

/-! ### Remote changes -/

def applyDeltaWithLimits (d : Document) (delta : Delta) (limits : Limits) (millis : Nat → Int64) :
    Outcome Unit :=
  d.checked (validateDelta e delta limits) fun _ =>
  d.checked (invalid (nestedDelta e delta.textDelta limits)) fun textDelta =>
  d.checked (d.preflight delta.operations) fun _ =>
  d.applyText textDelta (millis 0) fun d =>
  d.witness (greatestOperationTag delta.operations) (millis 1) fun d =>
  some (d.format delta.operations, .ok ())

/-- The replica "richtext-merge". -/
def mergeID : List UInt8 := [114, 105, 99, 104, 116, 101, 120, 116, 45, 109, 101, 114, 103, 101]

/-- The text of another document, by way of its frame. -/
def capturedText (other : Document) (millis : Int64) : Checked Err RGA := do
  let state ← mapError .ofWire (other.text.marshalRunBinaryWithLimits e other.text.ascending .default)
  match Text.newWithOptions mergeID other.options.text with
  | none => .broken
  | some (.error err) => .error (.text err)
  | some (.ok otherText) =>
    match otherText.unmarshalRunBinaryWithLimits e state .default millis with
    | none => .broken
    | some (_, .error _) => .error .invalidDelta
    | some (otherText, .ok ()) => .ok otherText

/-- `Merge` of another document; a merge with itself changes nothing and is not modelled. -/
def merge (e : Env) (d other : Document) (millis : Nat → Int64) : Outcome Unit :=
  d.checked (capturedText e other (millis 0)) fun otherText =>
  d.checked (.ofExcept (d.toMarks.preflightMarks d.options.toMarkOptions other.marks)) fun _ =>
  d.onText .text (d.text.merge otherText (millis 1)) fun d _ =>
  d.witness (greatestMarkTag other.marks) (millis 2) fun d =>
  some ({d with toMarks := d.toMarks.applyMarks other.marks}, .ok ())

/-! ### States -/

def marshalBinaryWithLimits (d : Document) (limits : Limits) (millis : Int64) :
    Checked Err (List UInt8) := do
  let textState ← mapError .ofWire (d.text.marshalRunBinaryWithLimits e d.text.ascending limits)
  marshalState e ⟨textState, d.marks⟩ limits millis

def unmarshalBinaryWithLimits (d : Document) (data : List UInt8) (limits : Limits) (millis : Nat → Int64) :
    Outcome Unit :=
  d.checked (unmarshalState e data limits millis) fun state =>
  d.checked (check (countMarks state.marks ≤ d.options.maxMarkEntries) .resourceLimit) fun _ =>
  d.onText .ofWire (d.text.unmarshalRunBinaryWithLimits e state.textState limits (millis 2)) fun d _ =>
  d.witness (greatestMarkTag state.marks) (millis 3) fun d =>
  some ({d with marks := state.marks, markCount := countMarks state.marks}, .ok ())

/-! ### Local changes -/

/-- The operation that formats new positions, with a tag of its own. -/
def tagFormat (targets : List Position) (changes : List AttributeChange) (millis : Int64)
    (next : Document → List FormatOperation → Outcome β) : Outcome β :=
  if changes.length > 0 ∧ targets.length > 0 then
    if changes.length > d.options.maxAttributesPerOperation then some (d, .error .resourceLimit)
    else d.onText .text (some (d.text.nextTag millis)) fun d tag => next d [⟨tag, targets, changes⟩]
  else next d []

/-- The tags of the text come from the first readings of the clock. -/
def insertWithAttributesWithLimits (d : Document) (offset : Int) (value : List Rune)
    (attributes : ByteMap Str) (limits : Limits) (millis : Nat → Int64) : Outcome Delta :=
  d.checked (.ofExcept (attributesToChanges attributes)) fun changes =>
  d.onText .ofWire (d.text.prepareInsertRunBinaryWithLimits e offset value limits millis) fun d prepared =>
  d.tagFormat prepared.1.nodePositions changes (millis value.length) fun d operations =>
  d.checked (marshalDelta e ⟨prepared.2, operations⟩ limits) fun _ =>
  d.checked (d.preflight operations) fun _ =>
  d.onText .text (d.text.applyDelta prepared.1 (millis (value.length + 1))) fun d _ =>
  some (d.format operations, .ok ⟨prepared.2, operations⟩)

def deleteWithLimits (d : Document) (offset count : Int) (limits : Limits) (millis : Int64) : Outcome Delta :=
  d.onText .ofWire (d.text.prepareDeleteRunBinaryWithLimits e offset count limits) fun d prepared =>
  d.checked (marshalDelta e ⟨prepared.2, []⟩ limits) fun _ =>
  d.onText .text (d.text.applyDelta prepared.1 millis) fun d _ => some (d, .ok ⟨prepared.2, []⟩)

/-- `formatPositionsLocked` -/
def formatPositions (d : Document) (positions : List Position) (changes : List AttributeChange)
    (limits : Limits) (millis : Int64) : Outcome Delta :=
  if positions.length = 0 ∨ changes.length = 0 then
    d.checked (marshalDelta e {} limits) fun _ => some (d, .ok {})
  else
    d.tagFormat (sortTargets positions) changes millis fun d operations =>
    d.checked (marshalDelta e ⟨[], operations⟩ limits) fun _ =>
    d.checked (d.preflight operations) fun _ =>
    some (d.format operations, .ok ⟨[], operations⟩)

def formatWithLimits (d : Document) (offset count : Int) (changes : List AttributeChange) (limits : Limits)
    (millis : Int64) : Outcome Delta :=
  d.checked (.ofExcept (validateChanges (canonicalChanges changes))) fun _ =>
  d.checked (unbroken d.text.positions) fun positions =>
  if offset < 0 ∨ count < 0 ∨ offset > positions.length ∨ count > positions.length - offset then
    some (d, .error (.text .range))
  else d.formatPositions e ((positions.drop offset.toNat).take count.toNat) (canonicalChanges changes) limits millis

/-! ### Compaction -/

/-- One position of `compactMarksLocked`. -/
def compactAt (selected : TagSet) (gone : Position → Bool) (m : Marks) (p : Position × MarkSet) : Marks :=
  if gone p.1 then {marks := m.marks.erase p.1, markCount := m.markCount - p.2.len}
  else
    let keys := (p.2.rangeValues.filter fun q => q.2.deleted && selected.contains q.2.tag).map Prod.fst
    let (entries, markCount) := keys.foldl (fun (acc : MarkSet × Int) key =>
      let (entries, removed) := acc.1.remove key
      (entries, if removed then acc.2 - 1 else acc.2)) (p.2, m.markCount)
    {marks := if entries.len = 0 then m.marks.erase p.1 else m.marks.insert p.1 entries, markCount}

/-- `tombstoneTagsLocked` -/
def tombstoneTags : TagSet :=
  (Marks.assignments d.marks).foldl (fun all a => if a.value.deleted then all.insert a.value.tag else all)
    d.text.tombstones

/-- The text is compacted with `CompactEligibleTombstones` or with `CompactTombstones`. -/
def compactTombstones (d : Document) (tags : List Tag) (eligible : Bool) : Outcome Nat :=
  d.checked (check (tags.all Tag.valid) .unsafeCompaction) fun _ =>
  let selected := tags.foldl (fun s tag => s.insert tag) (∅ : TagSet)
  let before := d.tombstoneTags
  let text := if eligible then d.text.compactEligibleTombstones tags else d.text.compactTombstones tags
  let wrap := fun err => if err = Text.Err.unsafeCompaction then Err.unsafeCompaction else .text err
  let retained := d.text.retainsPosition
  d.onText wrap text fun d _ =>
    let m := d.marks.toList.foldl (compactAt selected fun p => retained p && !d.text.retainsPosition p) d.toMarks
    let d := {d with toMarks := m}
    some (d, .ok (before.toList.filter fun tag => selected.contains tag && !d.tombstoneTags.contains tag).length)

end Document

end Crdt.RichText
