import Crdt.RichText.Document

/-! Transactions of an editor.

An editor describes a change as a list of operations that retain, delete and insert from left to right.
They are executed on a copy of the text, which yields one text delta and the positions to be formatted;
the tags of the formatting come from the clock of the copy. Only then is the result applied to the
document, as one delta. -/
namespace Crdt.RichText

open Text (RGA Rune)
open Wire Checked

structure EditorOperation where
  retain : Int := 0
  delete : Int := 0
  insert : List Rune := []
  changes : List AttributeChange := []

structure EditorFormatPlan where
  targets : List Position
  changes : List AttributeChange

def kindCount (op : EditorOperation) : Nat :=
  (if op.retain > 0 then 1 else 0) + (if op.delete > 0 then 1 else 0) + (if op.insert ≠ [] then 1 else 0)

/-- One round of `canonicalEditorOperations`. -/
def canonicalEditorOperation (op : EditorOperation) : Except Err EditorOperation :=
  if op.retain < 0 ∨ op.delete < 0 ∨ kindCount op ≠ 1 then .error .invalidDelta
  else
    let changes := canonicalChanges op.changes
    match validateChanges changes with
    | .error err => .error err
    | .ok () =>
      if op.delete > 0 ∧ changes.length > 0 then .error .invalidDelta
      else if op.insert ≠ [] ∧ changes.any AttributeChange.remove then .error .invalidDelta
      else .ok {op with changes}

def canonicalEditorOperations (source : List EditorOperation) : Except Err (List EditorOperation) :=
  source.mapM canonicalEditorOperation

/-! ### The working copy -/

/-- A call of the copy, which is lost if the call fails. -/
def ofCall {ε α : Type} (wrap : ε → Err) : Option (RGA × Except ε α) → Checked Err (RGA × α)
  | none => .broken
  | some (_, .error err) => .error (wrap err)
  | some (working, .ok a) => .ok (working, a)

variable (e : Env)

/-- `editorCloneLocked` -/
def Document.editorClone (d : Document) (limits : Limits) (millis : Int64) : Checked Err RGA := do
  let state ← mapError .ofWire (d.text.marshalRunBinaryWithLimits e d.text.ascending limits)
  match Text.newFromClockWithOptions d.text.clock.snapshot d.options.text with
  | none => .broken
  | some (.error err) => .error (.text err)
  | some (.ok working) => do
    let (working, _) ← ofCall .ofWire (working.unmarshalRunBinaryWithLimits e state limits millis)
    return working

/-- What the operations so far have led to; the clock has been read `readings` times. -/
structure EditorState where
  working : RGA
  offset : Int := 0
  combined : Option Text.Delta := none
  plans : List EditorFormatPlan := []
  readings : Nat

/-- The text delta of all operations so far. -/
def combine (combined : Option Text.Delta) (change : Text.Delta) : Checked Err Text.Delta :=
  match combined with
  | none => .ok change
  | some combined => mapError .text (.ofExcept (combined.merge change))

/-- One round of `applyEditorOperations`. -/
def applyEditorOperation (limits : Limits) (millis : Nat → Int64) (s : EditorState) (op : EditorOperation) :
    Checked Err EditorState :=
  if op.retain > 0 then do
    let positions ← unbroken s.working.positions
    check (¬ (s.offset > positions.length ∨ op.retain > positions.length - s.offset)) (.text .range)
    let targets := (positions.drop s.offset.toNat).take op.retain.toNat
    return {s with
      plans := if op.changes.length > 0 then s.plans ++ [⟨sortTargets targets, op.changes⟩] else s.plans
      offset := s.offset + op.retain}
  else if op.delete > 0 then do
    let (working, change, _) ← ofCall .ofWire
      (s.working.prepareDeleteRunBinaryWithLimits e s.offset op.delete limits)
    let (working, _) ← ofCall .text (working.applyDelta change (millis s.readings))
    let combined ← combine s.combined change
    return {s with
      working
      combined := some combined
      readings := s.readings + 1}
  else if op.insert ≠ [] then do
    let (working, change, _) ← ofCall .ofWire
      (s.working.prepareInsertRunBinaryWithLimits e s.offset op.insert limits fun i => millis (s.readings + i))
    let (working, _) ← ofCall .text (working.applyDelta change (millis (s.readings + op.insert.length)))
    let combined ← combine s.combined change
    let inserted := change.nodePositions
    return {s with
      working
      combined := some combined
      plans := if op.changes.length > 0 ∧ inserted.length > 0 then s.plans ++ [⟨inserted, op.changes⟩] else s.plans
      offset := s.offset + inserted.length
      readings := s.readings + op.insert.length + 1}
  else return s

def applyEditorOperations (limits : Limits) (millis : Nat → Int64) (s : EditorState)
    (operations : List EditorOperation) : Checked Err EditorState :=
  operations.foldlM (applyEditorOperation e limits millis) s

/-! ### Block attributes -/

/-- `AttributeBlock`, "rt.block" -/
def attributeBlock : Str := [114, 116, 46, 98, 108, 111, 99, 107]

def newline : Rune := 10

/-- The first loop of `paragraphBounds`. -/
def paragraphStart (runes : List Rune) : Nat → Nat
  | 0 => 0
  | start + 1 => if runes[start]? = some newline then start + 1 else paragraphStart runes start

/-- `paragraphBounds(runes, index, index+1)` -/
def paragraphBounds (runes : List Rune) (index : Nat) : Nat × Nat :=
  let start := paragraphStart runes index
  if runes[index]? = some newline then (start, index + 1)
  else
    let stop := index + 1 + ((runes.drop (index + 1)).takeWhile (· ≠ newline)).length
    (start, if stop < runes.length then stop + 1 else stop)

/-- The positions of the paragraphs of all targets. -/
def paragraphTargets (positions : List Position) (runes : List Rune) (targets : List Position) : List Position :=
  let bounds := (targets.filter fun target => positions.contains target).map fun target =>
    paragraphBounds runes (positions.idxOf target)
  sortTargets (((List.range positions.length).filter fun i => bounds.any fun b => b.1 ≤ i && i < b.2).filterMap
    fun i => positions[i]?)

/-- The plans that one plan is expanded to. -/
def expandPlan (positions : List Position) (runes : List Rune) (plan : EditorFormatPlan) : List EditorFormatPlan :=
  let inline := plan.changes.filter fun change => change.key ≠ attributeBlock
  let blocks := plan.changes.filter fun change => change.key = attributeBlock
  let targets := paragraphTargets positions runes plan.targets
  (if inline.length > 0 then [⟨plan.targets, inline⟩] else []) ++
    if blocks.length = 0 ∨ targets.length = 0 then [] else [⟨targets, blocks⟩]

def expandEditorBlockPlans (working : RGA) (source : List EditorFormatPlan) : Checked Err (List EditorFormatPlan) := do
  if source.length = 0 then return []
  else do
    let positions ← unbroken working.positions
    let runes ← unbroken working.visibleRunes
    if positions.length = 0 ∨ runes.length = 0 then return []
    else return source.flatMap (expandPlan positions runes)

/-! ### The transaction -/

/-- One tag for every plan, from the clock of the copy. -/
def tagPlans (millis : Nat → Int64) : Nat → RGA → List EditorFormatPlan → Checked Err (List FormatOperation)
  | _, _, [] => return []
  | i, working, plan :: rest =>
    if plan.targets.length = 0 ∨ plan.changes.length = 0 then tagPlans millis i working rest
    else do
      let (working, tag) ← ofCall .text (some (working.nextTag (millis i)))
      let operations ← tagPlans millis (i + 1) working rest
      return ⟨tag, plan.targets, plan.changes⟩ :: operations

/-- The frame of the text delta, or nothing. -/
def encodeText (textDelta : Option Text.Delta) (limits : Limits) : Checked Err (List UInt8) :=
  match textDelta with
  | none => return []
  | some textDelta => mapError .ofWire (textDelta.marshalRunBinaryWithLimits e limits)

/-- What a transaction does to the text and to the marks, with its delta. -/
structure Transaction where
  textDelta : Option Text.Delta
  delta : Delta

/-- The part of a transaction that leaves the document alone. -/
def Document.prepareEditorDelta (d : Document) (operations : List EditorOperation) (limits : Limits)
    (millis : Nat → Int64) : Checked Err Transaction := do
  let prepared ← .ofExcept (canonicalEditorOperations operations)
  let working ← d.editorClone e limits (millis 0)
  let s ← applyEditorOperations e limits millis {working, readings := 1} prepared
  let plans ← expandEditorBlockPlans s.working s.plans
  let operations ← tagPlans millis s.readings s.working plans
  let textDelta ← encodeText e s.combined limits
  let _ ← marshalDelta e ⟨textDelta, operations⟩ limits
  return ⟨s.combined, ⟨textDelta, operations⟩⟩

/-- `textMillis` and `tagMillis` are read when the document itself changes. -/
def Document.applyEditorDeltaWithLimits (d : Document) (operations : List EditorOperation) (limits : Limits)
    (millis : Nat → Int64) (textMillis tagMillis : Int64) : Outcome Delta :=
  d.checked (d.prepareEditorDelta e operations limits millis) fun t =>
  d.checked (d.preflight t.delta.operations) fun _ =>
  d.applyText t.textDelta textMillis fun d =>
  d.witness (greatestOperationTag t.delta.operations) tagMillis fun d =>
  some (d.format t.delta.operations, .ok t.delta)

end Crdt.RichText
