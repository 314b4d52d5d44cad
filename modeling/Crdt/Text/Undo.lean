import Crdt.Text.Edit

/-! The local undo history.

An `UndoManager` stands between an editor and its replica. It notes every insertion and
deletion that goes through it; Undo and Redo make new edits of the replica and never take
one back. The notes are entries that point at one another: a deletion remembers for each of
its positions which insertion owns it, so that the owner can be told when Undo gives the
rune a new position. Go's pointers to entries are indices into `entries` here, and both
stacks have their top first. -/
namespace Crdt.Text

open Clock Rga

structure UndoOptions where
  maxEntries : Int
  maxRunes : Int
deriving DecidableEq, Repr

def UndoOptions.default : UndoOptions := ⟨256, 1048576⟩

def UndoOptions.valid (o : UndoOptions) : Bool := o.maxEntries > 0 && o.maxRunes > 0

inductive UndoKind
  | insertion
  | deletion
deriving DecidableEq, Repr

/-- The entry of an insertion, and which of its positions is meant. -/
structure PositionOwner where
  entry : Nat
  index : Nat
deriving DecidableEq, Repr

/-- A deleted position: that of an owner, or one from outside the history. -/
inductive UndoTarget
  | owned (owner : PositionOwner)
  | external (position : Position)
deriving DecidableEq, Repr

structure UndoEntry where
  kind : UndoKind
  predecessor : Position
  value : List Rune
  positions : List Position
  targets : List UndoTarget := []
  runes : Int
deriving DecidableEq, Repr

structure UndoManager where
  value : RGA
  options : UndoOptions
  entries : List UndoEntry := []
  undo : List Nat := []
  redo : List Nat := []
  undoRunes : Int := 0
  redoRunes : Int := 0
  owners : TagMap PositionOwner := ∅

def newUndoManagerWithOptions (value : RGA) (options : UndoOptions) : Except Err UndoManager :=
  if !options.valid then .error .invalidUndoOptions else .ok {value, options}

def sortedDeltaPositions (delta : Delta) : List Position := delta.nodes.keys

namespace UndoManager

def registerFrom (owners : TagMap PositionOwner) (id : Nat) : Nat → List Position →
    TagMap PositionOwner
  | _, [] => owners
  | index, position :: rest =>
    if position.valid then registerFrom (owners.insert position ⟨id, index⟩) id (index + 1) rest
    else registerFrom owners id (index + 1) rest

variable (m : UndoManager)

def registerOwnedPositions (id : Nat) (positions : List Position) : UndoManager :=
  {m with owners := registerFrom m.owners id 0 positions}

def unregister (owners : TagMap PositionOwner) (positions : List Position) : TagMap PositionOwner :=
  positions.foldl (fun owners position => owners.erase position) owners

def unregisterOwnedPositions (positions : List Position) : UndoManager :=
  {m with owners := unregister m.owners positions}

/-- Overwrite one position of an entry; the source's slices have a fixed length. -/
def setPosition (id index : Nat) (position : Position) : UndoManager :=
  {m with entries := m.entries.modify id fun entry =>
    {entry with positions := entry.positions.set index position}}

def replaceOwnedPosition (owner : PositionOwner) (position : Position) :
    Option UndoManager := do
  let entry ← m.entries[owner.entry]?
  match entry.positions[owner.index]? with
  | none => return m
  | some old =>
    let m := {m with owners := m.owners.erase old}
    let m := m.setPosition owner.entry owner.index position
    return {m with owners := m.owners.insert position owner}

def clear : UndoManager :=
  {m with undo := [], redo := [], undoRunes := 0, redoRunes := 0, owners := ∅}

/-- Forget who owns the positions of the insertions among `ids`. -/
def disown (entries : List UndoEntry) (owners : TagMap PositionOwner) (ids : List Nat) :
    TagMap PositionOwner :=
  ids.foldl (fun owners id =>
    match entries[id]? with
    | some entry => if entry.kind = .insertion then unregister owners entry.positions else owners
    | none => owners) owners

def discardRedo : UndoManager :=
  {m with owners := disown m.entries m.owners m.redo, redo := [], redoRunes := 0}

/-- The retained history has no room for another edit of so many runes. -/
def full (runes : Int) : Bool :=
  decide ((m.undo.length : Int) ≥ m.options.maxEntries) ||
    decide (m.undoRunes > m.options.maxRunes - runes)

def recordNewEntry (entry : UndoEntry) : UndoManager :=
  let m := if m.full entry.runes then m.clear else m.discardRedo
  {m with
    entries := m.entries ++ [entry]
    undo := m.entries.length :: m.undo
    undoRunes := m.undoRunes + entry.runes}

def insert (offset : Int) (value : List Rune) (millis : Nat → Int64) :
    Option (UndoManager × Except Err Delta) :=
  if !value.all validRune then some (m, .error .invalidText)
  else if (value.length : Int) > m.options.maxRunes then some (m, .error .undoHistoryLimit)
  else do
    match ← m.value.insertWithPredecessor offset value millis with
    | (r, .error err) => return ({m with value := r}, .error err)
    | (r, .ok (delta, predecessor)) =>
      let m := {m with value := r}
      if delta.nodes.size = 0 then return (m, .ok delta)
      let positions := sortedDeltaPositions delta
      let entry : UndoEntry :=
        {kind := .insertion, predecessor, value, positions, runes := value.length}
      let m := m.recordNewEntry entry
      return (m.registerOwnedPositions (m.entries.length - 1) positions, .ok delta)

def target (position : Position) : UndoTarget :=
  match m.owners[position]? with
  | some owner => .owned owner
  | none => .external position

def delete (offset count : Int) (millis : Int64) :
    Option (UndoManager × Except Err Delta) := do
  match ← m.value.deleteWithUndoCapture offset count m.options.maxRunes millis with
  | (r, .error err) => return ({m with value := r}, .error err)
  | (r, .ok (delta, predecessor, value, positions)) =>
    let m := {m with value := r}
    if count = 0 then return (m, .ok delta)
    return (m.recordNewEntry
      {kind := .deletion, predecessor, value, targets := positions.map m.target
       positions := List.replicate positions.length .zero, runes := positions.length}, .ok delta)

/-- The re-inserted runes of a deletion get their new positions noted, each with its owner
or else with the deletion itself. -/
def retarget (m : UndoManager) (id : Nat) : Nat → List (Position × UndoTarget) → Option UndoManager
  | _, [] => some m
  | index, (position, .external _) :: rest => retarget (m.setPosition id index position) id (index + 1) rest
  | index, (position, .owned owner) :: rest => do
    retarget (← m.replaceOwnedPosition owner position) id (index + 1) rest

def undoEntry (id : Nat) (entry : UndoEntry) (millis : Nat → Int64) :
    Option (UndoManager × Except Err Delta) := do
  match entry.kind with
  | .insertion =>
    let (r, result) ← m.value.tombstoneRetainedPositions entry.positions (millis 0)
    return ({m with value := r}, result)
  | .deletion =>
    match ← m.value.insertAfter entry.predecessor entry.value millis with
    | (r, .error err) => return ({m with value := r}, .error err)
    | (r, .ok delta) =>
      let m := {m with value := r}
      let positions := sortedDeltaPositions delta
      if positions.length ≠ entry.targets.length then return (m, .error .invalidDelta)
      return (← m.retarget id 0 (positions.zip entry.targets), .ok delta)

/-- Where the runes of a deletion are now; the inner `none` is an index out of range that
the source checks for. -/
def targetPositions (m : UndoManager) (entry : UndoEntry) : Nat → List UndoTarget →
    Option (Option (List Position))
  | _, [] => some (some [])
  | index, .external _ :: rest => do
    let position ← entry.positions[index]?
    let positions ← targetPositions m entry (index + 1) rest
    return positions.map (position :: ·)
  | index, .owned owner :: rest => do
    match (← m.entries[owner.entry]?).positions[owner.index]? with
    | none => return none
    | some position =>
      let positions ← targetPositions m entry (index + 1) rest
      return positions.map (position :: ·)

def redoEntry (id : Nat) (entry : UndoEntry) (millis : Nat → Int64) :
    Option (UndoManager × Except Err Delta) := do
  match entry.kind with
  | .insertion =>
    match ← m.value.insertAfter entry.predecessor entry.value millis with
    | (r, .error err) => return ({m with value := r}, .error err)
    | (r, .ok delta) =>
      let positions := sortedDeltaPositions delta
      let m := UndoManager.unregisterOwnedPositions {m with value := r} entry.positions
      let m := {m with entries := m.entries.modify id fun entry => {entry with positions}}
      return (m.registerOwnedPositions id positions, .ok delta)
  | .deletion =>
    match ← m.targetPositions entry 0 entry.targets with
    | none => return (m, .error .invalidDelta)
    | some positions =>
      let (r, result) ← m.value.tombstoneRetainedPositions positions (millis 0)
      return ({m with value := r}, result)

/-- `Undo`. The inverse edit comes first; only if it succeeds is the entry moved. -/
def undoLast (millis : Nat → Int64) : Option (UndoManager × Except Err Delta) :=
  match m.undo with
  | [] => some (m, .error .noUndo)
  | id :: rest => do
    let entry ← m.entries[id]?
    match ← m.undoEntry id entry millis with
    | (m, .error err) => return (m, .error err)
    | (m, .ok delta) =>
      return ({m with
        undo := rest
        undoRunes := m.undoRunes - entry.runes
        redo := id :: m.redo
        redoRunes := m.redoRunes + entry.runes}, .ok delta)

/-- `Redo`. -/
def redoLast (millis : Nat → Int64) : Option (UndoManager × Except Err Delta) :=
  match m.redo with
  | [] => some (m, .error .noRedo)
  | id :: rest => do
    let entry ← m.entries[id]?
    match ← m.redoEntry id entry millis with
    | (m, .error err) => return (m, .error err)
    | (m, .ok delta) =>
      return ({m with
        redo := rest
        redoRunes := m.redoRunes - entry.runes
        undo := id :: m.undo
        undoRunes := m.undoRunes + entry.runes}, .ok delta)

end UndoManager

end Crdt.Text
