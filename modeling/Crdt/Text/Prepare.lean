import Crdt.Text.Edit
import Crdt.Text.RunState

/-! What the text offers to the structures that are built on it.

An edit is prepared as a delta with its frame and applied by the caller, who may refuse it in between;
a caller takes tags from the clock of the text and lets it witness tags of its own. -/
namespace Crdt.Text

open Clock Rga Wire

/-- `NodePositions` -/
def Delta.nodePositions (d : Delta) : List Position := d.nodes.keys

namespace RGA

/-- Ranges over maps in the order of their keys. -/
def ascending (r : RGA) : RangeOrder r := ⟨r.nodes.keys, r.tombstones.toList, .refl _, .refl _⟩

def nextTag (r : RGA) (millis : Int64) : RGA × Except Err Position :=
  match r.clock.now millis with
  | (clock, .error err) => ({r with clock}, .error (.clock err))
  | (clock, .ok tag) => ({r with clock}, .ok tag)

def witnessTag (r : RGA) (tag : Position) (millis : Int64) : RGA × Except Err Unit :=
  match r.clock.witness tag millis with
  | (clock, .error err) => ({r with clock}, .error (.clock err))
  | (clock, .ok ()) => ({r with clock}, .ok ())

/-- The frame of a prepared delta. -/
def encodePrepared (e : Env) (r : RGA) (delta : Delta) (limits : Limits) :
    Option (RGA × Except WireErr (Delta × List UInt8)) :=
  match delta.marshalRunBinaryWithLimits e limits with
  | .broken => none
  | .error err => some (r, .error err)
  | .ok encoded => some (r, .ok (delta, encoded))

def prepareInsertRunBinaryWithLimits (e : Env) (r : RGA) (offset : Int) (value : List Rune) (limits : Limits)
    (millis : Nat → Int64) : Option (RGA × Except WireErr (Delta × List UInt8)) := do
  match ← r.prepareInsertWithPredecessor offset value millis with
  | (r, .error err) => return (r, .error (.text err))
  | (r, .ok (delta, _)) => encodePrepared e r delta limits

def prepareDeleteRunBinaryWithLimits (e : Env) (r : RGA) (offset count : Int) (limits : Limits) :
    Option (RGA × Except WireErr (Delta × List UInt8)) :=
  if offset < 0 ∨ count < 0 then some (r, .error (.text .range))
  else if offset > r.len ∨ count > r.len - offset then some (r, .error (.text .range))
  else do
    match ← r.visibleRun offset count.toNat with
    | none => return (r, .error (.text .range))
    | some positions => encodePrepared e r {tombstones := positions.foldl (fun s id => s.insert id) ∅} limits

end RGA

end Crdt.Text
