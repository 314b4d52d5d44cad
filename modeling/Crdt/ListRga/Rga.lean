import Crdt.Clock.Hlc
import Crdt.Rga.Replica

/-! The collaborative list: an RGA of caller-coded values.

The list shares the pipeline of `Crdt.Rga.Replica` with the text. It has no run path and
no plan: the new nodes of a delta are classified, those within reach are integrated one
by one, parents first, and the others are queued. A value is a byte string that the
list's codec decodes and encodes to itself. -/
namespace Crdt.ListRga

open Clock Rga Sequence

/-! ### Codecs -/

/-- White space in front of a string. -/
def trimLeft : List UInt8 → List UInt8
  | [] => []
  | b :: rest =>
    if asciiSpace b then trimLeft rest else
    match rest with
    | [] => [b]
    | c :: rest =>
      if twoByteSpace b c then trimLeft rest else
      match rest with
      | [] => [b, c]
      | d :: rest => if threeByteSpace b c d then trimLeft rest else b :: c :: d :: rest

/-- White space at the end of a string, which is given in reverse. -/
def trimReversed : List UInt8 → List UInt8
  | [] => []
  | d :: rest =>
    if asciiSpace d then trimReversed rest else
    match rest with
    | [] => [d]
    | c :: rest =>
      if twoByteSpace c d then trimReversed rest else
      match rest with
      | [] => [d, c]
      | b :: rest => if threeByteSpace b c d then trimReversed rest else d :: c :: b :: rest

/-- `strings.TrimSpace` -/
def trimSpace (s : List UInt8) : List UInt8 := (trimReversed (trimLeft s).reverse).reverse

/-- The caller's codec. `none` is an error, or a panic that the guard around the codec has
recovered. -/
structure ElementCodec (T : Type) where
  id : List UInt8
  marshal : T → Option (List UInt8)
  unmarshal : List UInt8 → Option T

inductive Err
  | invalidReplica
  | invalidCodec
  | range
  | invalidDelta
  | tagConflict
  | incompleteState
  | resourceLimit
  | unsafeCompaction
  | clock (err : Clock.Err)
deriving DecidableEq, Repr

def codecIdentifier {T : Type} (codec : ElementCodec T) : Except Err (List UInt8) :=
  let id := trimSpace codec.id
  if id = [] then .error .invalidCodec else .ok id

/-! ### Lists -/

structure Delta where
  codecID : List UInt8
  nodes : TagMap (Node (List UInt8)) := ∅
  tombstones : TagSet := ∅

structure Options where
  maxNodes : Int
  maxTombstones : Int
  maxPendingNodes : Int
  maxPendingBytes : Int
  maxValueBytes : Int
deriving DecidableEq, Repr

def defaultOptions : Options := ⟨2 ^ 20, 2 ^ 20, 2 ^ 16, 2 ^ 22, 2 ^ 20⟩

def Options.valid (o : Options) : Bool :=
  o.maxNodes > 0 ∧ o.maxTombstones > 0 ∧ o.maxPendingNodes > 0 ∧ o.maxPendingBytes > 0 ∧
    o.maxValueBytes > 0

structure RGA (T : Type) extends Replica (List UInt8) where
  replicaID : List UInt8
  clock : HLC
  codec : ElementCodec T
  codecID : List UInt8
  options : Options

def nodeBytes (id : Position) (item : Node (List UInt8)) : Int :=
  96 + id.replicaID.length + item.parent.replicaID.length + item.value.length

/-- The list package's share of the pipeline. -/
def package : Package (List UInt8) where
  nodeBytes := nodeBytes
  insertPairAfter := SequenceIndex.insertPairAfterOneByOne
  splices := SequenceIndex.insertPairAfterOneByOne_spec

/-- The check `integrateReadyLocked` makes again. -/
def recheck (r : Replica (List UInt8)) (item : Node (List UInt8)) : Bool :=
  !item.parent.valid || r.nodes.contains item.parent

section
variable {T : Type}

def newFromClockWithOptions (state : Clock.State) (codec : ElementCodec T) (options : Options) :
    Option (Except Err (RGA T)) :=
  if !(Tag.valid ⟨state.replicaID, 0, 0⟩) then some (.error .invalidReplica) else
  match codecIdentifier codec with
  | .error err => some (.error err)
  | .ok codecID =>
    if !options.valid then some (.error .resourceLimit) else
    match newHLCFromState state with
    | .error err => some (.error (.clock err))
    | .ok clock => do
      let replica ← newReplica (List UInt8)
      return .ok {replica with replicaID := state.replicaID, clock, codec, codecID, options}

/-! ### Deltas -/

def validNode (id : Position) (item : Node (List UInt8)) : Bool :=
  id.valid && id ≠ item.parent && (item.parent = .zero || item.parent.valid)

def validateDelta (delta : Delta) : Except Err Unit :=
  if blank delta.codecID then .error .invalidDelta
  else if (delta.nodes.toList.all fun (id, item) => validNode id item) &&
      delta.tombstones.toList.all Tag.valid then .ok ()
  else .error .invalidDelta

/-- A value is the canonical encoding of what it decodes to. -/
def validateValue (codec : ElementCodec T) (options : Options) (value : List UInt8) :
    Except Err Unit :=
  if value.length > options.maxValueBytes then .error .resourceLimit else
  match codec.unmarshal value with
  | none => .error .invalidCodec
  | some decoded => if codec.marshal decoded = some value then .ok () else .error .invalidCodec

def RGA.validateValues (r : RGA T) (delta : Delta) : Except Err Unit :=
  delta.nodes.toList.forM fun (_, item) => validateValue r.codec r.options item.value

/-! ### Classification -/

/-- The nodes within reach, parents first: `done` is the part of the slice before the
index, `ready` the part from it on. -/
def classifyLoop (children : Position → List Position) :
    Nat → List Position → List Position → TagSet → Option (List Position × TagSet)
  | _, done, [], known => some (done, known)
  | 0, _, _ :: _, _ => none
  | n + 1, done, id :: ready, known =>
    if known.contains id then classifyLoop children n (done ++ [id]) ready known
    else classifyLoop children n (done ++ [id]) (ready ++ children id) (known.insert id)

/-- The new nodes to integrate, in order, and those that must wait. -/
def classifyNewNodes (r : Replica (List UInt8)) (nodes : TagMap (Node (List UInt8))) :
    Option (List Position × List (Position × Node (List UInt8))) := do
  let roots := nodes.keys.filter fun id =>
    (parentOf nodes id).any fun parent => !parent.valid || r.nodes.contains parent
  let (resolved, known) ← classifyLoop (byParent nodes) nodes.size [] roots ∅
  return (resolved, nodes.toList.filter fun (id, _) => !known.contains id)

def integrateNodes (nodes : TagMap (Node (List UInt8))) :
    Replica (List UInt8) → List Position → Option (Replica (List UInt8))
  | r, [] => some r
  | r, id :: rest => do
    let item := nodes[id]?.getD ⟨.zero, []⟩
    let r ← Replica.integrateNode package {r with nodes := r.nodes.insert id item} id item
    integrateNodes nodes r rest

/-! ### Application -/

namespace RGA

variable (r : RGA T)

/-- `Witness` of the greatest tag of a delta. -/
def witnessGreatest (delta : Delta) (millis : Int64) : RGA T × Except Err Unit :=
  match greatestTag delta.nodes delta.tombstones with
  | none => (r, .ok ())
  | some tag =>
    match r.clock.witness tag millis with
    | (clock, .error err) => ({r with clock}, .error (.clock err))
    | (clock, .ok ()) => ({r with clock}, .ok ())

/-- The last part of `ApplyDelta`: everything is checked, and now goes in. -/
def integrate (delta : Delta) (newNodes : TagMap (Node (List UInt8)))
    (resolved : List Position) (waiting : List (Position × Node (List UInt8))) :
    Option (RGA T × Except Err Unit) := do
  let state ← integrateNodes newNodes r.toReplica resolved
  let state := waiting.foldl (fun state (id, item) => state.enqueuePending package id item) state
  let (state, drained) ← state.integrateReady package recheck
  let (state, buried) ← state.applyTombstones delta.tombstones.toList
  let version :=
    if newNodes.size > 0 || drained || buried then state.version + 1 else state.version
  return ({r with toReplica := {state with version}}, .ok ())

def applyNewNodes (delta : Delta) (newNodes : TagMap (Node (List UInt8)))
    (millis : Int64) : Option (RGA T × Except Err Unit) := do
  let (resolved, waiting) ← classifyNewNodes r.toReplica newNodes
  let pendingByteCount := (waiting.map fun (id, item) => nodeBytes id item).sum
  if r.nodes.size + r.pending.size + newNodes.size > r.options.maxNodes ∨
      r.pending.size + waiting.length > r.options.maxPendingNodes ∨
      r.pendingBytes + pendingByteCount > r.options.maxPendingBytes ∨
      r.tombstones.size + newTombstones delta.tombstones r.tombstones > r.options.maxTombstones then
    return (r, .error .resourceLimit)
  match r.witnessGreatest delta millis with
  | (r, .error err) => return (r, .error err)
  | (r, .ok ()) => r.integrate delta newNodes resolved waiting

def applyDelta (delta : Delta) (millis : Int64) : Option (RGA T × Except Err Unit) :=
  if delta.codecID ≠ r.codecID ∨ validateDelta delta ≠ .ok () then some (r, .error .invalidDelta) else
  match r.validateValues delta with
  | .error err => some (r, .error err)
  | .ok () =>
    if r.conflicts delta.nodes then some (r, .error .tagConflict)
    else if r.subsumes delta.nodes delta.tombstones then some (r, .ok ())
    else
      let newNodes := delta.nodes.filter fun id _ => !r.nodes.contains id && !r.pending.contains id
      if !acyclicAgainst newNodes r.pending then some (r, .error .invalidDelta)
      else r.applyNewNodes delta newNodes millis

def positions : Option (List Position) := r.sequence.visiblePositions

end RGA

end

end Crdt.ListRga
