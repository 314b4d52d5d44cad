import Crdt.Clock.Hlc
import Crdt.Rga.Replica

/-! The collaborative text: deltas and their application.

A delta is validated on its own, compared with what the replica has, and then takes
one of two ways in. A long chain of new nodes of one replica below a known parent is
spliced as one run; everything else is planned first, and either integrated as a
whole, when the plan reaches every node, or queued and drained. No call changes
anything before all of its checks have passed. -/
namespace Crdt.Text

open Clock Rga Sequence

/-- A Go rune: any 32-bit value; `validRune` are the Unicode scalar values. -/
abbrev Rune := Int

/-- `utf8.ValidRune` -/
def validRune (r : Rune) : Bool := (0 ≤ r ∧ r < 0xD800) ∨ (0xDFFF < r ∧ r ≤ 0x10FFFF)

inductive Err
  | invalidReplicaID
  | invalidText
  | range
  | invalidDelta
  | incompleteState
  | tagConflict
  | unsafeCompaction
  | resourceLimit
  | invalidSnapshot
  | incompatibleSnapshot
  | undoAnchorGone
  | noUndo
  | noRedo
  | invalidUndoOptions
  | undoHistoryLimit
  | clock (err : Clock.Err)
deriving DecidableEq, Repr

/-- `resolvedRunFastPathMinNodes` -/
def resolvedRunFastPathMinNodes : Nat := 16

structure Delta where
  nodes : TagMap (Node Rune) := ∅
  tombstones : TagSet := ∅
  /-- The identifiers of a local run in order; never decoded from a peer. -/
  canonicalNodeIDs : List Position := []

structure Options where
  maxNodes : Int
  maxTombstones : Int
  maxPendingNodes : Int
  maxPendingBytes : Int
deriving DecidableEq, Repr

def defaultOptions : Options := ⟨2 ^ 20, 2 ^ 20, 2 ^ 16, 2 ^ 22⟩

def Options.valid (o : Options) : Bool :=
  o.maxNodes > 0 ∧ o.maxTombstones > 0 ∧ o.maxPendingNodes > 0 ∧ o.maxPendingBytes > 0

structure RGA extends Replica Rune where
  replicaID : List UInt8
  clock : HLC
  options : Options

def nodeBytes (id : Position) (item : Node Rune) : Int :=
  64 + id.replicaID.length + item.parent.replicaID.length

/-- The text package's share of the pipeline. -/
def package : Package Rune where
  nodeBytes := nodeBytes
  insertPairAfter := SequenceIndex.insertPairAfter
  splices := SequenceIndex.insertPairAfter_spec

def newFromClockWithOptions (state : Clock.State) (options : Options) : Option (Except Err RGA) :=
  if !(Tag.valid ⟨state.replicaID, 0, 0⟩) then some (.error .invalidReplicaID) else
  if !options.valid then some (.error .resourceLimit) else
  match newHLCFromState state with
  | .error err => some (.error (.clock err))
  | .ok clock => do
    let replica ← newReplica Rune
    return .ok {replica with replicaID := state.replicaID, clock, options}

def newWithOptions (replicaID : List UInt8) (options : Options) : Option (Except Err RGA) :=
  newFromClockWithOptions ⟨replicaID, 0, 0⟩ options

/-! ### Deltas -/

def validNode (id : Position) (item : Node Rune) : Bool :=
  id.valid && validRune item.value && (item.parent = .zero || item.parent.valid) && id ≠ item.parent

def validateDelta (delta : Delta) : Except Err Unit :=
  if (delta.nodes.toList.all fun (id, item) => validNode id item) &&
      delta.tombstones.toList.all Tag.valid then .ok ()
  else .error .invalidDelta

/-- The recorded order of a local run, after a check that it is the order of the nodes. -/
def Delta.cachedCanonicalNodeIDs (d : Delta) : Option (List Position) :=
  let ids := d.canonicalNodeIDs
  if ids.length = 0 ∨ ids.length ≠ d.nodes.size then none
  else if ids.IsChain (· < ·) ∧ ∀ id ∈ ids, id ∈ d.nodes then some ids
  else none

/-- The join of two deltas. -/
def Delta.merge (d other : Delta) : Except Err Delta := do
  validateDelta d
  validateDelta other
  if other.nodes.toList.any fun (id, incoming) => d.nodes[id]?.any (· ≠ incoming) then
    .error .tagConflict
  else
    .ok {nodes := other.nodes.toList.foldl (fun nodes (id, item) => nodes.insert id item) d.nodes
         tombstones := other.tombstones.toList.foldl (fun tombstones id => tombstones.insert id)
           d.tombstones}

/-! ### Plans -/

structure DeltaPlan where
  nodes : TagMap (Node Rune)
  roots : List Position
  pendingNodes : Nat
  pendingBytes : Int

def DeltaPlan.children (plan : DeltaPlan) (id : Position) : List Position := byParent plan.nodes id

/-- The nodes within reach of the queue `ready`. -/
def resolveLoop (children : Position → List Position) :
    Nat → List Position → TagSet → Option TagSet
  | _, [], resolved => some resolved
  | 0, _ :: _, _ => none
  | n + 1, id :: ready, resolved =>
    if resolved.contains id then resolveLoop children n ready resolved
    else resolveLoop children n (ready ++ children id) (resolved.insert id)

variable (r : Replica Rune)

/-- Sort the new nodes of a delta into those within reach and those that must wait. -/
def planDelta (delta : Delta) : Option DeltaPlan := do
  let nodes := delta.nodes.filter fun id _ => !r.nodes.contains id && !r.pending.contains id
  let roots := nodes.keys.filter fun id =>
    (parentOf nodes id).any fun parent => !parent.valid || r.nodes.contains parent
  let resolved ← resolveLoop (byParent nodes) nodes.size roots ∅
  let waiting := nodes.toList.filter fun (id, _) => !resolved.contains id
  return { nodes, roots, pendingNodes := waiting.length
           pendingBytes := (waiting.map fun (id, item) => nodeBytes id item).sum }

def integrateResolvedLoop (plan : DeltaPlan) :
    Nat → Replica Rune → List Position → Option (Replica Rune)
  | _, r, [] => some r
  | 0, _, _ :: _ => none
  | n + 1, r, id :: ready => do
    let item := plan.nodes[id]?.getD ⟨.zero, 0⟩
    let r ← Replica.integrateNode package {r with nodes := r.nodes.insert id item} id item
    integrateResolvedLoop plan n r (ready ++ plan.children id)

/-- Integrate a plan without waiting nodes, parents before children. -/
def integrateResolved (plan : DeltaPlan) : Option (Replica Rune × Bool) :=
  if plan.nodes.size = 0 ∨ plan.pendingNodes ≠ 0 then some (r, false) else do
    let r ← integrateResolvedLoop plan plan.nodes.size r plan.roots
    return (r, true)

/-- A plan without waiting nodes is integrated; the nodes of any other are queued. -/
def integratePlan (plan : DeltaPlan) : Option (Replica Rune × Bool) := do
  let (state, changed) ← integrateResolved r plan
  if plan.pendingNodes > 0 then
    return (plan.nodes.toList.foldl (fun state (id, item) => state.enqueuePending package id item) state,
      plan.nodes.size > 0)
  return (state, changed)

/-! ### Runs -/

/-- New nodes of one replica, each but the first below the one before it. -/
def linearFrom (r : Replica Rune) (nodes : TagMap (Node Rune)) (replicaID : List UInt8) :
    Option Position → List Position → Bool
  | _, [] => true
  | previous, id :: rest =>
    id.replicaID = replicaID && !r.nodes.contains id && !r.pending.contains id &&
      (previous = none || parentOf nodes id = previous) && linearFrom r nodes replicaID (some id) rest

/-- The identifiers of a delta that is one new chain below the root or a known node. -/
def resolvedLinearRun (delta : Delta) : Option (List Position) :=
  if delta.nodes.size < resolvedRunFastPathMinNodes then none else
  let ids := delta.cachedCanonicalNodeIDs.getD delta.nodes.keys
  match ids with
  | [] => none
  | first :: _ =>
    let parent := (parentOf delta.nodes first).getD .zero
    if parent.valid && !r.nodes.contains parent then none
    else if linearFrom r delta.nodes first.replicaID none ids then some ids
    else none

/-- `pairs[index-1].singleChild = &pairs[index]` along a run. -/
def linkSingleChildren (s : SequenceIndex) : List Nat → SequenceIndex
  | previous :: current :: rest =>
    linkSingleChildren (ChildIndex.setSingleChild s previous (some current)) (current :: rest)
  | _ => s

/-- Put a run into the indexes. -/
def integrateRun (nodes : TagMap (Node Rune)) (ids : List Position) :
    Option (Replica Rune) :=
  let (sequence, pairs) := r.sequence.newSequencePairs
    (ids.map fun id => (id, !r.tombstones.contains id))
  match ids, pairs with
  | first :: _, pair :: _ => do
    let item := nodes[first]?.getD ⟨.zero, 0⟩
    let parent ← sequence.pair item.parent
    let (children, sequence, previous) := r.children.insert sequence parent pair
    let sequence ← (linkSingleChildren sequence pairs).insertLinearPairsAfter
      (anchorAfter parent previous) pairs
    let known := ids.foldl (fun known id => known.insert id (nodes[id]?.getD ⟨.zero, 0⟩)) r.nodes
    return {r with nodes := known, sequence, children}
  | _, _ => some r

/-! ### Application -/

namespace RGA

variable (r : RGA)

section
variable (delta : Delta)

/-- `Witness` of the greatest tag of a delta. -/
def witnessGreatest (millis : Int64) : RGA × Except Err Unit :=
  match greatestTag delta.nodes delta.tombstones with
  | none => (r, .ok ())
  | some tag =>
    match r.clock.witness tag millis with
    | (clock, .error err) => ({r with clock}, .error (.clock err))
    | (clock, .ok ()) => ({r with clock}, .ok ())

/-- Drain the queue, retain the tombstones and count the change. -/
def finish (state : Replica Rune) (changed : Bool) : Option (RGA × Except Err Unit) := do
  let (state, drained) ← state.integrateReady package fun _ _ => true
  let (state, buried) ← state.applyTombstones delta.tombstones.toList
  let version := if changed || drained || buried then state.version + 1 else state.version
  return ({r with toReplica := {state with version}}, .ok ())

def applyResolvedLinearRun (ids : List Position) (millis : Int64) : Option (RGA × Except Err Unit) :=
  if r.nodes.size + r.pending.size + ids.length > r.options.maxNodes ∨
      r.tombstones.size + newTombstones delta.tombstones r.tombstones > r.options.maxTombstones then
    some (r, .error .resourceLimit)
  else
    match r.witnessGreatest delta millis with
    | (r, .error err) => some (r, .error err)
    | (r, .ok ()) => do
      let state ← integrateRun r.toReplica delta.nodes ids
      r.finish delta state (ids.length > 0)

def applyPlannedDelta (millis : Int64) : Option (RGA × Except Err Unit) := do
  let plan ← planDelta r.toReplica delta
  if r.nodes.size + r.pending.size + plan.nodes.size > r.options.maxNodes ∨
      r.pending.size + plan.pendingNodes > r.options.maxPendingNodes ∨
      r.pendingBytes + plan.pendingBytes > r.options.maxPendingBytes ∨
      r.tombstones.size + newTombstones delta.tombstones r.tombstones > r.options.maxTombstones then
    return (r, .error .resourceLimit)
  match r.witnessGreatest delta millis with
  | (r, .error err) => return (r, .error err)
  | (r, .ok ()) =>
    let (state, changed) ← integratePlan r.toReplica plan
    r.finish delta state changed

def applyDeltaLocked (millis : Int64) : Option (RGA × Except Err Unit) :=
  if r.conflicts delta.nodes then some (r, .error .tagConflict)
  else if r.subsumes delta.nodes delta.tombstones then some (r, .ok ())
  else
    match resolvedLinearRun r.toReplica delta with
    | some ids => r.applyResolvedLinearRun delta ids millis
    | none =>
      if !acyclicAgainst delta.nodes r.pending then some (r, .error .invalidDelta)
      else r.applyPlannedDelta delta millis

def applyDelta (millis : Int64) : Option (RGA × Except Err Unit) :=
  match validateDelta delta with
  | .error err => some (r, .error err)
  | .ok () => r.applyDeltaLocked delta millis

end

/-- Everything a replica has, as one delta. -/
def asDelta (other : RGA) : Delta :=
  { nodes := other.pending.toList.foldl (fun nodes (id, item) => nodes.insert id item) other.nodes
    tombstones := other.tombstones }

/-- `Merge` of another replica; a merge with itself changes nothing and is not modelled. -/
def merge (r other : RGA) (millis : Int64) : Option (RGA × Except Err Unit) :=
  r.applyDelta other.asDelta millis

/-! ### Queries -/

def positions : Option (List Position) := r.sequence.visiblePositions

def len : Nat := visibleCount r.sequence.markers r.sequence.root

/-- `string(rune)`: an invalid rune prints as the replacement character. -/
def runeChar (v : Rune) : Char :=
  if validRune v then Char.ofNat v.toNat else Char.ofNat 0xFFFD

/-- The runes of the visible nodes; a position without a node would read as zero. -/
def visibleRunes : Option (List Rune) := do
  let positions ← r.positions
  return positions.map fun id => (r.nodes[id]?.map Node.value).getD 0

def string : Option String := do
  let runes ← r.visibleRunes
  return String.ofList (runes.map runeChar)

end RGA

end Crdt.Text
