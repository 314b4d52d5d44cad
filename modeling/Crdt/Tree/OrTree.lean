import Crdt.Clock.Hlc
import Crdt.Rga.Replica

/-! The observed-remove tree.

Nodes with immutable parents, under the synthetic root that is the zero ID, and tombstones. What
is visible is what the root reaches without passing a tombstone; `Nodes` lists it and `State`
counts it, each with a cache of its own that is valid for one version of the tree. Three walks
decide about visibility: `liveReachable` goes up from a node, `visibleNodeIDs` goes down from the
root in order, and `countVisible` goes down in any order. -/
namespace Crdt.Tree

open Clock

abbrev NodeID := Tag

/-- A stored node: its parent and its value. -/
abbrev StoredNode := Rga.Node (List UInt8)

inductive Err
  | invalidReplicaID
  | unknownParent
  | unknownNode
  | invalidDelta
  | invalidFrame
  | nodeConflict
  | resourceLimit
  | unsafeCompaction
  | clock (err : Clock.Err)
deriving DecidableEq, Repr

structure Delta where
  nodes : TagMap StoredNode := ∅
  tombstones : TagSet := ∅

structure Options where
  maxNodes : Int
  maxTombstones : Int
  maxValueBytes : Int
deriving DecidableEq, Repr

def Options.default : Options := ⟨1048576, 1048576, 1048576⟩

def Options.valid (o : Options) : Bool :=
  o.maxNodes > 0 && o.maxTombstones > 0 && o.maxValueBytes > 0

structure ORTree where
  replicaID : List UInt8
  clock : HLC
  options : Options
  nodes : TagMap StoredNode := ∅
  tombstones : TagSet := ∅
  version : UInt64 := 0
  visibleCount : Nat := 0
  visibleCountVersion : UInt64 := 0
  visibleIDs : List NodeID := []
  visibleIDsVersion : UInt64 := 0

def newFromClockWithOptions (state : Clock.State) (options : Options) : Except Err ORTree :=
  if !(Tag.valid ⟨state.replicaID, 0, 0⟩) then .error .invalidReplicaID
  else if !options.valid then .error .resourceLimit
  else
    match newHLCFromState state with
    | .error err => .error (.clock err)
    | .ok clock => .ok {replicaID := state.replicaID, clock, options}

/-! ### Visibility -/

/-- Up from `id` to the root. The walk passes another node in every step, so it never takes more
steps than there are nodes, and one. -/
def liveReachableLoop (nodes : TagMap StoredNode) (tombstones : TagSet) : Nat → TagSet → NodeID → Bool
  | 0, _, _ => false
  | n + 1, seen, id =>
    if !id.valid then true
    else if seen.contains id then false
    else if tombstones.contains id then false
    else
      match nodes[id]? with
      | none => false
      | some node => liveReachableLoop nodes tombstones n (seen.insert id) node.parent

def liveReachable (id : NodeID) (nodes : TagMap StoredNode) (tombstones : TagSet) : Bool :=
  liveReachableLoop nodes tombstones (nodes.size + 2) ∅ id

/-- Down from the root; the top of the stack comes first, and `none` is out of fuel. -/
def visitLoop (children : NodeID → List NodeID) (tombstones : TagSet) :
    Nat → List NodeID → List NodeID → Option (List NodeID)
  | _, [], result => some result
  | 0, _ :: _, _ => none
  | n + 1, id :: stack, result =>
    if tombstones.contains id then visitLoop children tombstones n stack result
    else visitLoop children tombstones n (children id ++ stack) (result ++ [id])

/-- The visible nodes in preorder, siblings with the greatest ID first. -/
def visibleNodeIDs (nodes : TagMap StoredNode) (tombstones : TagSet) : Option (List NodeID) :=
  visitLoop (Rga.kidsOf nodes) tombstones nodes.size (Rga.kidsOf nodes .zero) []

def countLoop (children : NodeID → List NodeID) (tombstones : TagSet) :
    Nat → List NodeID → Nat → Option Nat
  | _, [], count => some count
  | 0, _ :: _, _ => none
  | n + 1, id :: stack, count =>
    if tombstones.contains id then countLoop children tombstones n stack count
    else countLoop children tombstones n ((children id).reverse ++ stack) (count + 1)

/-- The number of visible nodes; the children are in the order of the map. -/
def countVisible (nodes : TagMap StoredNode) (tombstones : TagSet) : Option Nat :=
  countLoop (Rga.byParent nodes) tombstones nodes.size (Rga.byParent nodes .zero).reverse 0

structure VisibleNode where
  id : NodeID
  parent : NodeID
  value : List UInt8
deriving DecidableEq, Repr

def nodesForVisibleIDs (ids : List NodeID) (nodes : TagMap StoredNode) : List VisibleNode :=
  ids.map fun id =>
    let node := nodes[id]?.getD ⟨.zero, []⟩
    ⟨id, node.parent, node.value⟩

/-! ### Checks -/

def validate (delta : Delta) : Except Err Unit :=
  if delta.nodes.toList.any fun p => !p.1.valid || p.1 = p.2.parent ||
      (p.2.parent ≠ .zero && !p.2.parent.valid) then .error .invalidDelta
  else if !delta.tombstones.toList.all Tag.valid then .error .invalidDelta
  else .ok ()

def treeDeltaSubsumed (nodes : TagMap StoredNode) (tombstones : TagSet) (delta : Delta) : Bool :=
  (delta.nodes.toList.all fun p => nodes[p.1]? = some p.2) && delta.tombstones.toList.all tombstones.contains

/-- The loop is that of the sequences: one colouring for all incoming nodes. -/
def acyclic (incoming existing : TagMap StoredNode) : Bool := Rga.acyclicAgainst incoming existing

def rootedMonotonicDeltaAcyclic (incoming : TagMap StoredNode) : Bool :=
  incoming.toList.all fun p =>
    !p.2.parent.valid || (p.2.parent.compare p.1 = .lt && incoming.contains p.2.parent)

def greatest (delta : Delta) : Option NodeID :=
  let fromNodes := delta.nodes.toList.foldl (fun (greatest : Option NodeID) p =>
    let greatest := match greatest with
      | none => p.1
      | some g => if g.compare p.1 = .lt then p.1 else g
    if p.2.parent.valid && greatest.compare p.2.parent = .lt then some p.2.parent else some greatest)
    none
  delta.tombstones.toList.foldl (fun greatest id =>
    match greatest with
    | none => some id
    | some g => if g.compare id = .lt then some id else some g) fromNodes

def newTreeNodes (incoming existing : TagMap StoredNode) : Nat :=
  incoming.toList.countP fun p => !existing.contains p.1

def newTreeTombstones (incoming existing : TagSet) : Nat :=
  incoming.toList.countP fun id => !existing.contains id

/-! ### Calls -/

/-- Take one node in; the flag is whether anything was new. -/
def takeNode (acc : TagMap StoredNode × Bool) (p : NodeID × StoredNode) : TagMap StoredNode × Bool :=
  if acc.1.contains p.1 then acc else (acc.1.insert p.1 p.2, true)

def takeTombstone (acc : TagSet × Bool) (id : NodeID) : TagSet × Bool :=
  if acc.1.contains id then acc else (acc.1.insert id, true)

/-- `Delta.Merge` -/
def Delta.merge (d other : Delta) : Except Err Delta :=
  match validate d with
  | .error err => .error err
  | .ok () =>
  match validate other with
  | .error err => .error err
  | .ok () =>
    if other.nodes.toList.any fun p => (d.nodes[p.1]?).any (· ≠ p.2) then .error .nodeConflict
    else .ok {
      nodes := other.nodes.toList.foldl (fun nodes p => nodes.insert p.1 p.2) d.nodes
      tombstones := other.tombstones.toList.foldl (fun tombstones id => tombstones.insert id) d.tombstones}

namespace ORTree

variable (t : ORTree)

def join (delta : Delta) : ORTree :=
  let nodes := delta.nodes.toList.foldl takeNode (t.nodes, false)
  let tombstones := delta.tombstones.toList.foldl takeTombstone (t.tombstones, nodes.2)
  {t with
    nodes := nodes.1
    tombstones := tombstones.1
    version := if tombstones.2 then t.version + 1 else t.version}

def applyDelta (delta : Delta) (millis : Int64) : ORTree × Except Err Unit :=
  match validate delta with
  | .error err => (t, .error err)
  | .ok () =>
  if delta.nodes.toList.any fun p => (p.2.value.length : Int) > t.options.maxValueBytes then
    (t, .error .resourceLimit)
  else if delta.nodes.toList.any fun p => (t.nodes[p.1]?).any (· ≠ p.2) then (t, .error .nodeConflict)
  else if treeDeltaSubsumed t.nodes t.tombstones delta then (t, .ok ())
  else if (t.nodes.size : Int) + newTreeNodes delta.nodes t.nodes > t.options.maxNodes ||
      (t.tombstones.size : Int) + newTreeTombstones delta.tombstones t.tombstones >
        t.options.maxTombstones then (t, .error .resourceLimit)
  else if !rootedMonotonicDeltaAcyclic delta.nodes && !acyclic delta.nodes t.nodes then
    (t, .error .invalidDelta)
  else
    match greatest delta with
    | none => (t.join delta, .ok ())
    | some tag =>
      match t.clock.witness tag millis with
      | (clock, .error err) => ({t with clock}, .error (.clock err))
      | (clock, .ok ()) => (join {t with clock} delta, .ok ())

/-- `Merge` with another tree. -/
def merge (t other : ORTree) (millis : Int64) : ORTree × Except Err Unit :=
  t.applyDelta ⟨other.nodes, other.tombstones⟩ millis

def add (parent : NodeID) (value : List UInt8) (millis : Int64) :
    ORTree × Except Err (NodeID × Delta) :=
  if (value.length : Int) > t.options.maxValueBytes then (t, .error .resourceLimit)
  else if (t.nodes.size : Int) ≥ t.options.maxNodes then (t, .error .resourceLimit)
  else if parent.valid && !liveReachable parent t.nodes t.tombstones then (t, .error .unknownParent)
  else
    match t.clock.now millis with
    | (clock, .error err) => ({t with clock}, .error (.clock err))
    | (clock, .ok id) =>
      let node : StoredNode := ⟨parent, value⟩
      ({t with clock, nodes := t.nodes.insert id node, version := t.version + 1},
        .ok (id, {nodes := (∅ : TagMap StoredNode).insert id node}))

def remove (id : NodeID) (millis : Int64) : ORTree × Except Err Delta :=
  if !id.valid then (t, .error .unknownNode)
  else if !t.nodes.contains id || t.tombstones.contains id then (t, .error .unknownNode)
  else
    let delta : Delta := {tombstones := (∅ : TagSet).insert id}
    match t.applyDelta delta millis with
    | (t, .error err) => (t, .error err)
    | (t, .ok ()) => (t, .ok delta)

/-- `Nodes`: the cached projection if it is of this version, else a new one. -/
def visibleNodes : Option (ORTree × List VisibleNode) :=
  if t.visibleIDsVersion = t.version then some (t, nodesForVisibleIDs t.visibleIDs t.nodes)
  else do
    let ids ← visibleNodeIDs t.nodes t.tombstones
    return ({t with visibleIDs := ids, visibleIDsVersion := t.version}, nodesForVisibleIDs ids t.nodes)

/-- `State`: the visible nodes and the tombstones are counted. -/
def state : Option (ORTree × Nat × Nat) :=
  if t.visibleCountVersion = t.version then some (t, t.visibleCount, t.tombstones.size)
  else do
    let count ← countVisible t.nodes t.tombstones
    return ({t with visibleCount := count, visibleCountVersion := t.version}, count, t.tombstones.size)

/-- What `UnmarshalBinary` does with a decoded state. -/
def install (delta : Delta) (millis : Int64) : ORTree × Except Err Unit :=
  if delta.nodes.toList.any fun p => p.2.parent.valid && !delta.nodes.contains p.2.parent then
    (t, .error .invalidFrame)
  else
    let installed (t : ORTree) : ORTree :=
      {t with nodes := delta.nodes, tombstones := delta.tombstones, version := t.version + 1}
    match greatest delta with
    | none => (installed t, .ok ())
    | some tag =>
      match t.clock.witness tag millis with
      | (clock, .error err) => ({t with clock}, .error (.clock err))
      | (clock, .ok ()) => (installed {t with clock}, .ok ())

/-! ### Compaction -/

/-- Forget nodes with their tombstones. -/
def drop (compact : List NodeID) : ORTree :=
  {t with
    nodes := compact.foldl (fun nodes tag => nodes.erase tag) t.nodes
    tombstones := compact.foldl (fun tombstones tag => tombstones.erase tag) t.tombstones
    version := if compact.length > 0 then t.version + 1 else t.version}

/-- The tombstoned leaves among the tags; `none` if one of them is not known or has a child. -/
def compactLeaves (t : ORTree) (children : TagSet) : List NodeID → TagSet → Option (List NodeID)
  | [], _ => some []
  | tag :: rest, seen =>
    if seen.contains tag then t.compactLeaves children rest seen
    else if !t.tombstones.contains tag then t.compactLeaves children rest (seen.insert tag)
    else if !t.nodes.contains tag || children.contains tag then none
    else do
      return tag :: (← t.compactLeaves children rest (seen.insert tag))

def compactTombstones (tags : List NodeID) : ORTree × Except Err Nat :=
  if !tags.all Tag.valid then (t, .error .unsafeCompaction)
  else
    let children := t.nodes.toList.foldl (fun (children : TagSet) p =>
      if p.2.parent.valid then children.insert p.2.parent else children) ∅
    match t.compactLeaves children tags ∅ with
    | none => (t, .error .unsafeCompaction)
    | some compact => (t.drop compact, .ok compact.length)

/-- The candidates of a batch: tombstoned nodes, each once, in ascending order. -/
def candidates (tags : List NodeID) : TagSet :=
  tags.foldl (fun selected tag =>
    if t.tombstones.contains tag && t.nodes.contains tag then selected.insert tag else selected) ∅

/-- Take ready candidates, and with the last child of a candidate the candidate itself. -/
def readyLoop (t : ORTree) : Nat → List NodeID → TagMap Nat → List NodeID → List NodeID
  | 0, _, _, compact => compact
  | _, [], _, compact => compact
  | n + 1, tag :: ready, remaining, compact =>
    let parent := (t.nodes[tag]?.map Rga.Node.parent).getD .zero
    match remaining[parent]? with
    | none => t.readyLoop n ready remaining (compact ++ [tag])
    | some children =>
      t.readyLoop n (if children - 1 = 0 then ready ++ [parent] else ready)
        (remaining.insert parent (children - 1)) (compact ++ [tag])

def compactEligibleTombstones (tags : List NodeID) : ORTree × Except Err Nat :=
  if !tags.all Tag.valid then (t, .error .unsafeCompaction)
  else
    let candidates := (t.candidates tags).toList
    let remaining := t.nodes.toList.foldl (fun (remaining : TagMap Nat) p =>
      match remaining[p.2.parent]? with
      | some children => remaining.insert p.2.parent (children + 1)
      | none => remaining) (candidates.foldl (fun remaining tag => remaining.insert tag 0) ∅)
    let ready := candidates.filter fun tag => remaining[tag]?.getD 0 = 0
    let compact := t.readyLoop candidates.length ready remaining []
    (t.drop compact, .ok compact.length)

end ORTree

end Crdt.Tree
