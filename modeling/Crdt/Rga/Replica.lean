import Crdt.Rga.Children
import Crdt.Rga.Node

/-! The integration pipeline that the text and the list package both have.

A replica holds integrated nodes, whose parents are all integrated, and pending
nodes, which wait for a parent. A pending node is filed under the parent it waits
for; when a parent arrives, `integrateReady` drains every node that has become
reachable. Integrated nodes stand in the sequence index in depth-first order, each
with the visibility the tombstones give it.

The two packages have these functions line for line, but for what `Package` names:
the bytes a node is charged with while it is pending, and the way the index splices
one pair. Where the source ranges over a map, the model visits its keys in ascending
order. A function returns `none` where the source panics. -/
namespace Crdt.Rga

open Sequence Forest

/-- What the text and the list package do not share. -/
structure Package (V : Type) where
  nodeBytes : Position → Node V → Int
  insertPairAfter : SequenceIndex → MarkerRef → Nat → Option SequenceIndex
  /-- Either way, the two marks of the new pair go behind the anchor's. -/
  splices : ∀ {s : SequenceIndex} {l : List MarkerRef} {marks : List (Mark Position)}
    {vis : Position → Bool} {a : MarkerRef} {r : Nat} {p : Position}, s.Holds l marks vis → a ∈ l →
    s.Fresh r p (vis p) → .enter p ∉ marks →
    ∃ s' l', insertPairAfter s a r = some s' ∧
      s'.Holds l' (splice (s.label a) [.enter p, .exit p] marks) vis ∧ s.Kept s' ∧
      s'.pairs = s.pairs.insert p r

/-- The replicated part of an RGA. -/
structure Replica (V : Type) where
  nodes : TagMap (Node V)
  pending : TagMap (Node V)
  waitingByParent : TagMap TagSet
  pendingBytes : Int
  tombstones : TagSet
  version : UInt64
  sequence : SequenceIndex
  children : ChildIndex

/-- The empty replica of the constructors. -/
def newReplica (V : Type) : Option (Replica V) := do
  let sequence ← SequenceIndex.newSequenceIndex
  return { nodes := ∅, pending := ∅, waitingByParent := ∅, pendingBytes := 0, tombstones := ∅,
           version := 0, sequence, children := newChildIndex }

/-- The marker a new child goes behind: its parent's entry or its left sibling's exit. -/
def anchorAfter (parent : Nat) : Option Nat → MarkerRef
  | none => ⟨parent, .entry⟩
  | some previous => ⟨previous, .exit⟩

section
variable {V : Type} (pkg : Package V)

namespace Replica

variable (r : Replica V)

def hasIntegratedPosition (position : Position) : Bool := r.nodes.contains position

def retainsPosition (position : Position) : Bool :=
  r.nodes.contains position || r.pending.contains position

def integrateNode (id : Position) (item : Node V) : Option (Replica V) := do
  let parent ← r.sequence.pair item.parent
  let (sequence, pair) := r.sequence.newSequencePair id (!r.tombstones.contains id)
  let (children, sequence, previous) := r.children.insert sequence parent pair
  let sequence ← pkg.insertPairAfter sequence (anchorAfter parent previous) pair
  return {r with sequence, children}

def enqueuePending (id : Position) (item : Node V) : Replica V :=
  let waiting := r.waitingByParent[item.parent]?.getD ∅
  {r with
    pending := r.pending.insert id item
    waitingByParent := r.waitingByParent.insert item.parent (waiting.insert id)
    pendingBytes := r.pendingBytes + pkg.nodeBytes id item}

/-- The bookkeeping of a node that leaves the pending set. -/
def dequeuePending (id : Position) (item : Node V) : Replica V :=
  let waiting := (r.waitingByParent[item.parent]?.getD ∅).erase id
  {r with
    pending := r.pending.erase id
    pendingBytes := r.pendingBytes - pkg.nodeBytes id item
    waitingByParent :=
      if waiting.isEmpty then r.waitingByParent.erase item.parent
      else r.waitingByParent.insert item.parent waiting}

/-- A set of identifiers in ascending order. -/
def sortedWaitingIDs (entries : Option TagSet) : List Position := (entries.getD ∅).toList

/-- The loop of `integrateReady`. `recheck` is the check a package makes again before it
integrates a node. -/
def integrateReadyLoop (recheck : Replica V → Node V → Bool) :
    Nat → Replica V → List Position → Bool → Option (Replica V × Bool)
  | _, r, [], changed => some (r, changed)
  | 0, _, _ :: _, _ => none
  | n + 1, r, id :: ready, changed =>
    match r.pending[id]? with
    | none => integrateReadyLoop recheck n r ready changed
    | some item =>
      if !recheck r item then integrateReadyLoop recheck n r ready changed else do
        let r := r.dequeuePending pkg id item
        let r ← integrateNode pkg {r with nodes := r.nodes.insert id item} id item
        integrateReadyLoop recheck n r (ready ++ sortedWaitingIDs r.waitingByParent[id]?) true

/-- Drain every pending node that has become reachable from the root; the answer says
whether there was one. -/
def integrateReady (recheck : Replica V → Node V → Bool) (r : Replica V) :
    Option (Replica V × Bool) :=
  let parents := r.waitingByParent.keys.filter fun parent => !parent.valid || r.nodes.contains parent
  let ready := parents.flatMap fun parent => sortedWaitingIDs r.waitingByParent[parent]?
  integrateReadyLoop pkg recheck r.pending.size r ready false

/-- Retain each new tombstone and hide its node if it is integrated. -/
def applyTombstones (r : Replica V) : List Position → Option (Replica V × Bool)
  | [] => some (r, false)
  | id :: rest =>
    if r.tombstones.contains id then applyTombstones r rest else do
      let sequence ← r.sequence.setVisible id false
      let (r, _) ← applyTombstones {r with tombstones := r.tombstones.insert id, sequence} rest
      return (r, true)

variable [DecidableEq V]

/-- Two different nodes under one identifier. -/
def conflicts (r : Replica V) (nodes : TagMap (Node V)) : Bool :=
  nodes.toList.any fun (id, incoming) =>
    r.nodes[id]?.any (· ≠ incoming) || r.pending[id]?.any (· ≠ incoming)

/-- Every part of the delta is already retained. -/
def subsumes (r : Replica V) (nodes : TagMap (Node V)) (tombstones : TagSet) : Bool :=
  (nodes.toList.all fun (id, incoming) =>
    r.nodes[id]? = some incoming || r.pending[id]? = some incoming) &&
  tombstones.toList.all r.tombstones.contains

end Replica

/-! ### Deltas -/

def newTombstones (incoming existing : TagSet) : Nat :=
  (incoming.toList.filter (!existing.contains ·)).length

/-- The identifiers below each parent, ascending. -/
def byParent (nodes : TagMap (Node V)) (parent : Position) : List Position :=
  nodes.keys.filter fun id => parentOf nodes id = some parent

/-- The first loop of `greatestTag`. -/
def greatestOfNodes (nodes : TagMap (Node V)) : Option Position :=
  nodes.toList.foldl (fun greatest (id, item) =>
    let greatest := match greatest with
      | none => id
      | some greatest => if greatest.compare id = .lt then id else greatest
    some (if item.parent.valid ∧ greatest.compare item.parent = .lt then item.parent else greatest))
    none

def greatestTag (nodes : TagMap (Node V)) (tombstones : TagSet) : Option Position :=
  tombstones.toList.foldl (fun greatest id =>
    match greatest with
    | none => some id
    | some greatest => some (if greatest.compare id = .lt then id else greatest))
    (greatestOfNodes nodes)

/-- The colours of the tri-colour walk; an unseen node has none. -/
inductive Colour
  | visiting
  | complete
deriving DecidableEq, Repr

/-- Up the parent links from `current`. `none` is a cycle; otherwise the nodes passed
have been marked as visiting and are returned in order. -/
def walkUp (lookup : Position → Option (Node V)) :
    Nat → TagMap Colour → List Position → Position → Option (TagMap Colour × List Position)
  | 0, _, _, _ => none
  | n + 1, state, path, current =>
    if !current.valid then some (state, path) else
    match state[current]? with
    | some .visiting => none
    | some .complete => some (state, path)
    | none =>
      match lookup current with
      | none => some (state, path)
      | some next => walkUp lookup n (state.insert current .visiting) (path ++ [current]) next.parent

def acyclicLoop (lookup : Position → Option (Node V)) (fuel : Nat) :
    TagMap Colour → List Position → Bool
  | _, [] => true
  | state, id :: rest =>
    if state[id]? = some .complete then acyclicLoop lookup fuel state rest else
    match walkUp lookup fuel state [] id with
    | none => false
    | some (state, path) =>
      acyclicLoop lookup fuel (path.foldl (fun state visited => state.insert visited .complete) state) rest

/-- No cycle among the incoming and the pending nodes. The walk marks a new node in
every step, so it ends within as many steps as there are nodes, and one. -/
def acyclicAgainst (incoming pending : TagMap (Node V)) : Bool :=
  acyclicLoop (fun id => incoming[id]?.or pending[id]?) (incoming.size + pending.size + 1) ∅
    incoming.keys

/-! ### Rebuilding the index -/

/-- The loop of `buildSequence`: the outer `none` is a panic, the inner one an invalid
forest. -/
def buildSequenceLoop (nodes : TagMap (Node V)) :
    Nat → Replica V → List Position → Nat → Option (Option (Replica V × Nat))
  | _, value, [], integrated => some (some (value, integrated))
  | 0, _, _ :: _, _ => none
  | n + 1, value, id :: ready, integrated =>
    match nodes[id]? with
    | none => some none
    | some item =>
      if value.sequence.entry item.parent = none then some none else do
        let value ← value.integrateNode pkg id item
        buildSequenceLoop nodes n value (ready ++ byParent nodes id) (integrated + 1)

/-- The index of a complete node set, if every node hangs below the root. -/
def buildSequence (nodes : TagMap (Node V)) (tombstones : TagSet) :
    Option (Option (SequenceIndex × ChildIndex)) := do
  let value ← newReplica V
  match ← buildSequenceLoop pkg nodes (nodes.size + 1) {value with nodes, tombstones}
    (byParent nodes .zero) 0 with
  | none => return none
  | some (value, integrated) =>
    return if integrated ≠ nodes.size then none else some (value.sequence, value.children)

end

end Crdt.Rga
