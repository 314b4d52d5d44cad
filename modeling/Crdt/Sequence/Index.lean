import Crdt.Tag

/-! The sequence index: an order of enter and exit markers, kept three ways at once.

Every position of an RGA owns a pair of markers. The markers stand in one order,
which the index holds as a doubly linked list (`prev`, `next`) and as the
in-order traversal of a treap (`left`, `right`, `parent`) with cached counts of
markers and of visible markers. Pairs are addressed by the order in which they
were allocated and all updates are updates of shared cells, as in the source:
`Markers` is the store of cells, and a function that writes returns the new
store. Loops and recursions along pointers carry fuel and return `none` if it
runs out; the fuel is the number of markers ever allocated.

The functions are those of `text/sequence.go`; `list/sequence.go` has the same
index but for the splice of one pair (`insertPairAfterOneByOne`). -/
namespace Crdt
namespace Sequence

inductive Side
  | entry
  | exit
deriving DecidableEq, Repr

/-- The address of a marker: `&pair.entry` or `&pair.exit`, where a `*sequencePair` is
its number in the order of allocation. -/
structure MarkerRef where
  pair : Nat
  side : Side
deriving DecidableEq, Repr

structure SequenceMarker where
  visible : Bool := false
  priority : UInt64 := 0
  left : Option MarkerRef := none
  right : Option MarkerRef := none
  parent : Option MarkerRef := none
  prev : Option MarkerRef := none
  next : Option MarkerRef := none
  markers : Nat := 0
  visibleN : Nat := 0
deriving DecidableEq, Repr

/-- The store of markers. -/
abbrev Markers := MarkerRef → SequenceMarker

variable (c : Markers)

/-- A write to one marker. -/
def Markers.modify (m : MarkerRef) (f : SequenceMarker → SequenceMarker) : Markers :=
  Function.update c m (f (c m))

/-- A write through a pointer that may be nil, guarded as the source guards it. -/
def Markers.modify? (m : Option MarkerRef) (f : SequenceMarker → SequenceMarker) :
    Markers :=
  match m with
  | none => c
  | some m => c.modify m f

structure SequenceIndex where
  markers : Markers
  position : Nat → Position
  singleChild : Nat → Option Nat
  /-- Pairs allocated so far, and the address of the next one. -/
  allocated : Nat
  root : Option MarkerRef
  pairs : TagMap Nat

/-! ### Priorities -/

def mixMarkerPriority (value : UInt64) : UInt64 :=
  let value := value ^^^ (value >>> 30)
  let value := value * 0xbf58476d1ce4e5b9
  let value := value ^^^ (value >>> 27)
  let value := value * 0x94d049bb133111eb
  value ^^^ (value >>> 31)

def markerPriorities (position : Position) : UInt64 × UInt64 :=
  let value : UInt64 := position.replicaID.foldl
    (fun value b => (value ^^^ b.toUInt64) * 0x100000001b3) 0x9e3779b97f4a7c15
  let value : UInt64 := value ^^^ (position.wallTime + (0x9e3779b97f4a7c15 : UInt64) + (value <<< 6) + (value >>> 2))
  let value : UInt64 := value ^^^ (position.logical + (0x9e3779b97f4a7c15 : UInt64) + (value <<< 6) + (value >>> 2))
  (mixMarkerPriority value, mixMarkerPriority (value ^^^ 0xd6e8feb86659fd93))

/-! ### The treap -/

section Treap
variable (c : Markers)

def markerCount : Option MarkerRef → Nat
  | none => 0
  | some m => (c m).markers

def visibleCount : Option MarkerRef → Nat
  | none => 0
  | some m => (c m).visibleN

/-- One marker's own share of a visible count. -/
def SequenceMarker.shown (m : SequenceMarker) : Nat := if m.visible then 1 else 0

def refreshMarker (m : MarkerRef) : Markers :=
  let left := (c m).left
  let right := (c m).right
  let c := c.modify m fun s => {s with
    markers := 1 + markerCount c left + markerCount c right
    visibleN := visibleCount c left + visibleCount c right + s.shown}
  (c.modify? left ({· with parent := some m})).modify? right ({· with parent := some m})

end Treap

def mergeMarkers : Nat → Markers → Option MarkerRef → Option MarkerRef →
    Option (Markers × Option MarkerRef)
  | 0, _, _, _ => none
  | _ + 1, c, none, right => some (c.modify? right ({· with parent := none}), right)
  | _ + 1, c, some left, none => some (c.modify left ({· with parent := none}), some left)
  | n + 1, c, some left, some right =>
    if (c left).priority > (c right).priority then do
      let (c, merged) ← mergeMarkers n c (c left).right (some right)
      let c := refreshMarker (c.modify left ({· with right := merged})) left
      return (c.modify left ({· with parent := none}), some left)
    else do
      let (c, merged) ← mergeMarkers n c (some left) (c right).left
      let c := refreshMarker (c.modify right ({· with left := merged})) right
      return (c.modify right ({· with parent := none}), some right)

/-- The first `count` markers, and the others. -/
def splitMarkers : Nat → Markers → Option MarkerRef → Nat →
    Option (Markers × Option MarkerRef × Option MarkerRef)
  | 0, _, _, _ => none
  | _ + 1, c, none, _ => some (c, none, none)
  | n + 1, c, some root, count =>
    let leftCount := markerCount c (c root).left
    if count ≤ leftCount then do
      let (c, left, right) ← splitMarkers n c (c root).left count
      let c := refreshMarker (c.modify root ({· with left := right})) root
      let c := c.modify? left ({· with parent := none})
      return (c.modify root ({· with parent := none}), left, some root)
    else do
      let (c, left, right) ← splitMarkers n c (c root).right (count - leftCount - 1)
      let c := refreshMarker (c.modify root ({· with right := left})) root
      let c := c.modify? right ({· with parent := none})
      return (c.modify root ({· with parent := none}), some root, right)

/-- Up the parent links, adding at each step from the right what lies to the left:
the parent's own share and its left subtree's. -/
def climb (c : Markers) (own : SequenceMarker → Nat) (count : Option MarkerRef → Nat) :
    Nat → MarkerRef → Nat → Option Nat
  | 0, _, _ => none
  | n + 1, m, rank =>
    match (c m).parent with
    | none => some rank
    | some p =>
      climb c own count n p
        (if (c p).right = some m then rank + (own (c p) + count (c p).left) else rank)

/-- The number of markers before `m`. -/
def markerRank (n : Nat) (c : Markers) (m : MarkerRef) : Option Nat :=
  climb c (fun _ => 1) (markerCount c) n m (markerCount c (c m).left)

/-- The number of visible entries before `m`. -/
def visibleRank (n : Nat) (c : Markers) (m : MarkerRef) : Option Nat :=
  climb c SequenceMarker.shown (visibleCount c) n m (visibleCount c (c m).left)

/-! ### Bulk construction -/

def clearLinks (m : MarkerRef) : Markers :=
  c.modify m ({· with left := none, right := none, parent := none})

/-- Hang `marker` in the tree whose right spine ends at `top`, with what was popped
as its left subtree. -/
def hang (marker : MarkerRef) (left top : Option MarkerRef) : Markers :=
  let c := c.modify marker ({· with left})
  let c := c.modify? left ({· with parent := some marker})
  match top with
  | none => c
  | some t =>
    (c.modify t ({· with right := some marker})).modify marker ({· with parent := some t})

/-- Pop the markers of lower priority off the stack `markers[:size]`. -/
def popStack (c : Markers) (markers : List MarkerRef) (priority : UInt64) :
    Nat → Option MarkerRef → Nat × Option MarkerRef
  | 0, left => (0, left)
  | size + 1, left =>
    match markers[size]? with
    | none => (size + 1, left)
    | some top =>
      if (c top).priority < priority then popStack c markers priority size (some top)
      else (size + 1, left)

/-- The first loop of `markerTree`. The stack is `markers[:size]`, a prefix of the
slice that is being read: element `i` is read before anything is written to it. -/
def markerTreeLoop : Nat → Nat → Nat → Markers → List MarkerRef → Markers × List MarkerRef
  | 0, _, _, c, markers => (c, markers)
  | n + 1, i, size, c, markers =>
    match markers[i]? with
    | none => (c, markers)
    | some marker =>
      let c := clearLinks c marker
      let (size, left) := popStack c markers (c marker).priority size none
      let top := if size = 0 then none else markers[size - 1]?
      markerTreeLoop n (i + 1) (size + 1) (hang c marker left top) (markers.set size marker)

/-- The second loop of `markerTree`: the tree's markers, parents before children. -/
def markerTreeOrder (c : Markers) : Nat → List MarkerRef → Option (List MarkerRef)
  | _, [] => some []
  | 0, _ :: _ => none
  | n + 1, marker :: pending => do
    let ordered ← markerTreeOrder c n
      ((c marker).right.toList ++ ((c marker).left.toList ++ pending))
    return marker :: ordered

def markerTree (fuel : Nat) (c : Markers) (markers : List MarkerRef) :
    Option (Markers × Option MarkerRef) :=
  match markers with
  | [] => some (c, none)
  | _ :: _ => do
    let (c, markers) := markerTreeLoop markers.length 0 0 c markers
    let root := markers[0]?
    let ordered ← markerTreeOrder c fuel root.toList
    return (ordered.reverse.foldl refreshMarker c, root)

/-- Pop the markers of lower priority off the right spine that ends at `top`. -/
def popSpine (priority : UInt64) : Nat → Markers → Option MarkerRef → Option MarkerRef →
    Option (Markers × Option MarkerRef × Option MarkerRef)
  | 0, _, _, _ => none
  | _ + 1, c, none, left => some (c, none, left)
  | n + 1, c, some top, left =>
    if (c top).priority < priority then
      popSpine priority n (refreshMarker c top) (c top).parent (some top)
    else some (c, some top, left)

def appendLinearMarkerToTree (fuel : Nat) (c : Markers) (top : Option MarkerRef)
    (marker : MarkerRef) : Option (Markers × Option MarkerRef) := do
  let c := clearLinks c marker
  let (c, top, left) ← popSpine (c marker).priority fuel c top none
  return (hang c marker left top, some marker)

def appendLinearMarkersToTree (fuel : Nat) : Markers → Option MarkerRef → List MarkerRef →
    Option (Markers × Option MarkerRef)
  | c, top, [] => some (c, top)
  | c, top, marker :: rest => do
    let (c, top) ← appendLinearMarkerToTree fuel c top marker
    appendLinearMarkersToTree fuel c top rest

/-- Refresh the spine from its end to the root, and return the root. -/
def refreshSpine : Nat → Markers → Option MarkerRef → Option MarkerRef →
    Option (Markers × Option MarkerRef)
  | 0, _, _, _ => none
  | _ + 1, c, none, root => some (c, root)
  | n + 1, c, some top, _ => refreshSpine n (refreshMarker c top) (c top).parent (some top)

/-- Every entry in order, then every exit in reverse. -/
def linearMarkers (pairs : List Nat) : List MarkerRef :=
  pairs.map (⟨·, .entry⟩) ++ pairs.reverse.map (⟨·, .exit⟩)

def markerTreeForLinearPairs (fuel : Nat) (c : Markers) (pairs : List Nat) :
    Option (Markers × Option MarkerRef) := do
  let (c, top) ← appendLinearMarkersToTree fuel c none (linearMarkers pairs)
  refreshSpine fuel c top none

/-! ### The linked list -/

/-- `previous.next, current.prev = current, previous` -/
def link (previous current : MarkerRef) : Markers :=
  (c.modify previous ({· with next := some current})).modify current ({· with prev := some previous})

/-- Link a run of markers behind `previous`, and return the last one. -/
def linkRun : Markers → MarkerRef → List MarkerRef → Markers × MarkerRef
  | c, previous, [] => (c, previous)
  | c, previous, current :: rest => linkRun (link c previous current) current rest

/-- The last marker of a spliced run points on to `next`, and `next` back to it. -/
def linkEnd (last : MarkerRef) (next : Option MarkerRef) : Markers :=
  (c.modify last ({· with next})).modify? next ({· with prev := some last})

namespace SequenceIndex

variable (s : SequenceIndex)

/-- Enough for any loop along the pointers of the index. -/
def fuel : Nat := 2 * s.allocated + 1

section
variable (position : Position)

/-- `initializeSequencePair` at the next address. -/
def newSequencePair (visible : Bool) : SequenceIndex × Nat :=
  let (entryPriority, exitPriority) := markerPriorities position
  let entry : SequenceMarker := {visible, priority := entryPriority}
  let exit : SequenceMarker := {priority := exitPriority}
  let markers := Function.update (Function.update s.markers ⟨s.allocated, .entry⟩ entry)
    ⟨s.allocated, .exit⟩ exit
  let markers := refreshMarker (refreshMarker markers ⟨s.allocated, .entry⟩) ⟨s.allocated, .exit⟩
  ({s with
    markers
    position := Function.update s.position s.allocated position
    singleChild := Function.update s.singleChild s.allocated none
    allocated := s.allocated + 1}, s.allocated)

/-- A slice of pairs, one for each position. -/
def newSequencePairs (s : SequenceIndex) : List (Position × Bool) → SequenceIndex × List Nat
  | [] => (s, [])
  | (position, visible) :: rest =>
    let (s, pair) := s.newSequencePair position visible
    let (s, pairs) := s.newSequencePairs rest
    (s, pair :: pairs)

def empty : SequenceIndex :=
  { markers := fun _ => {}, position := fun _ => .zero, singleChild := fun _ => none
    allocated := 0, root := none, pairs := ∅ }

/-- The index that holds the root sentinel alone. -/
def newSequenceIndex : Option SequenceIndex := do
  let (s, pair) := empty.newSequencePair .zero false
  let markers := s.markers.modify ⟨pair, .entry⟩ ({· with next := some ⟨pair, .exit⟩})
  let markers := markers.modify ⟨pair, .exit⟩ ({· with prev := some ⟨pair, .entry⟩})
  let (markers, root) ← mergeMarkers s.fuel markers (some ⟨pair, .entry⟩) (some ⟨pair, .exit⟩)
  return {s with markers, root, pairs := s.pairs.insert .zero pair}

def pair : Option Nat := s.pairs[position]?

def has : Bool := s.pairs.contains position

def entry (s : SequenceIndex) (position : Position) : Option MarkerRef :=
  (s.pair position).map (⟨·, .entry⟩)

def exit (s : SequenceIndex) (position : Position) : Option MarkerRef :=
  (s.pair position).map (⟨·, .exit⟩)

def register (pairs : List Nat) : TagMap Nat :=
  pairs.foldl (fun m pair => m.insert (s.position pair) pair) s.pairs

section
variable (anchor : MarkerRef)

/-- The treap half of a splice: cut behind the anchor, put `middle` in between. -/
def spliceTree (middle : Markers → Option (Markers × Option MarkerRef)) :
    Option (Markers × Option MarkerRef) := do
  let rank ← markerRank s.fuel s.markers anchor
  let (c, left, right) ← splitMarkers s.fuel s.markers s.root (rank + 1)
  let (c, tree) ← middle c
  let (c, left) ← mergeMarkers s.fuel c left tree
  mergeMarkers s.fuel c left right

def insertLinearMarkersAfter (markers : List MarkerRef) (pairCount : Nat) : Option SequenceIndex :=
  if pairCount = 0 ∨ markers.length ≠ pairCount * 2 then some s else
  match markers with
  | [] => some s
  | first :: rest => do
    let (c, last) := linkRun s.markers first rest
    let next := (c anchor).next
    let c := linkEnd (link c anchor first) last next
    let s := {s with markers := c}
    let (c, root) ← s.spliceTree anchor fun c => markerTree s.fuel c markers
    return {s with
      markers := c, root, pairs := s.register ((markers.take pairCount).map MarkerRef.pair)}

def insertPairAfter (pair : Nat) : Option SequenceIndex :=
  s.insertLinearMarkersAfter anchor [⟨pair, .entry⟩, ⟨pair, .exit⟩] 1

def insertLinearPairsAfter (pairs : List Nat) : Option SequenceIndex :=
  if pairs = [] then some s else do
    let next := (s.markers anchor).next
    let (c, last) := linkRun s.markers anchor (linearMarkers pairs)
    let s := {s with markers := linkEnd c last next}
    let (c, root) ← s.spliceTree anchor fun c => markerTreeForLinearPairs s.fuel c pairs
    return {s with markers := c, root, pairs := s.register pairs}

/-- `insertPairAfter` of `list/sequence.go`: the two markers are merged one by one. -/
def insertPairAfterOneByOne (pair : Nat) : Option SequenceIndex := do
  let entry : MarkerRef := ⟨pair, .entry⟩
  let exit : MarkerRef := ⟨pair, .exit⟩
  let next := (s.markers anchor).next
  let c := linkEnd (link (link s.markers anchor entry) entry exit) exit next
  let rank ← markerRank s.fuel c anchor
  let (c, left, right) ← splitMarkers s.fuel c s.root (rank + 1)
  let (c, tree) ← mergeMarkers s.fuel c left (some entry)
  let (c, tree) ← mergeMarkers s.fuel c tree (some exit)
  let (c, root) ← mergeMarkers s.fuel c tree right
  return {s with markers := c, root, pairs := s.pairs.insert (s.position pair) pair}

end

/-- Refresh a marker and everything above it. -/
def refreshUp : Nat → Markers → Option MarkerRef → Option Markers
  | _, c, none => some c
  | 0, _, some _ => none
  | n + 1, c, some m =>
    let c := refreshMarker c m
    refreshUp n c (c m).parent

def setVisible (visible : Bool) : Option SequenceIndex :=
  match s.entry position with
  | none => some s
  | some entry =>
    if (s.markers entry).visible = visible then some s else do
      let c ← refreshUp s.fuel (s.markers.modify entry ({· with visible})) (some entry)
      return {s with markers := c}

/-- Remove a pair whose two markers are adjacent; the answer says whether it was. -/
def removeLeaf : Option (SequenceIndex × Bool) :=
  match s.pair position with
  | none => some (s, false)
  | some pair =>
    let entry : MarkerRef := ⟨pair, .entry⟩
    let exit : MarkerRef := ⟨pair, .exit⟩
    if (s.markers entry).next ≠ some exit then some (s, false) else
    match (s.markers entry).prev with
    | none => some (s, false)
    | some before => do
      let after := (s.markers exit).next
      let c := s.markers.modify before ({· with next := after})
      let c := c.modify? after ({· with prev := some before})
      let rank ← markerRank s.fuel c entry
      let (c, left, rest) ← splitMarkers s.fuel c s.root rank
      let (c, _, right) ← splitMarkers s.fuel c rest 2
      let (c, root) ← mergeMarkers s.fuel c left right
      return ({s with markers := c, root, pairs := s.pairs.erase position}, true)

end

/-- Down the treap to the visible entry with `offset` visible entries before it. -/
def descend (s : SequenceIndex) : Nat → Option MarkerRef → Nat → Option (Option Position)
  | 0, _, _ => none
  | _ + 1, none, _ => some none
  | n + 1, some current, offset =>
    let leftVisible := visibleCount s.markers (s.markers current).left
    if offset < leftVisible then s.descend n (s.markers current).left offset else
    let offset := offset - leftVisible
    if (s.markers current).visible then
      if offset = 0 then some (some (s.position current.pair))
      else s.descend n (s.markers current).right (offset - 1)
    else s.descend n (s.markers current).right offset

/-- The position at a visible offset, if it is one. -/
def visibleAt (offset : Int) : Option (Option Position) :=
  if offset < 0 ∨ offset ≥ visibleCount s.markers s.root then some none
  else s.descend s.fuel s.root offset.toNat

/-- Along the list from `current`, the pairs of the visible markers. -/
def visibleFrom (c : Markers) : Nat → Option MarkerRef → Option (List Nat)
  | _, none => some []
  | 0, some _ => none
  | n + 1, some current => do
    let rest ← visibleFrom c n (c current).next
    return if (c current).visible then current.pair :: rest else rest

/-- The visible pairs in order: every scan of the document starts behind the
sentinel's entry. -/
def visiblePairs : Option (List Nat) := do
  let root ← s.entry .zero
  visibleFrom s.markers s.fuel (s.markers root).next

def visiblePositions : Option (List Position) := do
  let pairs ← s.visiblePairs
  return pairs.map s.position

end SequenceIndex
end Sequence
end Crdt
