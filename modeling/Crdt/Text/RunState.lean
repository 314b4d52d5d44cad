import Crdt.Text.Reach
import Crdt.Text.RunWire

/-! Complete states in the run format.

A state is captured along the sequence, or from the maps where the sequence does not have the
expected shape, and then sorted unless it was found to be sorted. A range over a map meets its keys
in any order (`RangeOrder`). Whatever the order and the way of the capture, what is encoded are the
nodes and the tombstones of the replica in the order of their identifiers (`sorted_capture`). So
states and deltas and the frames the decoder accepts are one to one (`run_codec_bijection`). -/
namespace Crdt.Text

open Clock Rga Sequence Forest Wire Checked MapLoop Option BlockFormat List

/-! ### Capture -/

/-- The order in which a range over the maps of a replica meets the keys. -/
structure RangeOrder (r : RGA) where
  nodes : List Position
  tombstones : List Position
  nodes_perm : nodes.Perm r.nodes.keys
  tombstones_perm : tombstones.Perm r.tombstones.toList

/-- `rgaRunState` -/
structure RunState where
  nodes : List RunNode
  tombstones : List Position
  nodesSorted : Bool := false
  tombstonesSorted : Bool := false

/-- `next` goes on the chain that ends with `previous`, in the order of identifiers. -/
def continuesLinear (previous next : RunNode) : Bool :=
  !(next.id.replicaID ≠ previous.id.replicaID || next.id.compare previous.id ≠ .gt ||
    next.item.parent ≠ previous.id)

/-- Whether the nodes found so far and the next one are a run from the root. -/
def linearAfter (found : List RunNode) (canonicalLinear : Bool) (next : RunNode) : Bool :=
  match found.getLast? with
  | none => !next.item.parent.valid
  | some previous => canonicalLinear && continuesLinear previous next

/-- The loop along the sequence. `none` where it gives up; it does so before the steps run out. -/
def captureWalk (s : SequenceIndex) (nodes : TagMap (Node Rune)) (expectedMarkers : Nat) :
    Nat → Option MarkerRef → Nat → List RunNode → Bool → Option (Nat × List RunNode × Bool)
  | _, none, traversed, found, canonicalLinear => some (traversed, found, canonicalLinear)
  | 0, some _, _, _, _ => none
  | n + 1, some current, traversed, found, canonicalLinear =>
    if traversed + 1 ≥ expectedMarkers then none else
    if current.side ≠ .entry then
      captureWalk s nodes expectedMarkers n (s.markers current).next (traversed + 1) found canonicalLinear
    else
      match nodes[s.position current.pair]? with
      | none => none
      | some item =>
        let next : RunNode := ⟨s.position current.pair, item⟩
        captureWalk s nodes expectedMarkers n (s.markers current).next (traversed + 1) (found ++ [next])
          (linearAfter found canonicalLinear next)

namespace RGA

def captureRunStateFromMapsLocked (r : RGA) (order : RangeOrder r) : RunState where
  nodes := order.nodes.map fun id => ⟨id, nodeAt r.nodes id⟩
  tombstones := order.tombstones

def captureRunStateLocked (r : RGA) (order : RangeOrder r) : RunState :=
  let expectedMarkers := 2 * (r.nodes.size + 1)
  match r.sequence.entry .zero with
  | none => r.captureRunStateFromMapsLocked order
  | some root =>
    if r.sequence.pairs.size ≠ r.nodes.size + 1 ∨
        markerCount r.sequence.markers r.sequence.root ≠ expectedMarkers then
      r.captureRunStateFromMapsLocked order
    else
      match captureWalk r.sequence r.nodes expectedMarkers expectedMarkers (r.sequence.markers root).next 0 []
        true with
      | none => r.captureRunStateFromMapsLocked order
      | some (traversedMarkers, nodes, canonicalLinear) =>
        if traversedMarkers ≠ expectedMarkers - 1 ∨ nodes.length ≠ r.nodes.size then
          r.captureRunStateFromMapsLocked order
        else if !canonicalLinear then {nodes, tombstones := order.tombstones}
        else
          let tombstones := (nodes.map RunNode.id).filter r.tombstones.contains
          if tombstones.length = r.tombstones.size then
            {nodes, tombstones, nodesSorted := true, tombstonesSorted := true}
          else r.captureRunStateFromMapsLocked order

def captureRunState (r : RGA) (order : RangeOrder r) : Except Err RunState :=
  if r.pending.size > 0 then .error .incompleteState else .ok (r.captureRunStateLocked order)

end RGA

/-- The slices after the sorts of the encoders. -/
def RunState.sort (state : RunState) : List RunNode × List Position :=
  (if state.nodesSorted then state.nodes else state.nodes.mergeSort fun a b => a.id.compare b.id ≠ .gt,
    if state.tombstonesSorted then state.tombstones
    else state.tombstones.mergeSort fun a b => a.compare b ≠ .gt)

/-! ### Checks -/

/-- `sort.Search` for the first item that is not below `id`. -/
def searchSorted (items : List RunNode) (id : Position) : Nat :=
  Search.search items.length fun i => items[i]?.all fun x => x.id.compare id ≠ .lt

def containsSortedRunNode (items : List RunNode) (id : Position) : Bool :=
  items[searchSorted items id]?.map RunNode.id = some id

/-- Up the parents from the item with index `current`, as `walkUp`. -/
def walkSorted (items : List RunNode) :
    Nat → List (Option Colour) → List Nat → Nat → Option (List (Option Colour) × List Nat)
  | 0, _, _, _ => none
  | n + 1, state, path, current =>
    match items[current]?, state.getD current none with
    | none, _ => none
    | _, some .visiting => none
    | _, some .complete => some (state, path)
    | some x, none =>
      let state := state.set current (some .visiting)
      let path := path ++ [current]
      if !x.item.parent.valid then some (state, path) else
      let next := searchSorted items x.item.parent
      if items[next]?.map RunNode.id ≠ some x.item.parent then none
      else walkSorted items n state path next

def acyclicSortedLoop (items : List RunNode) : List (Option Colour) → List Nat → Bool
  | _, [] => true
  | state, start :: rest =>
    if state.getD start none ≠ none then acyclicSortedLoop items state rest else
    match walkSorted items (items.length + 1) state [] start with
    | none => false
    | some (state, path) =>
      acyclicSortedLoop items (path.foldl (fun state i => state.set i (some .complete)) state) rest

def acyclicSortedRunNodes (items : List RunNode) : Bool :=
  acyclicSortedLoop items (List.replicate items.length none) (List.range items.length)

/-- Whether the nodes are one run from the root, for a state that is valid. -/
def validateCompleteRunState (nodes : List RunNode) (tombstones : List Position) : Except Err Bool :=
  if !(nodes.all (fun x => validNode x.id x.item) && decide (nodes.IsChain fun a b => a.id ≠ b.id) &&
      tombstones.all Tag.valid) then .error .invalidDelta
  else if nodes.head?.any (fun first => !first.item.parent.valid) && oneRun nodes then .ok true
  else if nodes.any fun x => x.item.parent.valid && !containsSortedRunNode nodes x.item.parent then
    .error .incompleteState
  else if !acyclicSortedRunNodes nodes then .error .invalidDelta
  else .ok false

/-! ### Encoders and decoders -/

/-- The encoder of a state, for a format without a short cut of its own. -/
def BlockFormat.marshalState {β : Type} (fmt : BlockFormat β) (e : Env) (state : RunState) (limits : Limits) :
    Checked WireErr (List UInt8) := do
  check (withinCounts limits state.nodes.length state.tombstones.length) (.frame .frameLimit)
  let (nodes, tombstones) := state.sort
  match validateCompleteRunState nodes tombstones with
  | .error err => .error (.text err)
  | .ok _ =>
    mapError .frame do
      let blocks ← fmt.makeBlocks e.intSize (makeRunBlocksFromSortedItems nodes)
      fmt.marshalBlocks e fmt.stateType blocks tombstones limits

/-- The encoder of a replica, for such a format. -/
def BlockFormat.marshalReplica {β : Type} (fmt : BlockFormat β) (e : Env) (r : RGA) (order : RangeOrder r)
    (limits : Limits) : Checked WireErr (List UInt8) :=
  match r.captureRunState order with
  | .error err => .error (.text err)
  | .ok state => fmt.marshalState e state limits

variable (e : Env)

def marshalRGARunState (state : RunState) (limits : Limits) : Checked WireErr (List UInt8) := do
  check (withinCounts limits state.nodes.length state.tombstones.length) (.frame .frameLimit)
  let (nodes, tombstones) := state.sort
  match validateCompleteRunState nodes tombstones with
  | .error err => .error (.text err)
  | .ok linear =>
    let blocks := if linear then [nodes] else makeRunBlocksFromSortedItems nodes
    mapError .frame (runFormat.marshalBlocks e typeIDRGARunState blocks tombstones limits)

def RGA.marshalRunBinaryWithLimits (r : RGA) (order : RangeOrder r) (limits : Limits) :
    Checked WireErr (List UInt8) :=
  match r.captureRunState order with
  | .error err => .error (.text err)
  | .ok state => marshalRGARunState e state limits

def Delta.marshalRunBinaryWithLimits (d : Delta) (limits : Limits) : Checked WireErr (List UInt8) :=
  runFormat.marshal e typeIDRGARunDelta d.nodes d.tombstones limits

/-- A delta with the order of its nodes. -/
def BlockFormat.unmarshalDelta {β : Type} (fmt : BlockFormat β) (e : Env) (typeID : UInt64) (data : List UInt8)
    (limits : Limits) : Checked Wire.Err Delta := do
  let (nodes, tombstones, canonicalNodeIDs) ← fmt.unmarshal e data typeID limits false
  return {nodes, tombstones, canonicalNodeIDs}

/-- The nodes and the tombstones of a complete state. -/
def BlockFormat.unmarshalState {β : Type} (fmt : BlockFormat β) (e : Env) (data : List UInt8) (limits : Limits) :
    Checked Wire.Err (TagMap (Node Rune) × TagSet) := do
  let (nodes, tombstones, _) ← fmt.unmarshal e data fmt.stateType limits true
  return (nodes, tombstones)

/-- A decoded state takes the place of the state of a replica. The outer `none` is a panic. -/
def RGA.installDecoded (r : RGA) (decoded : Checked Wire.Err (TagMap (Node Rune) × TagSet)) (millis : Int64) :
    Option (RGA × Except WireErr Unit) :=
  match decoded with
  | .broken => none
  | .error err => some (r, .error (.frame err))
  | .ok (nodes, tombstones) => do
    let (r, res) ← r.installState nodes tombstones millis
    return (r, res.mapError .text)

def unmarshalRGARunDeltaWithLimits (data : List UInt8) (limits : Limits) : Checked Wire.Err Delta :=
  runFormat.unmarshalDelta e typeIDRGARunDelta data limits

def unmarshalRGARunState (data : List UInt8) (limits : Limits) :
    Checked Wire.Err (TagMap (Node Rune) × TagSet) :=
  runFormat.unmarshalState e data limits

def RGA.unmarshalRunBinaryWithLimits (r : RGA) (data : List UInt8) (limits : Limits)
    (millis : Int64) : Option (RGA × Except WireErr Unit) :=
  r.installDecoded (unmarshalRGARunState e data limits) millis

/-! ### What is captured -/

/-- In the order of identifiers. -/
def Ascending (items : List RunNode) : Prop := items.IsChain fun a b => a.id < b.id

variable {linear : Bool}

theorem ascending_of_linearAfter {found : List RunNode} {next : RunNode}
    (hsorted : linear = true → Ascending found) (h : linearAfter found linear next = true) :
    Ascending (found ++ [next]) := by
  unfold linearAfter at h
  cases hlast : found.getLast? with
  | none =>
    rw [getLast?_eq_none_iff.mp hlast]
    exact .singleton _
  | some previous =>
    simp only [hlast] at h
    obtain ⟨hlinear, hnext⟩ := Bool.and_eq_true_iff.mp h
    simp only [continuesLinear, Bool.not_eq_true', Bool.or_eq_false_iff, decide_eq_false_iff_not, not_not,
      ne_eq, Tag.compare_eq_gt_iff] at hnext
    refine isChain_append.mpr ⟨hsorted hlinear, .singleton _, fun a ha b hb => ?_⟩
    rw [hlast] at ha
    cases ha
    cases hb
    exact hnext.1.2

variable {n : Nat} {l : List MarkerRef} {s : SequenceIndex}

/-- What a walk has found: the entries it has passed, and that they are in order as long as the
flag says so. -/
theorem captureWalk_spec {nodes : TagMap (Node Rune)} {expected t t' : Nat}
    {found found' : List RunNode} {linear' : Bool} {p : Option MarkerRef} (hl : Chain s.markers p l none)
    (h : captureWalk s nodes expected n l.head? t found linear = some (t', found', linear'))
    (hsorted : linear = true → Ascending found) :
    ∃ items, found' = found ++ items ∧ items.map RunNode.id = (l.map s.label).filterMap Mark.entered ∧
      (∀ x ∈ items, nodes[x.id]? = some x.item) ∧ (linear' = true → Ascending found') := by
  induction l generalizing p n t found linear with
  | nil =>
    rw [head?_nil, captureWalk] at h
    cases h
    exact ⟨[], by simp, rfl, by simp, hsorted⟩
  | cons m l ih =>
    obtain ⟨_, hnext, hl⟩ := hl
    have hnext : (s.markers m).next = l.head? := by rw [← or_none (o := l.head?)]; exact hnext
    obtain ⟨pair, side⟩ := m
    cases n with
    | zero => cases h
    | succ n =>
      rw [head?_cons, captureWalk, hnext] at h
      split_ifs at h with ht hside
      · obtain ⟨items, hitems, hids, hknown, hlinear⟩ := ih hl h hsorted
        refine ⟨items, hitems, ?_, hknown, hlinear⟩
        cases side with
        | entry => exact absurd rfl hside
        | exit => exact hids
      cases hitem : nodes[s.position pair]? with
      | none => simp only [hitem] at h; cases h
      | some item =>
        simp only [hitem] at h
        obtain ⟨items, hitems, hids, hknown, hlinear⟩ := ih hl h (ascending_of_linearAfter hsorted)
        refine ⟨⟨s.position pair, item⟩ :: items, by rw [hitems]; simp, ?_, ?_, hlinear⟩
        · cases side with
          | entry => simp [SequenceIndex.label, Mark.entered, hids]
          | exit => exact absurd (by rintro ⟨⟩) hside
        · exact forall_mem_cons.mpr ⟨hitem, hknown⟩

/-! ### Sorting -/

section Sorting
variable {nodes : TagMap (Node Rune)} {items : List RunNode} {tombstones : TagSet} {ids : List Position}

theorem pairwise_sortedItems (nodes : TagMap (Node Rune)) : (sortedItems nodes).Pairwise fun a b => a.id < b.id := by
  have h : ((sortedItems nodes).map RunNode.id).Pairwise (· < ·) := by
    rw [map_id_sortedItems]
    exact nodes.ordered_keys.imp fun h => (Tag.compare_eq_lt_iff _ _).mp h
  exact pairwise_map.mp h

theorem pairwise_toList (tombstones : TagSet) : tombstones.toList.Pairwise (· < ·) :=
  tombstones.ordered_toList.imp fun h => (Tag.compare_eq_lt_iff _ _).mp h

theorem eq_sortedItems (hperm : items.Perm (sortedItems nodes)) (h : items.Pairwise fun a b => a.id ≤ b.id) :
    items = sortedItems nodes := by
  refine hperm.eq_of_pairwise (fun a b ha hb hab hba => ?_) h ((pairwise_sortedItems nodes).imp le_of_lt)
  have hid : a.id = b.id := le_antisymm hab hba
  have ha := mem_sortedItems.mp (hperm.mem_iff.mp ha)
  have hb := mem_sortedItems.mp hb
  rw [hid, hb] at ha
  cases a
  cases b
  dsimp only at hid ha
  rw [hid, some.inj ha]

theorem eq_toList (hperm : ids.Perm tombstones.toList) (h : ids.Pairwise (· ≤ ·)) : ids = tombstones.toList :=
  hperm.eq_of_pairwise (fun _ _ _ _ hab hba => le_antisymm hab hba) h ((pairwise_toList tombstones).imp le_of_lt)

theorem compare_ne_gt_iff {a b : Tag} : a.compare b ≠ .gt ↔ a ≤ b := by
  rw [ne_eq, Tag.compare_eq_gt_iff, not_lt]

theorem pairwise_mergeSort_key {α : Type} (key : α → Tag) (l : List α) :
    (l.mergeSort fun a b => (key a).compare (key b) ≠ .gt).Pairwise fun a b => key a ≤ key b := by
  refine (pairwise_mergeSort (fun a b c hab hbc => ?_) (fun a b => ?_) l).imp fun h => ?_
  · simp only [decide_eq_true_eq, compare_ne_gt_iff] at hab hbc ⊢
    exact hab.trans hbc
  · simp only [Bool.or_eq_true, decide_eq_true_eq, compare_ne_gt_iff]
    exact le_total _ _
  · exact compare_ne_gt_iff.mp (of_decide_eq_true h)

theorem mergeSort_items (hperm : items.Perm (sortedItems nodes)) :
    items.mergeSort (fun a b => a.id.compare b.id ≠ .gt) = sortedItems nodes :=
  eq_sortedItems ((mergeSort_perm _ _).trans hperm) (pairwise_mergeSort_key RunNode.id items)

theorem mergeSort_ids (hperm : ids.Perm tombstones.toList) :
    ids.mergeSort (fun a b => a.compare b ≠ .gt) = tombstones.toList :=
  eq_toList ((mergeSort_perm _ _).trans hperm) (pairwise_mergeSort_key id ids)

theorem Ascending.pairwise (h : Ascending items) : items.Pairwise fun a b => a.id < b.id := by
  exact isChain_iff_pairwise.mp h

end Sorting

variable {r : RGA} {order : RangeOrder r} {root : MarkerRef}

theorem sort_maps (r : RGA) (order : RangeOrder r) :
    (r.captureRunStateFromMapsLocked order).sort = (sortedItems r.nodes, r.tombstones.toList) := by
  refine Prod.ext (mergeSort_items ?_) (mergeSort_ids order.tombstones_perm)
  exact order.nodes_perm.map _

theorem nodup_entries (hf : Forested r.nodes) (hlabels : (root :: l).map s.label = marksOf r.nodes) :
    ((l.map s.label).filterMap Mark.entered).Nodup := by
  have hnodup := nodup_traversal hf
  rw [traversal_eq, ← hlabels] at hnodup
  refine hnodup.sublist ?_
  exact (sublist_cons_self _ _).filterMap _

theorem perm_of_nodup_of_length {α : Type} {l l' : List α} (hnodup : l.Nodup) (hsub : ∀ a ∈ l, a ∈ l')
    (hlen : l.length = l'.length) : l.Perm l' :=
  (subperm_of_subset hnodup hsub).perm_of_length_le hlen.ge

theorem walk_spec (h : r.Inv) (hroot : r.sequence.entry .zero = some root) {expected t : Nat}
    {nodes : List RunNode}
    (hwalk : captureWalk r.sequence r.nodes expected n (r.sequence.markers root).next 0 [] true =
      some (t, nodes, linear)) (hlen : nodes.length = r.nodes.size) :
    nodes.Perm (sortedItems r.nodes) ∧ (linear = true → Ascending nodes) := by
  obtain ⟨l, hl⟩ := h.indexed.holds
  obtain ⟨rest, hmarks⟩ : ∃ rest, marksOf r.nodes = .enter .zero :: rest := ⟨_, rfl⟩
  obtain ⟨m, l', rfl, hm, -⟩ := map_eq_cons_iff.mp (hl.labels.trans hmarks)
  obtain ⟨pair, hpair, rfl⟩ := map_eq_some_iff.mp hroot
  obtain ⟨hpos, hmem, -⟩ := hl.of_pair hpair
  obtain rfl : m = ⟨pair, .entry⟩ := hl.label_inj (by simp) hmem (hm.trans (by simp [SequenceIndex.label, hpos]))
  obtain ⟨-, hnext, hchain⟩ := hl.rep.chain
  have hnext : (r.sequence.markers ⟨pair, .entry⟩).next = l'.head? := by
    rw [← or_none (o := l'.head?)]
    exact hnext
  obtain ⟨items, rfl, hids, hknown, hsorted⟩ := captureWalk_spec hchain (hnext ▸ hwalk) fun _ => .nil
  refine ⟨perm_of_nodup_of_length ?_ (fun x hx => mem_sortedItems.mpr (hknown x hx)) ?_, hsorted⟩
  · exact .of_map RunNode.id (hids ▸ nodup_entries h.indexed.forested hl.labels)
  · rw [hlen, length_sortedItems]

/-- Whatever way a state is captured, its nodes and tombstones are encoded in order. -/
theorem sorted_capture (h : r.Inv) (order : RangeOrder r) :
    (r.captureRunStateLocked order).sort = (sortedItems r.nodes, r.tombstones.toList) := by
  have hmaps := sort_maps r order
  unfold RGA.captureRunStateLocked
  cases hroot : r.sequence.entry .zero with
  | none => exact hmaps
  | some root =>
    dsimp only
    split_ifs with hshape
    · exact hmaps
    cases hwalk : captureWalk r.sequence r.nodes (2 * (r.nodes.size + 1)) (2 * (r.nodes.size + 1))
        (r.sequence.markers root).next 0 [] true with
    | none => exact hmaps
    | some found =>
      obtain ⟨t, nodes, linear⟩ := found
      dsimp only
      split_ifs with hcount hlinear hall
      · exact hmaps
      · obtain ⟨hperm, -⟩ := walk_spec h hroot hwalk (not_not.mp (not_or.mp hcount).2)
        exact Prod.ext (mergeSort_items hperm) (mergeSort_ids order.tombstones_perm)
      · obtain ⟨hperm, hsorted⟩ := walk_spec h hroot hwalk (not_not.mp (not_or.mp hcount).2)
        have hpairwise := (hsorted (by simpa using hlinear)).pairwise
        refine Prod.ext (eq_sortedItems hperm (hpairwise.imp le_of_lt)) ?_
        have hids : ((nodes.map RunNode.id).filter r.tombstones.contains).Pairwise (· < ·) :=
          (pairwise_map.mpr hpairwise).filter _
        refine eq_toList (perm_of_nodup_of_length (hids.imp ne_of_lt) (fun id hid => ?_) ?_) (hids.imp le_of_lt)
        · exact Std.ExtTreeSet.mem_toList.mpr (Std.ExtTreeSet.contains_iff_mem.mp (List.mem_filter.mp hid).2)
        · exact hall.trans Std.ExtTreeSet.length_toList.symm
      · exact hmaps

/-! ### The checks on a sorted state -/

section Checks
variable {nodes : TagMap (Node Rune)} {id : Position} {x : RunNode}

variable {i : Nat}

theorem searchSorted_eq (hi : (sortedItems nodes)[i]? = some x) :
    searchSorted (sortedItems nodes) x.id = i := by
  have hsorted := pairwise_sortedItems nodes
  obtain ⟨hlt, hx⟩ := List.getElem?_eq_some_iff.mp hi
  have hmono : (sortedItems nodes).Pairwise fun a b =>
      (decide (a.id.compare x.id ≠ .lt) = true → decide (b.id.compare x.id ≠ .lt) = true) := by
    refine hsorted.imp fun {a b} hab ha => ?_
    simp only [decide_eq_true_eq, ne_eq, Tag.compare_eq_lt_iff, not_lt] at ha ⊢
    exact ha.trans hab.le
  obtain ⟨-, hbefore, hafter⟩ := Search.search_list hmono
  change searchSorted (sortedItems nodes) x.id = i
  set k := searchSorted (sortedItems nodes) x.id
  rcases lt_trichotomy k i with hk | hk | hk
  · -- the item found is below `x`, and not below it
    have hkl : k < (sortedItems nodes).length := hk.trans hlt
    have hdrop : (sortedItems nodes)[k] ∈ (sortedItems nodes).drop k := by
      rw [drop_eq_getElem_cons hkl]
      exact mem_cons_self
    have hge := hafter _ hdrop
    simp only [decide_eq_true_eq, ne_eq, Tag.compare_eq_lt_iff] at hge
    have hbelow := pairwise_iff_getElem.mp hsorted k i hkl hlt hk
    exact absurd (hx ▸ hbelow) hge
  · exact hk
  have htake : x ∈ (sortedItems nodes).take k := mem_take_iff_getElem.mpr ⟨i, by omega, hx⟩
  have := hbefore x htake
  simp at this

theorem getElem?_searchSorted (nodes : TagMap (Node Rune)) (id : Position) :
    (sortedItems nodes)[searchSorted (sortedItems nodes) id]?.map RunNode.id = some id ↔ id ∈ nodes := by
  constructor
  · intro h
    obtain ⟨y, hy, rfl⟩ := map_eq_some_iff.mp h
    exact mem_iff.mpr ⟨_, mem_sortedItems.mp (mem_of_getElem? hy)⟩
  intro h
  obtain ⟨item, hitem⟩ := mem_iff.mp h
  have hmem : (⟨id, item⟩ : RunNode) ∈ sortedItems nodes := mem_sortedItems.mpr hitem
  obtain ⟨i, hi⟩ := mem_iff_getElem?.mp hmem
  have hsearch : searchSorted (sortedItems nodes) id = i := searchSorted_eq hi
  rw [hsearch, hi]
  rfl

theorem containsSortedRunNode_iff : containsSortedRunNode (sortedItems nodes) id = true ↔ id ∈ nodes := by
  rw [containsSortedRunNode, decide_eq_true_eq, getElem?_searchSorted]

variable {column : List (Option Colour)} {path : List Nat} {j : Nat}

theorem visiting_of_set {colour : Colour} (h : (column.set i (some colour)).getD j none = some .visiting) :
    (colour = .visiting ∧ i = j) ∨ (column.getD j none = some .visiting ∧ i ≠ j) := by
  rw [getD_eq_getElem?_getD, getElem?_set] at h
  split_ifs at h with hij hlt
  · exact .inl ⟨some.inj h, hij⟩
  · cases h
  · exact .inr ⟨getD_eq_getElem?_getD.trans h, hij⟩

theorem visiting_of_foldl_complete
    (h : (path.foldl (fun column i => column.set i (some .complete)) column).getD j none = some .visiting) :
    column.getD j none = some .visiting ∧ j ∉ path := by
  induction path generalizing column with
  | nil => exact ⟨h, not_mem_nil⟩
  | cons i path ih =>
    obtain ⟨h, hj⟩ := ih h
    obtain ⟨h, -⟩ | ⟨h, hij⟩ := visiting_of_set h
    · cases h
    · exact ⟨h, by simp [hj, hij.symm]⟩

section Walk
variable (hac : Acyclic nodes) (hcomplete : ∀ (id : Position) item, nodes[id]? = some item →
  item.parent.valid = true → item.parent ∈ nodes)
include hac hcomplete

/-- A walk does not come back to its path, and it colours one more item at each step. -/
theorem walkSorted_of_acyclic (hx : (sortedItems nodes)[i]? = some x) (hn : column.count none < n)
    (hlen : column.length = (sortedItems nodes).length)
    (hpath : ∀ j, column.getD j none = some .visiting → j ∈ path ∧ ∀ y, (sortedItems nodes)[j]? = some y →
      Relation.TransGen (fun a b => parentOf nodes a = some b) y.id x.id) :
    ∃ column' path', walkSorted (sortedItems nodes) n column path i = some (column', path') ∧
      column'.length = column.length ∧ ∀ j, column'.getD j none = some .visiting → j ∈ path' := by
  induction n generalizing column path i x with
  | zero => omega
  | succ n ih =>
    have hitem := mem_sortedItems.mp (mem_of_getElem? hx)
    have hi : i < column.length := hlen ▸ (List.getElem?_eq_some_iff.mp hx).1
    rw [walkSorted, hx]
    cases hcolour : column.getD i none with
    | some colour =>
      cases colour with
      | visiting => exact absurd ((hpath i hcolour).2 x hx) (hac x.id (mem_iff.mpr ⟨_, hitem⟩)).not_on_cycle
      | complete => exact ⟨column, path, rfl, rfl, fun j hj => (hpath j hj).1⟩
    | none =>
      dsimp only
      split_ifs with hp hnext
      · refine ⟨_, _, rfl, length_set, fun j hj => ?_⟩
        obtain ⟨-, rfl⟩ | ⟨hj, -⟩ := visiting_of_set hj
        · simp
        · exact mem_append_left _ (hpath j hj).1
      · exact absurd ((getElem?_searchSorted nodes _).mpr (hcomplete _ _ hitem (by simpa using hp))) hnext
      obtain ⟨y, hy, hid⟩ := map_eq_some_iff.mp (not_not.mp hnext)
      have hstep : parentOf nodes x.id = some y.id := parentOf_eq_some.mpr ⟨_, hitem, hid.symm⟩
      have hset : (column.set i (some .visiting)).length = column.length := length_set
      rw [← hset]
      refine ih hy ?_ (hset.trans hlen) fun j hj => ?_
      · have hmem : none ∈ column := mem_of_getElem? (i := i) (by grind)
        have := count_pos_iff.mpr hmem
        rw [count_set hi]
        grind
      · obtain ⟨-, rfl⟩ | ⟨hj, -⟩ := visiting_of_set hj
        · refine ⟨by simp, fun z hz => ?_⟩
          cases hx.symm.trans hz
          exact .single hstep
        · exact ⟨mem_append_left _ (hpath j hj).1, fun z hz => .tail ((hpath j hj).2 z hz) hstep⟩

theorem acyclicSortedRunNodes_of_acyclic : acyclicSortedRunNodes (sortedItems nodes) = true := by
  suffices hloop : ∀ starts : List Nat, (∀ i ∈ starts, i < (sortedItems nodes).length) → ∀ column : List (Option Colour),
      column.length = (sortedItems nodes).length → (∀ j, column.getD j none ≠ some .visiting) →
      acyclicSortedLoop (sortedItems nodes) column starts = true from
    hloop _ (by simp) _ length_replicate (by grind)
  intro starts hstarts
  induction starts with
  | nil => exact fun _ _ _ => rfl
  | cons i starts ih =>
    intro column hlen hnone
    obtain ⟨hi, hstarts⟩ := forall_mem_cons.mp hstarts
    rw [acyclicSortedLoop]
    split_ifs
    · exact ih hstarts column hlen hnone
    obtain ⟨column', path, hwalk, hlen', hvisiting⟩ : ∃ column' path, walkSorted _ _ column [] i =
        some (column', path) ∧ _ :=
      walkSorted_of_acyclic hac hcomplete (getElem?_eq_getElem hi) (Nat.lt_succ_of_le (hlen ▸ count_le_length)) hlen
        fun j hj => absurd hj (hnone j)
    rw [hwalk]
    refine ih hstarts _ ?_ fun j hj => ?_
    · refine foldlRecOn (motive := fun c : List (Option Colour) => c.length = _) path _ (hlen'.trans hlen) ?_
      exact fun _ h _ _ => length_set.trans h
    · obtain ⟨hj, hmem⟩ := visiting_of_foldl_complete hj
      exact hmem (hvisiting j hj)

end Walk

end Checks

/-! ### The encoder of a state -/

section Encoder
variable {nodes : TagMap (Node Rune)} {tombstones : TagSet} {e : Env} {limits : Limits} {b : List UInt8}
  {β : Type} {fmt : BlockFormat β}

/-- The state with these nodes and tombstones. -/
def RunState.ofMaps (nodes : TagMap (Node Rune)) (tombstones : TagSet) : RunState :=
  ⟨sortedItems nodes, tombstones.toList, true, true⟩

theorem hasCompleteParents_iff : hasCompleteParents nodes = true ↔ ∀ (id : Position) item,
    nodes[id]? = some item → item.parent.valid = true → item.parent ∈ nodes := by
  simp only [hasCompleteParents, List.all_eq_true, Bool.or_eq_true, Bool.not_eq_true',
    Std.ExtTreeMap.contains_iff_mem, Prod.forall, MapLoop.mem_toList]
  refine forall_congr' fun id => forall_congr' fun item => imp_congr_right fun _ => ?_
  cases item.parent.valid <;> simp

theorem validItems_iff : ((sortedItems nodes).all (fun x => validNode x.id x.item) &&
    decide ((sortedItems nodes).IsChain fun a b => a.id ≠ b.id) && tombstones.toList.all Tag.valid) = true ↔
      Delta.Valid {nodes, tombstones} := by
  have hchain : (sortedItems nodes).IsChain fun a b => a.id ≠ b.id :=
    ((pairwise_sortedItems nodes).imp ne_of_lt).isChain
  rw [decide_eq_true hchain, Bool.and_true, Bool.and_eq_true, List.all_eq_true, List.all_eq_true]
  constructor
  · rintro ⟨hn, ht⟩
    refine ⟨⟨fun id item hitem => ?_⟩, fun id hid => ht id (Std.ExtTreeSet.mem_toList.mpr hid)⟩
    exact validNode_parts (hn ⟨id, item⟩ (mem_sortedItems.mpr hitem))
  refine fun hd => ⟨fun x hx => ?_, fun id hid => hd.tombstones id (Std.ExtTreeSet.mem_toList.mp hid)⟩
  have := hd.nodes.valid x.id x.item (mem_sortedItems.mp hx)
  simp only [validNode, Bool.and_eq_true, Bool.or_eq_true, decide_eq_true_eq]
  tauto

theorem valid_of_validate
    (h : validateCompleteRunState (sortedItems nodes) tombstones.toList = .ok linear) :
    Delta.Valid {nodes, tombstones} := by
  unfold validateCompleteRunState at h
  by_contra hv
  rw [← validItems_iff, Bool.not_eq_true] at hv
  rw [hv, Bool.not_false] at h
  cases h

theorem validate_of_valid (hd : Delta.Valid {nodes, tombstones}) (hac : Acyclic nodes)
    (hcomplete : hasCompleteParents nodes = true) :
    ∃ linear, validateCompleteRunState (sortedItems nodes) tombstones.toList = .ok linear := by
  have hparents := hasCompleteParents_iff.mp hcomplete
  have hsorted := acyclicSortedRunNodes_of_acyclic hac hparents
  have hknown : ((sortedItems nodes).any fun x =>
      x.item.parent.valid && !containsSortedRunNode (sortedItems nodes) x.item.parent) = false := by
    refine any_eq_false.mpr fun x hx => ?_
    by_cases hp : x.item.parent.valid = true
    · have hmem := hparents _ _ (mem_sortedItems.mp hx) hp
      simp [containsSortedRunNode_iff.mpr hmem]
    · simp [hp]
  unfold validateCompleteRunState
  rw [validItems_iff.mpr hd, hknown, hsorted]
  simp only [Bool.not_true, Bool.false_eq_true, if_false]
  split_ifs
  · exact ⟨true, rfl⟩
  · exact ⟨false, rfl⟩

/-- The short cut for a single run is none. -/
theorem blocks_of_linear (h : validateCompleteRunState (sortedItems nodes) tombstones.toList = .ok true) :
    makeRunBlocksFromSortedItems (sortedItems nodes) = [sortedItems nodes] := by
  unfold validateCompleteRunState at h
  split_ifs at h with _ hlinear
  · obtain ⟨hhead, hrun⟩ := Bool.and_eq_true_iff.mp hlinear
    have hne : (sortedItems nodes).length ≠ 0 := by
      intro hlen
      rw [length_eq_zero_iff.mp hlen] at hhead
      cases hhead
    rw [makeRunBlocksFromSortedItems, if_neg hne, if_pos hrun]
  · cases h

theorem length_sort (state : RunState) :
    state.sort.1.length = state.nodes.length ∧ state.sort.2.length = state.tombstones.length := by
  unfold RunState.sort
  constructor
  · dsimp only
    split_ifs
    · rfl
    · exact (mergeSort_perm _ _).length_eq
  dsimp only
  split_ifs
  · rfl
  · exact (mergeSort_perm _ _).length_eq

/-- A state is encoded by what it is once it is sorted. -/
theorem marshalState_congr {state state' : RunState} (h : state.sort = state'.sort) :
    fmt.marshalState e state limits = fmt.marshalState e state' limits := by
  obtain ⟨hn, ht⟩ := length_sort state
  obtain ⟨hn', ht'⟩ := length_sort state'
  unfold marshalState
  rw [← hn, ← ht, ← hn', ← ht', h]

theorem marshalRGARunState_eq {state : RunState} (h : state.sort = (sortedItems nodes, tombstones.toList)) :
    marshalRGARunState e state limits = runFormat.marshalState e state limits := by
  unfold marshalRGARunState marshalState
  rw [h]
  dsimp only
  cases hv : validateCompleteRunState (sortedItems nodes) tombstones.toList with
  | error err => rfl
  | ok linear =>
    cases linear with
    | false => rfl
    | true =>
      dsimp only
      rw [blocks_of_linear hv]
      rfl

/-- A complete state is encoded as the map-backed encoder does. -/
theorem marshalState_ofMaps_iff (hac : Acyclic nodes) (hcomplete : hasCompleteParents nodes = true) :
    fmt.marshalState e (.ofMaps nodes tombstones) limits = .ok b ↔
      fmt.marshal e fmt.stateType nodes tombstones limits = .ok b := by
  have hlen : (RunState.ofMaps nodes tombstones).nodes.length = nodes.size := length_sortedItems nodes
  have hlen' : (RunState.ofMaps nodes tombstones).tombstones.length = tombstones.size :=
    Std.ExtTreeSet.length_toList
  have hsort : (RunState.ofMaps nodes tombstones).sort = (sortedItems nodes, tombstones.toList) := rfl
  unfold marshalState marshal
  rw [hlen, hlen', hsort]
  dsimp only
  rcases validateDelta_cases {nodes, tombstones} with ⟨hok, hd⟩ | herr
  · obtain ⟨linear, hv⟩ := validate_of_valid hd hac hcomplete
    rw [hok, hv, makeRunBlocksFromSortedItems_eq]
    simp only [hcomplete, Bool.or_true, check_true, ok_bind]
  have hbad : ¬ Delta.Valid {nodes, tombstones} := fun hd => by
    rw [validateDelta_eq_ok.mpr hd] at herr
    cases herr
  rw [herr]
  refine ⟨fun h => ?_, nofun⟩
  obtain ⟨-, h⟩ := check_bind_eq_ok_iff.mp h
  cases hv : validateCompleteRunState (sortedItems nodes) tombstones.toList with
  | error err => rw [hv] at h; cases h
  | ok linear => exact (hbad (valid_of_validate hv)).elim

end Encoder

/-! ### Replicas -/

section Replicas
variable {e : Env} {limits : Limits} {nodes : TagMap (Node Rune)} {tombstones : TagSet} {b : List UInt8}

theorem acyclic_of_forested (h : Forested nodes) : Acyclic nodes := fun id hid => by
  refine Grounded.of_rooted (h.rooted id hid) ?_
  rw [parentOf, not_mem_iff.mp h.zero_not_mem]
  rfl

theorem complete_of_forested (h : Forested nodes) : hasCompleteParents nodes = true := by
  refine hasCompleteParents_iff.mpr fun id item hitem hv => ?_
  refine (h.parent_known (parentOf_eq_some.mpr ⟨item, hitem, rfl⟩)).resolve_left fun hz => ?_
  exact Tag.ne_zero_of_valid hv hz

theorem captureRunState_eq (hp : r.pending = ∅) (order : RangeOrder r) :
    r.captureRunState order = .ok (r.captureRunStateLocked order) := by
  unfold RGA.captureRunState
  rw [hp, if_neg (by simp)]

theorem captureRunState_error (hp : r.pending ≠ ∅) (order : RangeOrder r) :
    r.captureRunState order = .error .incompleteState := by
  have hsize : 0 < r.pending.size := by
    refine Nat.pos_of_ne_zero fun hz => hp ?_
    exact Std.ExtTreeMap.eq_empty_iff_size_eq_zero.mpr hz
  unfold RGA.captureRunState
  rw [if_pos hsize]

/-- The encoder of the run format takes its short cut where it makes no difference. -/
theorem marshalRunBinary_eq (h : r.Inv) (order : RangeOrder r) :
    r.marshalRunBinaryWithLimits e order limits = runFormat.marshalReplica e r order limits := by
  unfold RGA.marshalRunBinaryWithLimits marshalReplica
  by_cases hp : r.pending = ∅
  · rw [captureRunState_eq hp order]
    exact marshalRGARunState_eq (sorted_capture h order)
  · rw [captureRunState_error hp order]

section Lawful
variable {β : Type} {fmt : BlockFormat β} {typeID : UInt64}

theorem marshalReplica_eq (h : r.Inv) (hp : r.pending = ∅) (order : RangeOrder r) :
    fmt.marshalReplica e r order limits = fmt.marshalState e (.ofMaps r.nodes r.tombstones) limits := by
  unfold marshalReplica
  rw [captureRunState_eq hp order]
  exact marshalState_congr (sorted_capture h order)

theorem marshalReplica_iff (h : r.Inv) (hp : r.pending = ∅) (order : RangeOrder r) :
    fmt.marshalReplica e r order limits = .ok b ↔
      fmt.marshal e fmt.stateType r.nodes r.tombstones limits = .ok b := by
  rw [marshalReplica_eq h hp order]
  exact marshalState_ofMaps_iff (acyclic_of_forested h.indexed.forested) (complete_of_forested h.indexed.forested)

theorem pending_of_marshalReplica (h : fmt.marshalReplica e r order limits = .ok b) : r.pending = ∅ := by
  by_contra hp
  unfold marshalReplica at h
  rw [captureRunState_error hp order] at h
  cases h

theorem validate_of_unmarshal {complete : Bool} {ids : List Position}
    (h : fmt.unmarshal e b typeID limits complete = .ok (nodes, tombstones, ids)) :
    validateDelta {nodes, tombstones} = .ok () := by
  unfold unmarshal at h
  obtain ⟨f, -, h⟩ := bind_eq_ok_iff.mp h
  obtain ⟨-, h⟩ := check_bind_eq_ok_iff.mp h
  obtain ⟨⟨decoded, tombs⟩, -, h⟩ := bind_eq_ok_iff.mp h
  obtain ⟨hchecks, h⟩ := check_bind_eq_ok_iff.mp h
  obtain ⟨_, -, h⟩ := bind_eq_ok_iff.mp h
  cases h
  simp only [Bool.and_eq_true] at hchecks
  rcases validateDelta_cases {nodes := decoded.nodes, tombstones} with ⟨hok, -⟩ | herr
  · exact hok
  · rw [herr] at hchecks
    cases hchecks.1.1

variable {r' : RGA} {millis : Int64}

theorem installed_of_unmarshal
    (h : r.installDecoded (fmt.unmarshalState e b limits) millis = some (r', .ok ())) :
    ∃ nodes tombstones ids, fmt.unmarshal e b fmt.stateType limits true = .ok (nodes, tombstones, ids) ∧
      Installed r r' nodes tombstones := by
  unfold RGA.installDecoded at h
  cases hu : fmt.unmarshalState e b limits with
  | broken => rw [hu] at h; cases h
  | error err => rw [hu] at h; cases h
  | ok p =>
    obtain ⟨nodes, tombstones⟩ := p
    rw [hu] at h
    obtain ⟨⟨nodes', tombstones', ids⟩, hdecoded, hpair⟩ := bind_eq_ok_iff.mp hu
    cases hpair
    obtain ⟨⟨r₁, res⟩, hinstall, h⟩ := bind_eq_some_iff.mp h
    have hd := validateDelta_eq_ok.mp (validate_of_unmarshal hdecoded)
    cases res with
    | error err => cases h
    | ok u =>
      cases h
      rcases ends_of_run (installState_spec r hd millis) hinstall with ⟨-, hi⟩ | ⟨⟨_, herr⟩, -⟩
      · exact ⟨nodes, tombstones, ids, hdecoded, hi⟩
      · cases herr

namespace BlockFormat.Lawful

section
variable (hf : fmt.Lawful) (hl : limits.Fit e.intSize) {d : Delta} {f : Frame}
include hf hl

theorem unmarshalDelta_of_marshal
    (hac : acyclicAgainst d.nodes ∅ = true) (h : fmt.marshal e typeID d.nodes d.tombstones limits = .ok b) :
    ∃ d', fmt.unmarshalDelta e typeID b limits = .ok d' ∧ d'.nodes = d.nodes ∧ d'.tombstones = d.tombstones := by
  have hdecoded : fmt.unmarshal e b typeID limits false = .ok (d.nodes, d.tombstones, _) :=
    unmarshal_of_marshal hf hl hac nofun h
  refine ⟨{nodes := d.nodes, tombstones := d.tombstones, canonicalNodeIDs := d.nodes.keys}, ?_, rfl, rfl⟩
  rw [unmarshalDelta, hdecoded]
  rfl

theorem marshal_of_unmarshalDelta
    (htype : typeID ≠ fmt.stateType) (hframe : unmarshalFrame e b limits = .ok f)
    (hversion : f.version = formatVersion) (h : fmt.unmarshalDelta e typeID b limits = .ok d) :
    fmt.marshal e typeID d.nodes d.tombstones limits = .ok b := by
  obtain ⟨⟨nodes, tombstones, ids⟩, hdecoded, hd⟩ := bind_eq_ok_iff.mp h
  cases hd
  exact marshal_of_unmarshal hf hl hframe hversion (fun he => absurd he htype) hdecoded

theorem unmarshalState_of_marshal (hr : r.Inv) (h : fmt.marshalReplica e r order limits = .ok b) :
    fmt.unmarshalState e b limits = .ok (r.nodes, r.tombstones) := by
  have hmarshal := (marshalReplica_iff hr (pending_of_marshalReplica h) order).mp h
  have hac : acyclicAgainst r.nodes ∅ = true :=
    (acyclicAgainst_iff (valid_of_marshal hmarshal).nodes).mpr (acyclic_of_forested hr.indexed.forested)
  have hdecoded : fmt.unmarshal e b fmt.stateType limits true = .ok (r.nodes, r.tombstones, _) :=
    unmarshal_of_marshal hf hl hac (fun _ => rfl) hmarshal
  rw [unmarshalState, hdecoded]
  rfl

theorem marshal_of_installDecoded (order : RangeOrder r')
    (hframe : unmarshalFrame e b limits = .ok f) (hversion : f.version = formatVersion)
    (h : r.installDecoded (fmt.unmarshalState e b limits) millis = some (r', .ok ())) :
    fmt.marshalReplica e r' order limits = .ok b := by
  obtain ⟨nodes, tombstones, ids, hdecoded, hi⟩ := installed_of_unmarshal h
  rw [marshalReplica_iff hi.inv hi.pending order, hi.nodes, hi.tombstones]
  exact marshal_of_unmarshal hf hl hframe hversion (fun _ => rfl) hdecoded

end

theorem inv_of_installDecoded
    (h : r.installDecoded (fmt.unmarshalState e b limits) millis = some (r', .ok ())) : r'.Inv := by
  obtain ⟨_, _, _, -, hi⟩ := installed_of_unmarshal h
  exact hi.inv

end BlockFormat.Lawful

end Lawful

/-- A replica can be encoded only if nothing is pending, and its frame stands for what it holds. -/
theorem unmarshalRunState_of_marshal (hl : limits.Fit e.intSize) (hr : r.Inv)
    (h : r.marshalRunBinaryWithLimits e order limits = .ok b) :
    r.pending = ∅ ∧ unmarshalRGARunState e b limits = .ok (r.nodes, r.tombstones) := by
  rw [marshalRunBinary_eq hr] at h
  exact ⟨pending_of_marshalReplica h, runFormat_lawful.unmarshalState_of_marshal hl hr h⟩

/-- The run codec is a bijection. An acyclic delta that can be encoded within some limits is decoded
within them to its nodes and tombstones, and a frame of version 1 that is accepted is what its contents
are encoded to; and the same for the complete states of a replica. -/
theorem run_codec_bijection (hl : limits.Fit e.intSize) :
    (∀ (d : Delta) b, acyclicAgainst d.nodes ∅ = true → d.marshalRunBinaryWithLimits e limits = .ok b →
      ∃ d', unmarshalRGARunDeltaWithLimits e b limits = .ok d' ∧ d'.nodes = d.nodes ∧
        d'.tombstones = d.tombstones) ∧
    (∀ b (d : Delta) f, unmarshalFrame e b limits = .ok f → f.version = formatVersion →
      unmarshalRGARunDeltaWithLimits e b limits = .ok d → d.marshalRunBinaryWithLimits e limits = .ok b) ∧
    (∀ (r : RGA) order b, Live r → r.marshalRunBinaryWithLimits e order limits = .ok b →
      unmarshalRGARunState e b limits = .ok (r.nodes, r.tombstones)) ∧
    ∀ (r r' : RGA) order b f millis, unmarshalFrame e b limits = .ok f → f.version = formatVersion →
      r.unmarshalRunBinaryWithLimits e b limits millis = some (r', .ok ()) →
      r'.marshalRunBinaryWithLimits e order limits = .ok b := by
  refine ⟨fun d b hac h => ?_, fun b d f hframe hversion h => ?_, fun r order b hr h => ?_,
    fun r r' order b f millis hframe hversion h => ?_⟩
  · exact runFormat_lawful.unmarshalDelta_of_marshal hl hac h
  · exact runFormat_lawful.marshal_of_unmarshalDelta hl (by decide) hframe hversion h
  · exact (unmarshalRunState_of_marshal hl hr.inv.1 h).2
  · rw [marshalRunBinary_eq (BlockFormat.Lawful.inv_of_installDecoded h)]
    exact runFormat_lawful.marshal_of_installDecoded hl order hframe hversion h

/-- Two letters of one replica, the second deleted; and the state of a replica that has nothing. -/
theorem run_codec_bijection_one_run :
    let e := plainEnv .bits64
    let first : Position := ⟨[65], 1, 0⟩
    let second : Position := ⟨[65], 1, 1⟩
    let nodes := ((∅ : TagMap (Node Rune)).insert first ⟨.zero, 97⟩).insert second ⟨first, 98⟩
    let d : Delta := {nodes, tombstones := (∅ : TagSet).insert second}
    let b := [67, 82, 68, 84, 1, 20, 0, 17, 1, 1, 2, 1, 65, 0, 1, 0, 97, 1, 1, 98, 1, 1, 65, 1, 1, 0, 0, 0, 0]
    let state := [67, 82, 68, 84, 1, 19, 0, 2, 0, 0, 0, 0, 0, 0]
    Limits.default.Fit e.intSize ∧ d.marshalRunBinaryWithLimits e .default = .ok b ∧
      (∃ d', unmarshalRGARunDeltaWithLimits e b .default = .ok d' ∧ d'.nodes = d.nodes ∧
        d'.tombstones = d.tombstones ∧ d'.marshalRunBinaryWithLimits e .default = .ok b) ∧
      ∃ r r' : RGA, newWithOptions [66] defaultOptions = some (.ok r) ∧
        (∀ order, r.marshalRunBinaryWithLimits e order .default = .ok state) ∧
        unmarshalRGARunState e state .default = .ok (r.nodes, r.tombstones) ∧
        r.unmarshalRunBinaryWithLimits e state .default 1 = some (r', .ok ()) ∧
        ∀ order, r'.marshalRunBinaryWithLimits e order .default = .ok state := by
  intro e first second nodes d b state
  have hl : Limits.default.Fit e.intSize := by constructor <;> decide
  have hb : d.marshalRunBinaryWithLimits e .default = .ok b := by decide +kernel
  obtain ⟨d', hd', hnodes, htombs⟩ := (run_codec_bijection hl).1 d _ (by decide +kernel) hb
  refine ⟨hl, hb, ⟨d', hd', hnodes, htombs, ?_⟩, ?_⟩
  · exact (run_codec_bijection hl).2.1 _ d' ⟨20, [], (b.drop 8).take 17, 0⟩ (by decide +kernel) (by decide) hd'
  let r := ((newWithOptions [66] defaultOptions).bind Except.toOption).get (by decide +kernel)
  have hnew : newWithOptions [66] defaultOptions = some (.ok r) := rfl
  have hinstalled : (r.unmarshalRunBinaryWithLimits e state .default 1).map (·.2) = some (.ok ()) := by decide +kernel
  obtain ⟨⟨r', _⟩, hu, rfl⟩ := map_eq_some_iff.mp hinstalled
  have hlive : Live r := .new hnew
  have hmarshal : ∀ order, r.marshalRunBinaryWithLimits e order .default = .ok state := fun order => by
    rw [marshalRunBinary_eq hlive.inv.1, marshalReplica_iff hlive.inv.1 rfl order]
    decide +kernel
  let order : RangeOrder r := ⟨r.nodes.keys, r.tombstones.toList, .refl _, .refl _⟩
  refine ⟨r, r', hnew, hmarshal, ?_, hu, fun order' => ?_⟩
  · exact (run_codec_bijection hl).2.2.1 r order state hlive (hmarshal order)
  · exact (run_codec_bijection hl).2.2.2 r r' order' state ⟨19, [], [0, 0], 0⟩ 1 (by decide +kernel)
      (by decide) hu

end Replicas

end Crdt.Text
