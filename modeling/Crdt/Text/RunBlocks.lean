import Crdt.Text.Plan

/-! The canonical run blocks.

A run is a chain of nodes of one replica, each below the one before. The run formats write the nodes
of a delta or a state block by block: from the smallest node that is in no block yet, the block goes
on as long as there is exactly one child of the same replica and it is not used. The library builds
the blocks in two ways, from a map and from a sorted slice, and both take a short cut for a single
run. For acyclic nodes all of them give the same partition of the nodes into runs. -/
namespace Crdt.Text

open Rga MapLoop List

structure RunNode where
  id : Position
  item : Node Rune
deriving DecidableEq, Repr

/-! ### Blocks -/

/-- `nodes[id]`, the zero value if there is none. -/
def nodeAt (nodes : TagMap (Node Rune)) (id : Position) : Node Rune := nodes[id]?.getD ⟨.zero, 0⟩

/-- The nodes of a map in the order of their identifiers. -/
def sortedItems (nodes : TagMap (Node Rune)) : List RunNode := nodes.keys.map fun id => ⟨id, nodeAt nodes id⟩

/-- `child.count++`, where the first child met is kept. -/
def meetChild {κ : Type} (child : Option (κ × Nat)) (met : κ) : Option (κ × Nat) :=
  match child with
  | none => some (met, 1)
  | some (first, count) => some (first, count + 1)

/-- `children[runChildKey{parent, replicaID}]` after the loop over the items, each of which stands
beside what the map records of it: its identifier or its index. -/
def runChild {κ : Type} (items : List (RunNode × κ)) (parent : Position) (replicaID : List UInt8) :
    Option (κ × Nat) :=
  items.foldl (fun child c =>
    if c.1.item.parent = parent ∧ c.1.id.replicaID = replicaID then meetChild child c.2 else child) none

/-- The rest of a block. It is no longer than there are nodes. -/
def followIDs (nodes : TagMap (Node Rune)) (replicaID : List UInt8) :
    Nat → TagSet → Position → List RunNode × TagSet
  | 0, used, _ => ([], used)
  | n + 1, used, current =>
    match runChild ((sortedItems nodes).map fun x => (x, x.id)) current replicaID with
    | some (next, 1) =>
      if used.contains next then ([], used) else
      let (rest, used) := followIDs nodes replicaID n (used.insert next) next
      (⟨next, nodeAt nodes next⟩ :: rest, used)
    | _ => ([], used)

def runBlocksOfIDs (nodes : TagMap (Node Rune)) : List Position → TagSet → List (List RunNode)
  | [], _ => []
  | id :: ids, used =>
    if used.contains id then runBlocksOfIDs nodes ids used else
    let (rest, used) := followIDs nodes id.replicaID nodes.size (used.insert id) id
    (⟨id, nodeAt nodes id⟩ :: rest) :: runBlocksOfIDs nodes ids used

def makeRunBlocksFromSortedIDs (ids : List Position) (nodes : TagMap (Node Rune)) : List (List RunNode) :=
  runBlocksOfIDs nodes ids ∅

/-- All of one replica, and each below the one before. -/
def oneRun : List RunNode → Bool
  | [] => true
  | first :: rest =>
    (rest.all fun x => x.id.replicaID = first.id.replicaID) &&
      decide ((first :: rest).IsChain fun a b => b.item.parent = a.id)

def singleRunBlock (ids : List Position) (nodes : TagMap (Node Rune)) : Option (List RunNode) :=
  let block := ids.map fun id => ⟨id, nodeAt nodes id⟩
  if oneRun block then some block else none

def makeRunBlocksWithCanonicalIDs (nodes : TagMap (Node Rune)) : List (List RunNode) × List Position :=
  let ids := nodes.keys
  if ids.length = 0 then ([], ids) else
  match singleRunBlock ids nodes with
  | some block => ([block], ids)
  | none => (makeRunBlocksFromSortedIDs ids nodes, ids)

def makeRunBlocks (nodes : TagMap (Node Rune)) : List (List RunNode) := (makeRunBlocksWithCanonicalIDs nodes).1

/-- A block from the item with index `i` on. -/
def followItems (items : List RunNode) (replicaID : List UInt8) :
    Nat → List Bool → Nat → List RunNode × List Bool
  | 0, used, _ => ([], used)
  | n + 1, used, i =>
    match items[i]? with
    | none => ([], used)
    | some current =>
      if used.getD i false then ([], used) else
      let used := used.set i true
      match runChild items.zipIdx current.id replicaID with
      | some (next, 1) =>
        if used.getD next false then ([current], used) else
        let (rest, used) := followItems items replicaID n used next
        (current :: rest, used)
      | _ => ([current], used)

def runBlocksOfItems (items : List RunNode) : List (RunNode × Nat) → List Bool → List (List RunNode)
  | [], _ => []
  | (first, i) :: later, used =>
    if used.getD i false then runBlocksOfItems items later used else
    let (block, used) := followItems items first.id.replicaID (items.length + 1) used i
    block :: runBlocksOfItems items later used

def makeRunBlocksFromSortedItems (items : List RunNode) : List (List RunNode) :=
  if items.length = 0 then [] else
  if oneRun items then [items] else
  runBlocksOfItems items items.zipIdx (List.replicate items.length false)

/-! ### Children -/

section Children
variable {κ κ' : Type} {items : List (RunNode × κ)} {parent : Position} {replicaID : List UInt8}

theorem foldl_meetChild (met : List κ) (k : κ) (n : Nat) :
    met.foldl meetChild (some (k, n)) = some (k, n + met.length) := by
  induction met generalizing n with
  | nil => rfl
  | cons x met ih =>
    rw [foldl_cons, meetChild, ih, length_cons]
    congr 2
    omega

/-- The children under one key. -/
def childrenOf (items : List (RunNode × κ)) (parent : Position) (replicaID : List UInt8) : List κ :=
  (items.filter fun c => c.1.item.parent = parent ∧ c.1.id.replicaID = replicaID).map Prod.snd

theorem runChild_eq : runChild items parent replicaID =
    (childrenOf items parent replicaID).foldl meetChild none := by
  rw [runChild, childrenOf, foldl_map, foldl_filter]
  simp

theorem runChild_eq_one_iff {k : κ} :
    runChild items parent replicaID = some (k, 1) ↔ childrenOf items parent replicaID = [k] := by
  rw [runChild_eq]
  cases childrenOf items parent replicaID with
  | nil => simp
  | cons x met =>
    rw [foldl_cons, meetChild, foldl_meetChild]
    simp

theorem childrenOf_map (f : κ → κ') : childrenOf (items.map fun c => (c.1, f c.2)) parent replicaID =
      (childrenOf items parent replicaID).map f := by
  simp only [childrenOf, filter_map, map_map]
  rfl

theorem mem_childrenOf {k : κ} (h : k ∈ childrenOf items parent replicaID) :
    ∃ x, (x, k) ∈ items ∧ x.item.parent = parent ∧ x.id.replicaID = replicaID := by
  obtain ⟨⟨x, k'⟩, hx, rfl⟩ := mem_map.mp h
  obtain ⟨hx, hp⟩ := List.mem_filter.mp hx
  exact ⟨x, hx, of_decide_eq_true hp⟩

end Children

variable {nodes : TagMap (Node Rune)} {x : RunNode} {items : List RunNode} {used : TagSet}
  {parent next : Position} {replicaID : List UInt8} {ids : List Position} {marks : List Bool}
  {y : RunNode}

theorem mem_sortedItems : x ∈ sortedItems nodes ↔ nodes[x.id]? = some x.item := by
  unfold sortedItems nodeAt
  rw [mem_map]
  constructor
  · rintro ⟨id, hid, rfl⟩
    obtain ⟨item, hitem⟩ := mem_iff.mp (Std.ExtTreeMap.mem_keys.mp hid)
    simp [hitem]
  intro hx
  refine ⟨x.id, Std.ExtTreeMap.mem_keys.mpr (mem_iff.mpr ⟨_, hx⟩), ?_⟩
  rw [hx]
  rfl

theorem nodeAt_of_mem (hx : x ∈ sortedItems nodes) : nodeAt nodes x.id = x.item := by
  rw [nodeAt, mem_sortedItems.mp hx]
  rfl

section
variable (nodes : TagMap (Node Rune))

theorem map_id_sortedItems : (sortedItems nodes).map RunNode.id = nodes.keys := by
  simp [sortedItems, Function.comp_def]

theorem length_sortedItems : (sortedItems nodes).length = nodes.size := by
  rw [sortedItems, length_map, Std.ExtTreeMap.length_keys]

theorem nodup_keys : nodes.keys.Nodup :=
  nodes.ordered_keys.imp fun h => ((Tag.compare_eq_lt_iff _ _).mp h).ne

theorem nodup_sortedItems : ((sortedItems nodes).map RunNode.id).Nodup :=
  map_id_sortedItems nodes ▸ nodup_keys nodes

end

theorem runChild_known
    (h : runChild ((sortedItems nodes).map fun x => (x, x.id)) parent replicaID = some (next, 1)) :
    nodes[next]? = some (nodeAt nodes next) ∧ (nodeAt nodes next).parent = parent ∧
      next.replicaID = replicaID := by
  have hmem : next ∈ childrenOf ((sortedItems nodes).map fun x => (x, x.id)) parent replicaID := by
    rw [runChild_eq_one_iff.mp h]
    exact mem_singleton_self next
  obtain ⟨x, hx, hp, hr⟩ := mem_childrenOf hmem
  obtain ⟨y, hy, he⟩ := mem_map.mp hx
  obtain ⟨rfl, rfl⟩ := Prod.mk.inj he
  have hat := nodeAt_of_mem hy
  exact ⟨by rw [hat, mem_sortedItems.mp hy], by rw [hat, hp], hr⟩

/-! ### A partition into runs -/

/-- `b` goes on after `a`. -/
def Continues (a b : RunNode) : Prop := b.item.parent = a.id ∧ b.id.replicaID = a.id.replicaID

structure Partition (nodes : TagMap (Node Rune)) (blocks : List (List RunNode)) : Prop where
  nonempty : ∀ block ∈ blocks, block ≠ []
  run : ∀ block ∈ blocks, block.IsChain Continues
  perm : blocks.flatten.Perm (sortedItems nodes)

/-- What the rest of a block is. -/
structure Follows (nodes : TagMap (Node Rune)) (used used' : TagSet) (current : Position)
    (rest : List RunNode) : Prop where
  run : (⟨current, nodeAt nodes current⟩ :: rest).IsChain Continues
  known : ∀ x ∈ rest, nodes[x.id]? = some x.item
  nodup : (rest.map RunNode.id).Nodup
  fresh : ∀ x ∈ rest, x.id ∉ used
  used : ∀ a, a ∈ used' ↔ a ∈ used ∨ a ∈ rest.map RunNode.id

theorem followIDs_spec (nodes : TagMap (Node Rune)) (current : Position) (n : Nat) (used : TagSet) :
    Follows nodes used (followIDs nodes current.replicaID n used current).2 current
      (followIDs nodes current.replicaID n used current).1 := by
  have hstop : ∀ {used current}, Follows nodes used used current [] := fun {used current} =>
    ⟨.singleton _, by simp, by simp, by simp, by simp⟩
  induction n generalizing used current with
  | zero => exact hstop
  | succ n ih =>
    rw [followIDs]
    split
    · rename_i next hnext
      obtain ⟨hknown, hparent, hreplica⟩ := runChild_known hnext
      split_ifs with hused
      · exact hstop
      have hrest := ih next (used.insert next)
      rw [hreplica] at hrest
      refine ⟨List.IsChain.cons_cons ⟨hparent, hreplica⟩ hrest.run, ?_, ?_, ?_, fun a => ?_⟩
      · exact forall_mem_cons.mpr ⟨hknown, hrest.known⟩
      · refine nodup_cons.mpr ⟨fun hm => ?_, hrest.nodup⟩
        obtain ⟨x, hx, he⟩ := mem_map.mp hm
        exact hrest.fresh x hx (TagSet.mem_insert.mpr (.inl he.symm))
      · refine forall_mem_cons.mpr ⟨hused, fun x hx hm => ?_⟩
        exact hrest.fresh x hx (TagSet.mem_insert.mpr (.inr hm))
      dsimp only
      rw [hrest.used, TagSet.mem_insert, map_cons, mem_cons]
      tauto
    · exact hstop

/-- What the blocks are, from the identifiers that are left. -/
structure Blocks (nodes : TagMap (Node Rune)) (ids : List Position) (used : TagSet)
    (blocks : List (List RunNode)) : Prop where
  nonempty : ∀ block ∈ blocks, block ≠ []
  run : ∀ block ∈ blocks, block.IsChain Continues
  known : ∀ x ∈ blocks.flatten, nodes[x.id]? = some x.item
  nodup : (blocks.flatten.map RunNode.id).Nodup
  fresh : ∀ x ∈ blocks.flatten, x.id ∉ used
  all : ∀ id ∈ ids, id ∈ used ∨ id ∈ blocks.flatten.map RunNode.id

theorem runBlocksOfIDs_spec (hids : ∀ id ∈ ids, id ∈ nodes) (used : TagSet) :
    Blocks nodes ids used (runBlocksOfIDs nodes ids used) := by
  induction ids generalizing used with
  | nil => exact ⟨by simp [runBlocksOfIDs], by simp [runBlocksOfIDs], by simp [runBlocksOfIDs],
      by simp [runBlocksOfIDs], by simp [runBlocksOfIDs], by simp⟩
  | cons id ids ih =>
    obtain ⟨hid, hids⟩ := forall_mem_cons.mp hids
    rw [runBlocksOfIDs]
    split_ifs with hused
    · rw [Std.ExtTreeSet.contains_iff_mem] at hused
      have h := ih hids used
      exact ⟨h.nonempty, h.run, h.known, h.nodup, h.fresh, forall_mem_cons.mpr ⟨.inl hused, h.all⟩⟩
    rw [Std.ExtTreeSet.contains_iff_mem] at hused
    have hf := followIDs_spec nodes id nodes.size (used.insert id)
    set rest := (followIDs nodes id.replicaID nodes.size (used.insert id) id).1
    set used' := (followIDs nodes id.replicaID nodes.size (used.insert id) id).2
    have h := ih hids used'
    have hself : nodes[id]? = some (nodeAt nodes id) := by
      obtain ⟨item, hitem⟩ := mem_iff.mp hid
      rw [nodeAt, hitem]
      rfl
    have hblock : (((⟨id, nodeAt nodes id⟩ : RunNode) :: rest).map RunNode.id).Nodup := by
      refine nodup_cons.mpr ⟨fun hm => ?_, hf.nodup⟩
      obtain ⟨x, hx, he⟩ := mem_map.mp hm
      exact hf.fresh x hx (TagSet.mem_insert.mpr (.inl he.symm))
    have hin : ∀ a, a ∈ ((⟨id, nodeAt nodes id⟩ : RunNode) :: rest).map RunNode.id ∨ a ∈ used ↔
        a ∈ used' := by
      intro a
      rw [hf.used, TagSet.mem_insert, map_cons, mem_cons]
      tauto
    refine ⟨?_, ?_, ?_, ?_, ?_, ?_⟩
    · exact forall_mem_cons.mpr ⟨by simp, h.nonempty⟩
    · exact forall_mem_cons.mpr ⟨hf.run, h.run⟩
    · intro x hx
      rcases mem_append.mp hx with hx | hx
      · rcases mem_cons.mp hx with rfl | hx
        · exact hself
        · exact hf.known x hx
      · exact h.known x hx
    · rw [flatten_cons, map_append, nodup_append']
      refine ⟨hblock, h.nodup, fun a ha ha' => ?_⟩
      obtain ⟨x, hx, rfl⟩ := mem_map.mp ha'
      exact h.fresh x hx ((hin _).mp (.inl ha))
    · intro x hx hm
      rcases mem_append.mp hx with hx | hx
      · rcases mem_cons.mp hx with rfl | hx
        · exact hused hm
        · exact hf.fresh x hx (TagSet.mem_insert.mpr (.inr hm))
      · exact h.fresh x hx ((hin _).mp (.inr hm))
    intro a ha
    rw [flatten_cons, map_append, mem_append]
    rcases mem_cons.mp ha with rfl | ha
    · exact .inr (.inl (by simp))
    rcases h.all a ha with ha | ha
    · exact ((hin a).mpr ha).elim (fun h => .inr (.inl h)) .inl
    · exact .inr (.inr ha)

theorem makeRunBlocksFromSortedIDs_partition (nodes : TagMap (Node Rune)) :
    Partition nodes (makeRunBlocksFromSortedIDs nodes.keys nodes) := by
  have h : Blocks nodes nodes.keys ∅ (makeRunBlocksFromSortedIDs nodes.keys nodes) :=
    runBlocksOfIDs_spec (fun id hid => Std.ExtTreeMap.mem_keys.mp hid) ∅
  refine ⟨h.nonempty, h.run, ?_⟩
  refine (perm_ext_iff_of_nodup (List.Nodup.of_map _ h.nodup) ?_).mpr fun x => ?_
  · exact List.Nodup.of_map RunNode.id (nodup_sortedItems nodes)
  rw [mem_sortedItems]
  refine ⟨h.known x, fun hx => ?_⟩
  have hid : x.id ∈ nodes.keys := Std.ExtTreeMap.mem_keys.mpr (mem_iff.mpr ⟨_, hx⟩)
  obtain ⟨y, hy, he⟩ := mem_map.mp ((h.all _ hid).resolve_left (by simp))
  have hy' := h.known y hy
  rw [he, hx] at hy'
  cases x
  cases y
  dsimp only at he hy'
  rw [← he, Option.some.inj hy']
  exact hy

/-! ### From a sorted slice -/

theorem index_unique {i j : Nat} (hi : (sortedItems nodes)[i]? = some x)
    (hj : (sortedItems nodes)[j]? = some y) (hid : x.id = y.id) : i = j := by
  have hnodup := nodup_sortedItems nodes
  have hlt : i < ((sortedItems nodes).map RunNode.id).length := by
    rw [length_map]
    exact (List.getElem?_eq_some_iff.mp hi).1
  refine (getElem?_inj hlt hnodup).mp ?_
  rw [getElem?_map, getElem?_map, hi, hj, Option.map_some, Option.map_some, hid]

/-- A slice that holds by index what `f` says by identifier. -/
structure Column {α : Type} (nodes : TagMap (Node Rune)) (f : Position → α) (column : List α) : Prop where
  length : column.length = (sortedItems nodes).length
  get : ∀ (i : Nat) (x : RunNode), (sortedItems nodes)[i]? = some x → column[i]? = some (f x.id)

namespace Column

variable {α : Type} {f g : Position → α} {column : List α}

theorem congr (h : Column nodes f column) (hfg : ∀ id, f id = g id) : Column nodes g column := by
  obtain rfl : f = g := funext hfg
  exact h

theorem replicate (nodes : TagMap (Node Rune)) (a : α) :
    Column nodes (fun _ => a) (List.replicate (sortedItems nodes).length a) := by
  refine ⟨length_replicate, fun i x hi => ?_⟩
  rw [getElem?_replicate, if_pos (List.getElem?_eq_some_iff.mp hi).1]

variable (h : Column nodes f column) {i : Nat} (hi : (sortedItems nodes)[i]? = some x) (a : α)
include h hi

theorem set : Column nodes (fun id => if x.id = id then a else f id) (column.set i a) := by
  refine ⟨by rw [List.length_set, h.length], fun j y hj => ?_⟩
  rw [getElem?_set]
  by_cases hij : i = j
  · subst hij
    obtain rfl := Option.some.inj (hi.symm.trans hj)
    rw [if_pos rfl, if_pos (h.length ▸ (List.getElem?_eq_some_iff.mp hi).1), if_pos rfl]
  · rw [if_neg hij, if_neg fun he => hij (index_unique hi hj he), h.get j y hj]

theorem getD : column.getD i a = f x.id := by
  rw [getD_eq_getElem?_getD, h.get i x hi]
  rfl

end Column

/-- The positions and the indexes that are used. -/
abbrev SameUsed (nodes : TagMap (Node Rune)) (used : TagSet) (marks : List Bool) : Prop :=
  Column nodes used.contains marks

theorem SameUsed.mark (h : SameUsed nodes used marks) {i : Nat}
    (hi : (sortedItems nodes)[i]? = some x) : SameUsed nodes (used.insert x.id) (marks.set i true) := by
  refine (h.set hi true).congr fun id => ?_
  split_ifs with he
  · simp [he]
  · simp [he]

theorem childrenOf_ids (parent : Position) (replicaID : List UInt8) :
    childrenOf (items.map fun x => (x, x.id)) parent replicaID =
      (childrenOf items.zipIdx parent replicaID).map fun i => (items[i]?.map RunNode.id).getD .zero := by
  rw [← childrenOf_map]
  congr 1
  refine ext_getElem (by simp) fun i hi hi' => ?_
  simp only [length_map] at hi
  simp [hi]

theorem runChild_index :
    runChild ((sortedItems nodes).map fun x => (x, x.id)) parent replicaID = some (next, 1) ↔
      ∃ i y, (sortedItems nodes)[i]? = some y ∧ y.id = next ∧
        runChild (sortedItems nodes).zipIdx parent replicaID = some (i, 1) := by
  simp only [runChild_eq_one_iff, childrenOf_ids]
  constructor
  · intro h
    obtain ⟨i, hi, hid⟩ := map_eq_singleton_iff.mp h
    obtain ⟨y, hy, -⟩ := mem_childrenOf (hi ▸ mem_singleton_self i)
    have hy := mk_mem_zipIdx_iff_getElem?.mp hy
    refine ⟨i, y, hy, ?_, hi⟩
    rw [← hid, hy]
    rfl
  rintro ⟨i, y, hy, rfl, hi⟩
  rw [hi, map_singleton, hy]
  rfl

section Follow
variable {replicaID : List UInt8} {used : TagSet} {marks : List Bool} {current next : Position}
  {n i : Nat}

theorem followIDs_stop (h : ∀ next, runChild ((sortedItems nodes).map fun x => (x, x.id)) current replicaID ≠
    some (next, 1)) : followIDs nodes replicaID n used current = ([], used) := by
  cases n with
  | zero => rfl
  | succ n =>
    rw [followIDs]
    split
    · rename_i next hnext
      exact absurd hnext (h next)
    · rfl

section
variable (h : runChild ((sortedItems nodes).map fun x => (x, x.id)) current replicaID = some (next, 1))
include h

theorem followIDs_next (hused : next ∉ used) : followIDs nodes replicaID (n + 1) used current =
      (⟨next, nodeAt nodes next⟩ :: (followIDs nodes replicaID n (used.insert next) next).1,
        (followIDs nodes replicaID n (used.insert next) next).2) := by
  rw [followIDs, h]
  exact if_neg (by simpa using hused)

theorem followIDs_used (hused : next ∈ used) : followIDs nodes replicaID n used current = ([], used) := by
  cases n with
  | zero => rfl
  | succ n =>
    rw [followIDs, h]
    exact if_pos (by simpa using hused)

end

theorem followItems_eq (h : SameUsed nodes used marks) (hi : (sortedItems nodes)[i]? = some x)
    (hx : x.id ∉ used) : ∃ marks', followItems (sortedItems nodes) replicaID (n + 1) marks i =
        (x :: (followIDs nodes replicaID n (used.insert x.id) x.id).1, marks') ∧
      SameUsed nodes (followIDs nodes replicaID n (used.insert x.id) x.id).2 marks' := by
  induction n generalizing used marks i x with
  | zero =>
    refine ⟨marks.set i true, ?_, h.mark hi⟩
    rw [followItems, hi]
    dsimp only
    rw [h.getD hi, TagSet.contains_eq_false.mpr hx, if_neg Bool.false_ne_true]
    split
    · split_ifs <;> rfl
    · rfl
  | succ n ih =>
    rw [followItems, hi]
    dsimp only
    rw [h.getD hi, TagSet.contains_eq_false.mpr hx, if_neg Bool.false_ne_true]
    have hmark := h.mark hi
    split
    · rename_i j hj
      -- the only child by index is the only child by identifier
      obtain ⟨y, hy, -⟩ := mem_childrenOf (runChild_eq_one_iff.mp hj ▸ mem_singleton_self j)
      have hy := mk_mem_zipIdx_iff_getElem?.mp hy
      have hnext := runChild_index.mpr ⟨j, y, hy, rfl, hj⟩
      rw [hmark.getD hy]
      by_cases hused : y.id ∈ used.insert x.id
      · rw [if_pos (by simpa using hused), followIDs_used hnext hused]
        exact ⟨_, rfl, hmark⟩
      obtain ⟨marks', heq, hsame⟩ := ih hmark hy hused
      rw [if_neg (by simpa using hused), heq, followIDs_next hnext hused, nodeAt_of_mem (mem_of_getElem? hy)]
      exact ⟨marks', rfl, hsame⟩
    rename_i hnone
    have hstop : ∀ next, runChild ((sortedItems nodes).map fun x => (x, x.id)) x.id replicaID ≠
        some (next, 1) := fun next hnext => by
      obtain ⟨j, y, -, -, hj⟩ := runChild_index.mp hnext
      exact hnone j hj
    rw [followIDs_stop hstop]
    exact ⟨_, rfl, hmark⟩

end Follow

theorem runBlocksOfItems_eq {later : List RunNode} {k : Nat} (h : SameUsed nodes used marks)
    (hlater : ∀ i x, later[i]? = some x → (sortedItems nodes)[k + i]? = some x) :
    runBlocksOfItems (sortedItems nodes) (later.zipIdx k) marks =
      runBlocksOfIDs nodes (later.map RunNode.id) used := by
  induction later generalizing k used marks with
  | nil => rfl
  | cons x later ih =>
    have hx : (sortedItems nodes)[k]? = some x := hlater 0 x rfl
    have hrest : ∀ i x, later[i]? = some x → (sortedItems nodes)[k + 1 + i]? = some x := by
      intro i y hi
      rw [Nat.add_right_comm]
      exact hlater (i + 1) y hi
    rw [zipIdx_cons, runBlocksOfItems, map_cons, runBlocksOfIDs, h.getD hx]
    by_cases hused : x.id ∈ used
    · rw [if_pos (by simpa using hused), if_pos (by simpa using hused), ih h hrest]
    obtain ⟨marks', heq, hsame⟩ : ∃ marks',
        followItems (sortedItems nodes) x.id.replicaID (nodes.size + 1) marks k = (_, marks') ∧ _ :=
      followItems_eq h hx hused
    rw [if_neg (by simpa using hused), if_neg (by simpa using hused), length_sortedItems, heq]
    dsimp only
    rw [ih hsame hrest, nodeAt_of_mem (mem_of_getElem? hx)]

theorem runBlocksOfItems_sorted (nodes : TagMap (Node Rune)) :
    runBlocksOfItems (sortedItems nodes) (sortedItems nodes).zipIdx
      (List.replicate (sortedItems nodes).length false) = makeRunBlocksFromSortedIDs nodes.keys nodes := by
  have hnone : SameUsed nodes ∅ (List.replicate (sortedItems nodes).length false) :=
    (Column.replicate nodes false).congr fun id => Std.ExtTreeSet.contains_empty.symm
  rw [runBlocksOfItems_eq hnone fun i x hi => by rwa [Nat.zero_add], map_id_sortedItems]
  rfl

/-! ### A single run -/

/-- No chain of parents goes round. -/
def Acyclic (nodes : TagMap (Node Rune)) : Prop := ∀ id ∈ nodes, Grounded (parentOf nodes) id

/-- `b` is below `a`. -/
def Below (a b : RunNode) : Prop := b.item.parent = a.id

variable {first : RunNode} {rest : List RunNode} {before after : List RunNode}

theorem oneRun_cons : oneRun (first :: rest) = true ↔
      (∀ x ∈ rest, x.id.replicaID = first.id.replicaID) ∧ (first :: rest).IsChain Below := by
  simp only [oneRun, Bool.and_eq_true, all_eq_true, decide_eq_true_eq]
  rfl

theorem parent_ne_of_chain (h : (first :: rest).IsChain Below)
    {p : Position} (hp : p ∉ (first :: rest).map RunNode.id) : ∀ x ∈ rest, x.item.parent ≠ p := by
  induction rest generalizing first with
  | nil => simp
  | cons y rest ih =>
    obtain ⟨hy, h⟩ := isChain_cons_cons.mp h
    rw [map_cons, mem_cons, not_or] at hp
    refine forall_mem_cons.mpr ⟨?_, ih h hp.2⟩
    rw [hy]
    exact Ne.symm hp.1

theorem up_of_chain (h : (first :: rest).IsChain Below)
    (hknown : ∀ x ∈ first :: rest, x ∈ sortedItems nodes) :
    ∀ x ∈ first :: rest, Relation.ReflTransGen (fun a b => parentOf nodes a = some b) x.id first.id := by
  induction rest generalizing first with
  | nil =>
    intro x hx
    rw [mem_singleton.mp hx]
  | cons y rest ih =>
    obtain ⟨hy, h⟩ := isChain_cons_cons.mp h
    obtain ⟨hf, hknown⟩ := forall_mem_cons.mp hknown
    refine forall_mem_cons.mpr ⟨.refl, fun x hx => (ih h hknown x hx).tail ?_⟩
    exact parentOf_eq_some.mpr ⟨_, mem_sortedItems.mp (hknown y mem_cons_self), hy⟩

theorem first_parent_unknown (hac : Acyclic nodes)
    (hitems : sortedItems nodes = first :: rest) (h : (first :: rest).IsChain Below) :
    first.item.parent ∉ (sortedItems nodes).map RunNode.id := by
  intro hm
  obtain ⟨x, hx, hp⟩ := mem_map.mp hm
  have hup := up_of_chain h (fun x hx => hitems ▸ hx) x (hitems ▸ hx)
  have hfirst : nodes[first.id]? = some first.item := mem_sortedItems.mp (hitems ▸ mem_cons_self)
  have hparent : parentOf nodes first.id = some x.id := parentOf_eq_some.mpr ⟨_, hfirst, hp.symm⟩
  exact (hac _ (mem_of_parentOf hparent)).not_on_cycle (.head' hparent hup)

theorem replicaID_of_oneRun
    (hrun : oneRun (before ++ x :: y :: after) = true) : y.id.replicaID = x.id.replicaID := by
  cases before with
  | nil => exact (oneRun_cons.mp hrun).1 y mem_cons_self
  | cons z before => rw [(oneRun_cons.mp hrun).1 y (by simp), (oneRun_cons.mp hrun).1 x (by simp)]

theorem filter_below (h : (before ++ x :: after).IsChain Below) (hnodup : ((before ++ x :: after).map RunNode.id).Nodup) :
    (before ++ x :: after).tail.filter (·.item.parent = x.id) = after.take 1 := by
  induction before with
  | nil =>
    cases after with
    | nil => rfl
    | cons y after =>
      obtain ⟨hy, h⟩ := isChain_cons_cons.mp h
      have hrest := parent_ne_of_chain h (nodup_cons.mp hnodup).1
      rw [nil_append, tail_cons, filter_cons_of_pos (by simpa [Below] using hy), filter_eq_nil_iff.mpr]
      · rfl
      · simpa using hrest
  | cons z before ih =>
    rw [cons_append, map_cons, nodup_cons] at hnodup
    have hrest := ih h.tail hnodup.2
    rw [cons_append, tail_cons]
    obtain ⟨w, rest, hw⟩ : ∃ w rest, before ++ x :: after = w :: rest := exists_cons_of_ne_nil (by simp)
    rw [cons_append, hw] at h
    have hne : w.item.parent ≠ x.id := fun he => hnodup.1 ((isChain_cons_cons.mp h).1.symm.trans he ▸ by simp)
    rw [hw] at hrest ⊢
    rwa [filter_cons_of_neg (by simpa using hne)]

section Single
variable {before after : List RunNode} {used : TagSet} {n : Nat} (hac : Acyclic nodes)
  (hrun : oneRun (sortedItems nodes) = true)
include hac hrun

variable (hitems : sortedItems nodes = before ++ x :: after)
include hitems

theorem childrenOf_sorted : childrenOf ((sortedItems nodes).map fun y => (y, y.id)) x.id x.id.replicaID =
      (after.map RunNode.id).take 1 := by
  obtain ⟨first, rest, hfirst⟩ := exists_cons_of_ne_nil (show sortedItems nodes ≠ [] by simp [hitems])
  obtain ⟨hreplica, hchain⟩ := oneRun_cons.mp (hfirst ▸ hrun)
  have hhead : first.item.parent ≠ x.id := fun he => by
    refine first_parent_unknown hac hfirst hchain (he ▸ mem_map_of_mem ?_)
    simp [hitems]
  have hrest : rest.filter (·.item.parent = x.id) = after.take 1 := by
    rw [← hfirst, hitems] at hchain
    rw [← filter_below hchain (hitems ▸ nodup_sortedItems nodes), ← hitems, hfirst, tail_cons]
  have hx : x.id.replicaID = first.id.replicaID := by
    have : x ∈ first :: rest := by simp [← hfirst, hitems]
    rcases mem_cons.mp this with rfl | hx
    · rfl
    · exact hreplica x hx
  have hsame : ∀ y ∈ rest, decide (y.item.parent = x.id ∧ y.id.replicaID = x.id.replicaID) =
      decide (y.item.parent = x.id) := fun y hy => by simp [hreplica y hy, hx]
  simp only [childrenOf, filter_map, map_map, hfirst]
  rw [← map_take, ← hrest, ← filter_congr hsame]
  exact congrArg _ (filter_cons_of_neg (by simp [hhead]))

theorem followIDs_run (hn : after.length ≤ n) (hfresh : ∀ y ∈ after, y.id ∉ used) :
    (followIDs nodes x.id.replicaID n used x.id).1 = after := by
  have hchildren := childrenOf_sorted hac hrun hitems
  induction after generalizing before x n used with
  | nil =>
    have hstop : ∀ next, runChild ((sortedItems nodes).map fun x => (x, x.id)) x.id x.id.replicaID ≠
        some (next, 1) := fun next hnext => by
      rw [runChild_eq_one_iff, hchildren] at hnext
      simp at hnext
    rw [followIDs_stop hstop]
  | cons y after ih =>
    obtain ⟨n, rfl⟩ : ∃ m, n = m + 1 := ⟨n - 1, by rw [length_cons] at hn; omega⟩
    obtain ⟨hy, hfresh⟩ := forall_mem_cons.mp hfresh
    have hnext : runChild ((sortedItems nodes).map fun x => (x, x.id)) x.id x.id.replicaID =
        some (y.id, 1) := runChild_eq_one_iff.mpr hchildren
    have hitems' : sortedItems nodes = (before ++ [x]) ++ y :: after := by rw [hitems]; simp
    have hne : ∀ z ∈ after, z.id ∉ used.insert y.id := by
      have hnodup := nodup_sortedItems nodes
      rw [hitems', map_append, nodup_append', map_cons, nodup_cons] at hnodup
      intro z hz hm
      rcases TagSet.mem_insert.mp hm with he | hm
      · exact hnodup.2.1.1 (he ▸ mem_map_of_mem hz)
      · exact hfresh z hz hm
    have hrest := ih hitems' (by simpa using hn) hne (childrenOf_sorted hac hrun hitems')
    rw [replicaID_of_oneRun (hitems ▸ hrun)] at hrest
    rw [followIDs_next hnext hy, hrest, nodeAt_of_mem (by simp [hitems])]

end Single

theorem runBlocksOfIDs_used (h : ∀ id ∈ ids, id ∈ used) : runBlocksOfIDs nodes ids used = [] := by
  induction ids with
  | nil => rfl
  | cons id ids ih =>
    obtain ⟨hid, h⟩ := forall_mem_cons.mp h
    rw [runBlocksOfIDs, if_pos (by simpa using hid), ih h]

theorem makeRunBlocksFromSortedIDs_run (hac : Acyclic nodes) (hrun : oneRun (sortedItems nodes) = true)
    (hne : sortedItems nodes ≠ []) : makeRunBlocksFromSortedIDs nodes.keys nodes = [sortedItems nodes] := by
  obtain ⟨first, rest, hitems⟩ := exists_cons_of_ne_nil hne
  have hids : nodes.keys = first.id :: rest.map RunNode.id := by
    rw [← map_id_sortedItems, hitems, map_cons]
  have hnodup := nodup_keys nodes
  rw [hids, nodup_cons] at hnodup
  have hfollow : (followIDs nodes first.id.replicaID nodes.size ((∅ : TagSet).insert first.id) first.id).1 = rest := by
    refine followIDs_run hac hrun (hitems.trans (nil_append _).symm) ?_ ?_
    · rw [← length_sortedItems, hitems, length_cons]
      omega
    intro y hy hm
    have he := (TagSet.mem_insert.mp hm).resolve_right (by simp)
    exact hnodup.1 (he ▸ mem_map_of_mem hy)
  have hused := (followIDs_spec nodes first.id nodes.size ((∅ : TagSet).insert first.id)).used
  rw [makeRunBlocksFromSortedIDs, hids, runBlocksOfIDs, if_neg (by simp)]
  dsimp only
  rw [runBlocksOfIDs_used]
  · rw [hfollow, nodeAt_of_mem (hitems ▸ mem_cons_self), hitems]
  intro id hid
  rw [hused, hfollow]
  exact .inr hid

/-! ### All ways give the same blocks -/

theorem singleRunBlock_eq (nodes : TagMap (Node Rune)) :
    singleRunBlock nodes.keys nodes = if oneRun (sortedItems nodes) then some (sortedItems nodes) else none :=
  rfl

theorem makeRunBlocks_cases (nodes : TagMap (Node Rune)) :
    makeRunBlocks nodes = if (sortedItems nodes).length = 0 then [] else
      if oneRun (sortedItems nodes) then [sortedItems nodes] else
      makeRunBlocksFromSortedIDs nodes.keys nodes := by
  unfold makeRunBlocks makeRunBlocksWithCanonicalIDs
  dsimp only
  rw [singleRunBlock_eq, length_sortedItems, ← Std.ExtTreeMap.length_keys]
  split_ifs <;> rfl

theorem makeRunBlocks_eq (hac : Acyclic nodes) :
    makeRunBlocks nodes = makeRunBlocksFromSortedIDs nodes.keys nodes := by
  rw [makeRunBlocks_cases]
  split_ifs with hempty hrun
  · rw [← map_id_sortedItems, length_eq_zero_iff.mp hempty]
    rfl
  · exact (makeRunBlocksFromSortedIDs_run hac hrun (mt length_eq_zero_iff.mpr hempty)).symm
  · rfl

theorem makeRunBlocksFromSortedItems_eq (nodes : TagMap (Node Rune)) :
    makeRunBlocksFromSortedItems (sortedItems nodes) = makeRunBlocks nodes := by
  rw [makeRunBlocks_cases, makeRunBlocksFromSortedItems, runBlocksOfItems_sorted]

theorem makeRunBlocks_partition (hac : Acyclic nodes) : Partition nodes (makeRunBlocks nodes) := by
  rw [makeRunBlocks_eq hac]
  exact makeRunBlocksFromSortedIDs_partition nodes

end Crdt.Text
