import Crdt.Text.Apply
import Crdt.Text.RunBlocks
import Crdt.Wire.Fields

/-! Formats that write runs.

The run format and the packed format both write the canonical run blocks one after the other, then
the tombstones. They differ in how a block is written and read, and that is what a `BlockFormat` is:
the encoder and the decoder around the blocks are the same code twice, and are written here once.
The decoder accepts only what the encoder would write for what it has read.

If every block is read back as it was written (`BlockFormat.Lawful`), so is every acyclic delta. -/
namespace Crdt.Text

open Rga Wire Checked Reader MapLoop List Payload
open Wire.Payload (readUvarint readBytes readTag require)

/-- An error of the package, or one of the frame. -/
inductive WireErr
  | text (err : Err)
  | frame (err : Wire.Err)
deriving DecidableEq, Repr

/-! ### Fields of a run -/

def encodeRunScalar (value : Rune) : Option UInt64 :=
  if value < 0 || !validRune value then none else some (UInt64.ofNat value.toNat)

def decodeRunScalar (value : UInt64) : Option Rune :=
  if value.toNat > 0x10FFFF then none else
  if validRune value.toNat then some value.toNat else none

/-- The flag of a parent, and the parent. -/
def appendParent (parent : Position) : List UInt8 :=
  if parent.valid then Uvarint.put 1 ++ appendTag parent else Uvarint.put 0

def appendRunNode (x : RunNode) : Except Wire.Err (List UInt8) :=
  match encodeRunScalar x.item.value with
  | none => .error .invalidFrame
  | some scalar => .ok (appendTag x.id ++ appendParent x.item.parent ++ Uvarint.put scalar)

/-- A node of a chain, whose replica and parent are known. -/
def appendRunItem (x : RunNode) : Except Wire.Err (List UInt8) :=
  match encodeRunScalar x.item.value with
  | none => .error .invalidFrame
  | some scalar => .ok (Uvarint.put x.id.wallTime ++ Uvarint.put x.id.logical ++ Uvarint.put scalar)

def readParent (n : IntSize) (limits : Limits) : PayloadReader Position := do
  let parentFlag ← readUvarint
  require (parentFlag ≤ 1)
  if parentFlag = 1 then readTag n limits.maxStringBytes else return .zero

def readRunNode (n : IntSize) (limits : Limits) : PayloadReader RunNode := do
  let id ← readTag n limits.maxStringBytes
  let parent ← readParent n limits
  let runeValue ← readUvarint
  let scalar ← step (ofOption (decodeRunScalar runeValue) .invalidFrame)
  return ⟨id, ⟨parent, scalar⟩⟩

/-- The length of a chain, its replica, and the parent of its first node. -/
def readRunChainHeader (n : IntSize) (limits : Limits) (existingNodes : Nat) :
    PayloadReader (UInt64 × List UInt8 × Position) := do
  let count ← readUvarint
  let remainingNodes := limits.maxElements - existingNodes
  require (2 ≤ count.toNat && 0 ≤ remainingNodes && count.toNat ≤ remainingNodes)
  let replicaID ← readBytes n limits.maxStringBytes
  require (Tag.valid ⟨replicaID, 0, 0⟩)
  let parent ← readParent n limits
  return (count, replicaID, parent)

/-- A node that is not there yet. -/
def addNode (nodes : TagMap (Node Rune)) (x : RunNode) : PayloadReader (TagMap (Node Rune)) := do
  require (!nodes.contains x.id)
  return nodes.insert x.id x.item

/-- The next node of a chain, below the one before. -/
def readRunItem (replicaID : List UInt8) (s : TagMap (Node Rune) × Position) :
    PayloadReader (TagMap (Node Rune) × Position) := do
  let wallTime ← readUvarint
  let logical ← readUvarint
  let runeValue ← readUvarint
  let scalar ← step (ofOption (decodeRunScalar runeValue) .invalidFrame)
  let id : Position := ⟨replicaID, wallTime, logical⟩
  let nodes ← addNode s.1 ⟨id, ⟨s.2, scalar⟩⟩
  return (nodes, id)

def addWireTagSize (limits : Limits) (payloadSize : Int) (tag : Position) : Checked Wire.Err Int := do
  check (tag.replicaID.length ≤ limits.maxStringBytes) .frameLimit
  let additional := tagSize tag
  check (additional ≤ limits.maxPayload - payloadSize) .frameLimit
  return payloadSize + additional

/-! ### Formats -/

/-- The nodes read so far, and whether they are all one chain below a parent. -/
structure Decoded where
  nodes : TagMap (Node Rune) := ∅
  singleChain : Bool
  singleChainParent : Position := .zero

structure BlockFormat (β : Type) where
  stateType : UInt64
  /-- The form in which each of the canonical blocks is written. -/
  makeBlocks : IntSize → List (List RunNode) → Checked Wire.Err (List β)
  nodes : β → List RunNode
  /-- The size of a payload with one more block. -/
  size : Limits → Int → β → Checked Wire.Err Int
  write : β → Except Wire.Err (List UInt8)
  read : IntSize → Limits → Decoded → PayloadReader Decoded

def hasCompleteParents (nodes : TagMap (Node Rune)) : Bool :=
  nodes.toList.all fun (_, item) => !item.parent.valid || nodes.contains item.parent

/-- As many nodes and tombstones as the limits allow. -/
def withinCounts (limits : Limits) (nodes tombstones : Nat) : Bool :=
  nodes ≤ limits.maxElements && nodes ≤ limits.maxTags && tombstones ≤ limits.maxTags - nodes

def singleDecodedRunChainAcyclic (nodes : TagMap (Node Rune)) (firstParent : Position) : Bool :=
  !firstParent.valid || !nodes.contains firstParent

def readTombstone (n : IntSize) (limits : Limits) (tombstones : TagSet) : PayloadReader TagSet := do
  let id ← readTag n limits.maxStringBytes
  require (!tombstones.contains id)
  return tombstones.insert id

namespace BlockFormat

variable {β : Type} (fmt : BlockFormat β)

def payloadSize (blocks : List β) (tombIDs : List Position) (limits : Limits) : Checked Wire.Err Int := do
  let size ← blocks.foldlM (fmt.size limits) (Uvarint.size (lengthAsUint64 blocks.length) : Int)
  let additional : Int := Uvarint.size (lengthAsUint64 tombIDs.length)
  check (additional ≤ limits.maxPayload - size) .frameLimit
  tombIDs.foldlM (addWireTagSize limits) (size + additional)

/-- The payload, written into a buffer of the given length. -/
def writePayload (blocks : List β) (tombIDs : List Position) (length : Int) :
    Except Wire.Err (List UInt8) := do
  let written ← blocks.mapM fmt.write
  let output := Uvarint.put (lengthAsUint64 blocks.length) ++ written.flatten ++
    Uvarint.put (lengthAsUint64 tombIDs.length) ++ tombIDs.flatMap appendTag
  if output.length ≠ length then .error .invalidFrame else .ok output

def marshalBlocks (e : Env) (typeID : UInt64) (blocks : List β) (tombIDs : List Position) (limits : Limits) :
    Checked Wire.Err (List UInt8) := do
  let payloadSize ← fmt.payloadSize blocks tombIDs limits
  marshalFrameWithPayloadAndLimits e typeID [] payloadSize limits (fmt.writePayload blocks tombIDs)

def marshalPayload (blocks : List β) (tombIDs : List Position) (limits : Limits) :
    Checked Wire.Err (List UInt8) := do
  let payloadSize ← fmt.payloadSize blocks tombIDs limits
  match fmt.writePayload blocks tombIDs payloadSize with
  | .error err => .error err
  | .ok payload => return payload

def marshal (e : Env) (typeID : UInt64) (nodes : TagMap (Node Rune)) (tombstones : TagSet) (limits : Limits) :
    Checked WireErr (List UInt8) := do
  match validateDelta {nodes, tombstones} with
  | .error err => .error (.text err)
  | .ok () =>
    check (typeID ≠ fmt.stateType || hasCompleteParents nodes) (.text .incompleteState)
    check (withinCounts limits nodes.size tombstones.size) (.frame .frameLimit)
    mapError .frame do
      let blocks ← fmt.makeBlocks e.intSize (makeRunBlocks nodes)
      fmt.marshalBlocks e typeID blocks tombstones.toList limits

/-- The blocks and the tombstones of a payload. -/
def readPayload (n : IntSize) (limits : Limits) : PayloadReader (Decoded × TagSet) := do
  let blockCount ← readUvarint
  require (0 ≤ limits.maxElements && blockCount.toNat ≤ limits.maxElements)
  let decoded ← times (fmt.read n limits) blockCount.toNat {singleChain := blockCount = 1}
  let tombCount ← readUvarint
  let remainingTags := limits.maxTags - decoded.nodes.size
  require (0 ≤ remainingTags && tombCount.toNat ≤ remainingTags)
  require (uint64AsInt n tombCount).isSome
  let tombstones ← times (readTombstone n limits) tombCount.toNat ∅
  return (decoded, tombstones)

/-- The payload is the one that would be written for its contents. -/
def checkCanonical (n : IntSize) (blocks : List (List RunNode)) (tombIDs : List Position) (limits : Limits)
    (payload : List UInt8) : Checked Wire.Err Unit := do
  let blocks ← fmt.makeBlocks n blocks
  match fmt.marshalPayload blocks tombIDs limits with
  | .ok canonical => check (canonical = payload) .invalidFrame
  | .error _ => .error .invalidFrame
  | .broken => .broken

/-- The nodes with their order, and the tombstones. -/
def unmarshal (e : Env) (data : List UInt8) (expectedType : UInt64) (limits : Limits) (complete : Bool) :
    Checked Wire.Err (TagMap (Node Rune) × TagSet × List Position) := do
  let frame ← unmarshalFrame e data limits
  check (frame.typeID = expectedType && frame.codecID = []) .invalidFrame
  let (decoded, tombstones) ← run (fmt.readPayload e.intSize limits) frame.payload
  let acyclic := decoded.singleChain && singleDecodedRunChainAcyclic decoded.nodes decoded.singleChainParent ||
    acyclicAgainst decoded.nodes ∅
  check ((validateDelta {nodes := decoded.nodes, tombstones}).isOk && acyclic &&
    (!complete || hasCompleteParents decoded.nodes)) .invalidFrame
  let (blocks, ids) := makeRunBlocksWithCanonicalIDs decoded.nodes
  fmt.checkCanonical e.intSize blocks tombstones.toList limits frame.payload
  return (decoded.nodes, tombstones, ids)

end BlockFormat

/-! ### Lawful formats -/

/-- The nodes of a block are read. -/
def Decoded.add (s : Decoded) (block : List RunNode) : Decoded where
  nodes := block.foldl (fun nodes x => nodes.insert x.id x.item) s.nodes
  singleChain := s.singleChain && block.length ≠ 1
  singleChainParent :=
    if s.singleChain && block.length ≠ 1 then (block.head?.map fun x => x.item.parent).getD .zero
    else s.singleChainParent

/-- A block of new and valid nodes for which there is room. -/
structure Decoded.Takes (s : Decoded) (limits : Limits) (block : List RunNode) : Prop where
  nonempty : block ≠ []
  run : block.IsChain Continues
  valid : ∀ x ∈ block, validNode x.id x.item = true
  nodup : (block.map RunNode.id).Nodup
  fresh : ∀ x ∈ block, x.id ∉ s.nodes
  room : (s.nodes.size + block.length : Int) ≤ limits.maxElements

/-- Blocks hold the nodes they are made of, and what is written for a block is read back. -/
structure BlockFormat.Lawful {β : Type} (fmt : BlockFormat β) : Prop where
  nodes : ∀ {n bs blocks}, fmt.makeBlocks n bs = .ok blocks → blocks.map fmt.nodes = bs
  reads : ∀ {n limits bs blocks b s size size' bytes}, limits.Fit n → fmt.makeBlocks n bs = .ok blocks →
    b ∈ blocks → s.Takes limits (fmt.nodes b) → fmt.size limits size b = .ok size' →
    fmt.write b = .ok bytes → (bytes.length : Int) ≤ limits.maxPayload →
    Reads (fmt.read n limits s) bytes (s.add (fmt.nodes b))
  bounded : ∀ {n limits s}, (s.nodes.size : Int) ≤ limits.maxElements →
    Yields (fmt.read n limits s) fun s' => (s'.nodes.size : Int) ≤ limits.maxElements

section Nodes
variable {l : List RunNode} {nodes : TagMap (Node Rune)}

theorem size_foldl_insert_le (l : List RunNode) (nodes : TagMap (Node Rune)) :
    (l.foldl (fun nodes x => nodes.insert x.id x.item) nodes).size ≤ nodes.size + l.length := by
  induction l generalizing nodes with
  | nil => simp
  | cons x l ih =>
    have hle := ih (nodes.insert x.id x.item)
    have hone : (nodes.insert x.id x.item).size ≤ nodes.size + 1 := Std.ExtTreeMap.size_insert_le
    rw [foldl_cons, length_cons]
    omega

theorem mem_foldl_insert_nodes {id : Position} (l : List RunNode) (nodes : TagMap (Node Rune)) :
    id ∈ l.foldl (fun nodes x => nodes.insert x.id x.item) nodes ↔ id ∈ l.map RunNode.id ∨ id ∈ nodes := by
  induction l generalizing nodes with
  | nil => simp
  | cons x l ih =>
    rw [foldl_cons, ih, mem_insert, map_cons, mem_cons, eq_comm (a := id)]
    tauto

theorem foldl_insert_eq (h : l.Perm (sortedItems nodes)) :
    l.foldl (fun nodes x => nodes.insert x.id x.item) ∅ = nodes := by
  have hids : (l.map RunNode.id).Nodup := (h.map RunNode.id).nodup_iff.mpr (nodup_sortedItems nodes)
  refine Std.ExtTreeMap.ext_getElem? fun a => Option.ext fun item => ?_
  rw [getElem?_foldl_assign (pairwise_map.mp hids)]
  constructor
  · rintro ⟨x, hx, rfl, rfl⟩
    exact mem_sortedItems.mp (h.mem_iff.mp hx)
  · exact fun ha => ⟨⟨a, item⟩, h.mem_iff.mpr (mem_sortedItems.mpr ha), rfl, rfl⟩

theorem foldl_insert_toList (s : TagSet) : s.toList.foldl (fun s id => s.insert id) ∅ = s := by
  refine Std.ExtTreeSet.ext_mem fun a => ?_
  rw [TagSet.mem_foldl_insert]
  simp

end Nodes

/-! ### What was written is read -/

namespace BlockFormat

variable {β : Type} {fmt : BlockFormat β} {n : IntSize} {limits : Limits} {nodes : TagMap (Node Rune)}
  {tombstones : TagSet} {blocks : List β} {tombIDs : List Position} {payload : List UInt8} {size : Int}

/-- The bytes of a block. -/
def bytes (fmt : BlockFormat β) (b : β) : List UInt8 := (fmt.write b).toOption.getD []

theorem mapM_write_eq_ok {written : List (List UInt8)} (h : blocks.mapM fmt.write = .ok written) :
    (∀ b ∈ blocks, fmt.write b = .ok (fmt.bytes b)) ∧ written = blocks.map fmt.bytes := by
  have hall := Except.forall₂_of_mapM h
  clear h
  induction hall with
  | nil => exact ⟨by simp, rfl⟩
  | @cons b bytes blocks written hb _ ih =>
    obtain ⟨hrest, rfl⟩ := ih
    have hbytes : fmt.bytes b = bytes := by rw [BlockFormat.bytes, hb]; rfl
    exact ⟨forall_mem_cons.mpr ⟨by rw [hbytes, hb], hrest⟩, by rw [map_cons, hbytes]⟩

theorem writePayload_eq_ok {length : Int} (h : fmt.writePayload blocks tombIDs length = .ok payload) :
    (∀ b ∈ blocks, fmt.write b = .ok (fmt.bytes b)) ∧ length = payload.length ∧
      payload = Uvarint.put (lengthAsUint64 blocks.length) ++ (blocks.flatMap fmt.bytes ++
        (Uvarint.put (lengthAsUint64 tombIDs.length) ++ tombIDs.flatMap appendTag)) := by
  obtain ⟨written, hw, h⟩ := Except.bind_eq_ok_iff.mp h
  obtain ⟨hall, rfl⟩ := mapM_write_eq_ok hw
  dsimp only at h
  split_ifs at h with hlen
  cases h
  refine ⟨hall, (not_not.mp hlen).symm, ?_⟩
  rw [append_assoc, append_assoc, flatMap_def (f := fmt.bytes)]

/-- What is known after some blocks. -/
def afterBlocks (fmt : BlockFormat β) (s : Decoded) (l : List β) : Decoded :=
  l.foldl (fun s b => s.add (fmt.nodes b)) s

theorem nodes_afterBlocks (l : List β) (s : Decoded) : (fmt.afterBlocks s l).nodes =
    (l.map fmt.nodes).flatten.foldl (fun nodes x => nodes.insert x.id x.item) s.nodes := by
  induction l generalizing s with
  | nil => rfl
  | cons b l ih =>
    rw [afterBlocks, foldl_cons, ← afterBlocks, ih, map_cons, flatten_cons, foldl_append]
    rfl

theorem takes_of_partition (hd : ValidNodes nodes) (hp : Partition nodes (blocks.map fmt.nodes))
    (hmax : (nodes.size : Int) ≤ limits.maxElements) {s : Decoded} (hs : s.nodes = ∅) {done later : List β}
    {b : β} (hb : blocks = done ++ b :: later) : (fmt.afterBlocks s done).Takes limits (fmt.nodes b) := by
  have hmem : fmt.nodes b ∈ blocks.map fmt.nodes := mem_map_of_mem (by simp [hb])
  have hsplit : (blocks.map fmt.nodes).flatten =
      (done.map fmt.nodes).flatten ++ (fmt.nodes b ++ (later.map fmt.nodes).flatten) := by
    simp [hb]
  have hids : ((blocks.map fmt.nodes).flatten.map RunNode.id).Nodup :=
    (hp.perm.map RunNode.id).nodup_iff.mpr (nodup_sortedItems nodes)
  rw [hsplit, map_append, map_append, nodup_append'] at hids
  obtain ⟨-, hrest, hdisjoint⟩ := hids
  refine ⟨hp.nonempty _ hmem, hp.run _ hmem, fun x hx => ?_, (nodup_append'.mp hrest).1,
    fun x hx hm => ?_, ?_⟩
  · have hx : x ∈ sortedItems nodes := hp.perm.mem_iff.mp (mem_flatten.mpr ⟨_, hmem, hx⟩)
    have hvalid := hd.valid x.id x.item (mem_sortedItems.mp hx)
    simp only [validNode, Bool.and_eq_true, Bool.or_eq_true, decide_eq_true_eq]
    tauto
  · rw [nodes_afterBlocks, hs, mem_foldl_insert_nodes] at hm
    refine hdisjoint (hm.resolve_right (by simp)) ?_
    exact mem_append_left _ (mem_map_of_mem hx)
  have hle := size_foldl_insert_le (done.map fmt.nodes).flatten (∅ : TagMap (Node Rune))
  have htotal := hp.perm.length_eq
  rw [hsplit, length_sortedItems, length_append, length_append] at htotal
  rw [nodes_afterBlocks, hs]
  simp only [Std.ExtTreeMap.size_empty] at hle
  omega

theorem length_le_flatten {α : Type} {l : List (List α)} (h : ∀ x ∈ l, x ≠ []) : l.length ≤ l.flatten.length := by
  induction l with
  | nil => simp
  | cons x l ih =>
    obtain ⟨hx, h⟩ := forall_mem_cons.mp h
    have hpos := length_pos_iff.mpr hx
    have := ih h
    rw [flatten_cons, length_append, length_cons]
    omega

theorem payloadSize_eq_ok (h : fmt.payloadSize blocks tombIDs limits = .ok size) :
    (∀ b ∈ blocks, ∃ k k', fmt.size limits k b = .ok k') ∧
      ∀ id ∈ tombIDs, (id.replicaID.length : Int) ≤ limits.maxStringBytes := by
  obtain ⟨_, hblocks, h⟩ := bind_eq_ok_iff.mp h
  obtain ⟨-, htombs⟩ := check_bind_eq_ok_iff.mp h
  refine ⟨of_foldlM_eq_ok hblocks, fun id hid => ?_⟩
  obtain ⟨_, _, hadd⟩ := of_foldlM_eq_ok htombs id hid
  exact of_decide_eq_true (check_bind_eq_ok_iff.mp hadd).1

theorem reads_tombstone {s : TagSet} {id : Position} (hl : limits.Fit n) (hv : id.valid = true)
    (hlen : (id.replicaID.length : Int) ≤ limits.maxStringBytes) (hfresh : id ∉ s) :
    Reads (readTombstone n limits s) (appendTag id) (s.insert id) := by
  rw [← append_nil (appendTag id)]
  refine (reads_tag hl.maxStringBytes hlen hv).bind (require_bind ?_ Reads.pure)
  rw [TagSet.contains_eq_false.mpr hfresh, Bool.not_false]

theorem reads_tombstones (hl : limits.Fit n) (hv : ∀ id ∈ tombstones, id.valid = true)
    (hlen : ∀ id ∈ tombstones.toList, (id.replicaID.length : Int) ≤ limits.maxStringBytes) :
    Reads (times (readTombstone n limits) tombstones.toList.length ∅) (tombstones.toList.flatMap appendTag)
      tombstones := by
  have hnodup : tombstones.toList.Nodup :=
    tombstones.ordered_toList.imp fun h => ((Tag.compare_eq_lt_iff _ _).mp h).ne
  have hall : Reads (times (readTombstone n limits) tombstones.toList.length ∅)
      (tombstones.toList.flatMap appendTag) (tombstones.toList.foldl (fun s id => s.insert id) ∅) := by
    refine Reads.times (fun (s : TagSet) id => s.insert id) appendTag _ fun done id later he => ?_
    have hid : id ∈ tombstones.toList := by simp [he]
    refine reads_tombstone hl (hv id (Std.ExtTreeSet.mem_toList.mp hid)) (hlen id hid) ?_
    rw [he, nodup_append'] at hnodup
    rw [TagSet.mem_foldl_insert]
    rintro (hm | hm)
    · exact hnodup.2.2 hm mem_cons_self
    · simp at hm
  rwa [foldl_insert_toList] at hall

theorem reads_payload (hf : fmt.Lawful) (hl : limits.Fit n) {bs : List (List RunNode)}
    (hmake : fmt.makeBlocks n bs = .ok blocks) (hd : Delta.Valid {nodes, tombstones})
    (hp : Partition nodes bs) (hcounts : withinCounts limits nodes.size tombstones.size = true)
    (hsize : fmt.payloadSize blocks tombstones.toList limits = .ok size)
    (hwrite : fmt.writePayload blocks tombstones.toList size = .ok payload)
    (hmax : (payload.length : Int) ≤ limits.maxPayload) :
    ∃ decoded, Reads (fmt.readPayload n limits) payload (decoded, tombstones) ∧ decoded.nodes = nodes := by
  obtain ⟨hbytes, -, hpayload⟩ := writePayload_eq_ok hwrite
  obtain ⟨hsizes, htombs⟩ := payloadSize_eq_ok hsize
  have hmax' := n.max_lt
  have hl₂ := hl.maxTags
  simp only [withinCounts, Bool.and_eq_true, decide_eq_true_eq] at hcounts
  obtain ⟨⟨helements, htags⟩, hroom⟩ := hcounts
  rw [← hf.nodes hmake] at hp
  have hblocks : blocks.length ≤ nodes.size := by
    have := length_le_flatten hp.nonempty
    rwa [length_map, hp.perm.length_eq, length_sortedItems] at this
  have hcount : (lengthAsUint64 blocks.length).toNat = blocks.length := lengthAsUint64_toNat (by omega)
  have hlength : tombstones.toList.length = tombstones.size := Std.ExtTreeSet.length_toList
  have htombCount : (lengthAsUint64 tombstones.toList.length).toNat = tombstones.toList.length :=
    lengthAsUint64_toNat (by omega)
  set start : Decoded := {singleChain := lengthAsUint64 blocks.length = 1} with hstart
  have hnodes : (fmt.afterBlocks start blocks).nodes = nodes := by
    rw [nodes_afterBlocks]
    exact foldl_insert_eq hp.perm
  have hread : Reads (times (fmt.read n limits) blocks.length start) (blocks.flatMap fmt.bytes)
      (fmt.afterBlocks start blocks) := by
    refine Reads.times (fun (s : Decoded) b => s.add (fmt.nodes b)) fmt.bytes blocks fun done b later he => ?_
    have hb : b ∈ blocks := by simp [he]
    obtain ⟨k, k', hk⟩ := hsizes b hb
    refine hf.reads hl hmake hb (takes_of_partition hd.nodes hp helements rfl he) hk (hbytes b hb) ?_
    have hpart : (fmt.bytes b).length ≤ payload.length := by
      rw [hpayload, he]
      simp only [flatMap_append, flatMap_cons, length_append]
      omega
    omega
  refine ⟨fmt.afterBlocks start blocks, ?_, hnodes⟩
  rw [hpayload]
  refine (reads_uvarint _).bind (require_bind ?_ ?_)
  · simp only [Bool.and_eq_true, decide_eq_true_eq, hcount]
    omega
  rw [hcount]
  refine hread.bind ((reads_uvarint _).bind (require_bind ?_ (require_bind ?_ ?_)))
  · simp only [Bool.and_eq_true, decide_eq_true_eq, htombCount, hnodes]
    omega
  · rw [uint64AsInt_eq, htombCount, if_pos (by omega)]
    rfl
  · rw [htombCount, ← append_nil (tombstones.toList.flatMap appendTag)]
    exact (reads_tombstones hl hd.tombstones htombs).bind Reads.pure

theorem acyclicAgainst_iff (hd : ValidNodes nodes) : acyclicAgainst nodes ∅ = true ↔ Acyclic nodes := by
  have hvalid : ∀ x ∈ nodes, x.valid = true := fun x hx => by
    obtain ⟨item, hitem⟩ := mem_iff.mp hx
    exact (hd.valid x item hitem).1
  rw [acyclicAgainst_spec hvalid (by simp)]
  have hparent : (fun x => (nodes[x]?.or (∅ : TagMap (Node Rune))[x]?).map Node.parent) = parentOf nodes := by
    funext x
    simp [parentOf]
  rw [hparent]
  rfl

theorem makeRunBlocksWithCanonicalIDs_snd (nodes : TagMap (Node Rune)) :
    makeRunBlocksWithCanonicalIDs nodes = (makeRunBlocks nodes, nodes.keys) := by
  unfold makeRunBlocks makeRunBlocksWithCanonicalIDs
  dsimp only
  split_ifs
  · rfl
  · cases singleRunBlock nodes.keys nodes <;> rfl

variable {e : Env} {typeID : UInt64} {data : List UInt8} {complete : Bool} {ids : List Position}

theorem unmarshal_of_marshalBlocks (hf : fmt.Lawful) (hl : limits.Fit e.intSize)
    (hd : Delta.Valid {nodes, tombstones}) (hac : Acyclic nodes)
    (hcounts : withinCounts limits nodes.size tombstones.size = true)
    (hcomplete : complete = true → hasCompleteParents nodes = true)
    (hmake : fmt.makeBlocks e.intSize (makeRunBlocks nodes) = .ok blocks)
    (h : fmt.marshalBlocks e typeID blocks tombstones.toList limits = .ok data) :
    fmt.unmarshal e data typeID limits complete = .ok (nodes, tombstones, nodes.keys) := by
  obtain ⟨size, hsize, hframe⟩ := bind_eq_ok_iff.mp h
  obtain ⟨payload, hwrite, hmax⟩ := payload_of_marshalFrame hframe
  obtain ⟨-, rfl, -⟩ := writePayload_eq_ok hwrite
  have hdata := unmarshalFrame_of_marshalFrame hl hwrite hframe
  obtain ⟨decoded, hread, hnodes⟩ := reads_payload hf hl hmake hd (makeRunBlocks_partition hac) hcounts hsize
    hwrite hmax
  have hvalid : validateDelta {nodes, tombstones} = .ok () := validateDelta_eq_ok.mpr hd
  have hacyclic : acyclicAgainst nodes ∅ = true := (acyclicAgainst_iff hd.nodes).mpr hac
  have hcanonical : fmt.checkCanonical e.intSize (makeRunBlocks nodes) tombstones.toList limits payload = .ok () := by
    unfold checkCanonical marshalPayload
    rw [hmake, ok_bind, hsize, ok_bind, hwrite]
    simp
  have hall : (!complete || hasCompleteParents nodes) = true := by
    cases complete with
    | false => rfl
    | true => simpa using hcomplete rfl
  unfold unmarshal
  rw [hdata, ok_bind, run_eq_ok hread]
  simp only [decide_true, Bool.and_self, check_true, ok_bind, hnodes, hvalid, hacyclic, Bool.or_true, hall,
    Except.isOk, Except.toBool, makeRunBlocksWithCanonicalIDs_snd, hcanonical, pure_eq]

theorem valid_of_marshal (h : fmt.marshal e typeID nodes tombstones limits = .ok data) :
    Delta.Valid {nodes, tombstones} := by
  unfold marshal at h
  rcases validateDelta_cases {nodes, tombstones} with ⟨-, hd⟩ | herr
  · exact hd
  · rw [herr] at h
    cases h

theorem unmarshal_of_marshal (hf : fmt.Lawful) (hl : limits.Fit e.intSize)
    (hac : acyclicAgainst nodes ∅ = true) (hcomplete : complete = true → typeID = fmt.stateType)
    (h : fmt.marshal e typeID nodes tombstones limits = .ok data) :
    fmt.unmarshal e data typeID limits complete = .ok (nodes, tombstones, nodes.keys) := by
  unfold marshal at h
  rcases validateDelta_cases {nodes, tombstones} with ⟨hok, hd⟩ | herr
  · rw [hok] at h
    obtain ⟨hparents, h⟩ := check_bind_eq_ok_iff.mp h
    obtain ⟨hcounts, h⟩ := check_bind_eq_ok_iff.mp h
    obtain ⟨blocks, hmake, h⟩ := bind_eq_ok_iff.mp (mapError_eq_ok_iff.mp h)
    refine unmarshal_of_marshalBlocks hf hl hd ((acyclicAgainst_iff hd.nodes).mp hac) hcounts (fun hc => ?_)
      hmake h
    simpa [hcomplete hc] using hparents
  · rw [herr] at h
    cases h

/-! ### What is read was written -/

theorem Lawful.yields_readPayload (hf : fmt.Lawful) :
    Yields (fmt.readPayload n limits) fun p => withinCounts limits p.1.nodes.size p.2.size = true := by
  refine Yields.any.bind fun blockCount _ => Yields.check_bind fun hcount => ?_
  simp only [Bool.and_eq_true] at hcount
  have hblocks : Yields (times (fmt.read n limits) blockCount.toNat {singleChain := blockCount = 1})
      fun s => (s.nodes.size : Int) ≤ limits.maxElements := by
    refine Yields.times (I := fun _ (s : Decoded) => (s.nodes.size : Int) ≤ limits.maxElements)
      (fun _ s hs => ?_) _ ?_
    · exact hf.bounded hs
    · simpa using hcount.1
  refine hblocks.bind fun decoded hdecoded => Yields.any.bind fun tombCount _ => ?_
  refine Yields.check_bind fun hroom => Yields.check_bind fun _ => ?_
  simp only [Bool.and_eq_true, decide_eq_true_eq] at hroom
  have htombs : Yields (times (readTombstone n limits) tombCount.toNat ∅) fun s => s.size ≤ tombCount.toNat := by
    refine Yields.times (I := fun k (s : TagSet) => s.size + k ≤ tombCount.toNat) (fun k s hs => ?_) _ (by simp)
    refine Yields.any.bind fun id _ => Yields.check_bind fun _ => Yields.pure ?_
    have hone : (s.insert id).size ≤ s.size + 1 := Std.ExtTreeSet.size_insert_le
    omega
  refine htombs.bind fun tombstones htombs => Yields.pure ?_
  simp only [withinCounts, Bool.and_eq_true, decide_eq_true_eq]
  omega

theorem marshal_of_unmarshal (hf : fmt.Lawful) (hl : limits.Fit e.intSize) {f : Frame}
    (hframe : unmarshalFrame e data limits = .ok f) (hversion : f.version = formatVersion)
    (hcomplete : typeID = fmt.stateType → complete = true)
    (h : fmt.unmarshal e data typeID limits complete = .ok (nodes, tombstones, ids)) :
    fmt.marshal e typeID nodes tombstones limits = .ok data := by
  unfold unmarshal at h
  rw [hframe] at h
  obtain ⟨htype, h⟩ := check_bind_eq_ok_iff.mp h
  obtain ⟨⟨decoded, tombs⟩, hrun, h⟩ := bind_eq_ok_iff.mp h
  obtain ⟨hchecks, h⟩ := check_bind_eq_ok_iff.mp h
  rw [makeRunBlocksWithCanonicalIDs_snd] at h
  obtain ⟨_, hcanonical, h⟩ := bind_eq_ok_iff.mp h
  cases h
  have hcounts := yields_of_run hf.yields_readPayload hrun
  simp only [Bool.and_eq_true, decide_eq_true_eq] at htype hchecks hcounts
  obtain ⟨rfl, hcodec⟩ := htype
  obtain ⟨⟨hvalid, -⟩, hparents⟩ := hchecks
  obtain ⟨blocks, hmake, hcanonical⟩ := bind_eq_ok_iff.mp hcanonical
  -- the payload is what is written for the contents, so the frame is the one around it
  have hpayload : fmt.marshalPayload blocks tombstones.toList limits = .ok f.payload := by
    cases hp : fmt.marshalPayload blocks tombstones.toList limits with
    | error err => rw [hp] at hcanonical; cases hcanonical
    | broken => rw [hp] at hcanonical; cases hcanonical
    | ok canonical =>
      rw [hp] at hcanonical
      have : canonical = f.payload := by simpa using hcanonical
      rw [this]
  obtain ⟨size, hsize, hwritten⟩ := bind_eq_ok_iff.mp hpayload
  have hwrite : fmt.writePayload blocks tombstones.toList size = .ok f.payload := by
    cases hw : fmt.writePayload blocks tombstones.toList size with
    | error err => rw [hw] at hwritten; cases hwritten
    | ok payload => rw [hw] at hwritten; cases hwritten; rfl
  obtain ⟨-, rfl, -⟩ := writePayload_eq_ok hwrite
  have hmarshal := marshalFrame_of_unmarshalFrame hl hframe hversion hwrite
  have hok : validateDelta {nodes := decoded.nodes, tombstones} = .ok () := by
    rcases validateDelta_cases {nodes := decoded.nodes, tombstones} with ⟨hok, -⟩ | herr
    · exact hok
    · rw [herr] at hvalid
      cases hvalid
  have hcheck : (decide (f.typeID ≠ fmt.stateType) || hasCompleteParents decoded.nodes) = true := by
    by_cases ht : f.typeID = fmt.stateType
    · rw [hcomplete ht] at hparents
      simpa [ht] using hparents
    · simp [ht]
  unfold marshal
  rw [hok]
  rw [hcheck, hcounts, hmake]
  simp only [ok_bind, marshalBlocks, hsize, ← hcodec, hmarshal]
  rfl

end BlockFormat

end Crdt.Text
