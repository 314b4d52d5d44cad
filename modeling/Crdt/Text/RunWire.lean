import Crdt.Text.RunFormat

/-! The run format.

A block of one node is a node with its parent; a longer one is a chain that names its replica and the
parent of its first node once. `runFormat_lawful`: what is written for a block is read back. -/
namespace Crdt.Text

open Rga Wire Checked Reader List Payload
open Wire.Payload (readUvarint readBytes readTag require)

def typeIDRGARunState : UInt64 := 19

def typeIDRGARunDelta : UInt64 := 20

def runBlockNode : UInt64 := 0

def runBlockChain : UInt64 := 1

/-! ### Blocks on the wire -/

/-- What the parent of a node adds to its flag. -/
def parentSize (limits : Limits) (parent : Position) : Checked Wire.Err Int :=
  if parent.valid then do
    check (parent.replicaID.length ≤ limits.maxStringBytes) .frameLimit
    return tagSize parent
  else return 0

def addRunItemSize (additional : Int) (x : RunNode) : Checked Wire.Err Int := do
  let scalar ← ofOption (encodeRunScalar x.item.value) .invalidFrame
  return additional + (Uvarint.size x.id.wallTime + Uvarint.size x.id.logical + Uvarint.size scalar)

/-- One round of `runPayloadSizeWithTombstoneIDs`. -/
def runBlockSize (limits : Limits) (size : Int) : List RunNode → Checked Wire.Err Int
  | [] => .broken
  | [x] => do
    let scalar ← ofOption (encodeRunScalar x.item.value) .invalidFrame
    let size ← addWireTagSize limits size x.id
    let additional := Uvarint.size scalar + 1 + (← parentSize limits x.item.parent)
    check (additional ≤ limits.maxPayload - size - 1) .frameLimit
    return size + (1 + additional)
  | first :: rest => do
    check (first.id.replicaID.length ≤ limits.maxStringBytes) .frameLimit
    let additional := Uvarint.size (lengthAsUint64 (first :: rest).length) +
      Uvarint.size (lengthAsUint64 first.id.replicaID.length) + first.id.replicaID.length + 1 +
      (← parentSize limits first.item.parent)
    let additional ← (first :: rest).foldlM addRunItemSize additional
    check (additional ≤ limits.maxPayload - size - 1) .frameLimit
    return size + (1 + additional)

/-- The length, the replica and the first parent of a chain. -/
def appendChainHeader (first : RunNode) (length : Nat) : List UInt8 :=
  Uvarint.put (lengthAsUint64 length) ++ appendBytes first.id.replicaID ++ appendParent first.item.parent

/-- One round of `writeRunPayload`. There is no empty block: its size would have been taken before. -/
def writeRunBlock : List RunNode → Except Wire.Err (List UInt8)
  | [] => .error .invalidFrame
  | [x] => do
    let node ← appendRunNode x
    return Uvarint.put runBlockNode ++ node
  | first :: rest => do
    let items ← (first :: rest).mapM appendRunItem
    return Uvarint.put runBlockChain ++ appendChainHeader first (first :: rest).length ++ items.flatten

/-- A block of one node. -/
def readNodeBlock (n : IntSize) (limits : Limits) (s : Decoded) : PayloadReader Decoded := do
  let x ← readRunNode n limits
  require (s.nodes.size < limits.maxElements)
  let nodes ← addNode s.nodes x
  return {s with nodes, singleChain := false}

/-- The nodes of a chain behind its header. -/
def readRunChain (count : UInt64) (replicaID : List UInt8) (parent : Position) (s : Decoded) :
    PayloadReader Decoded := do
  let (nodes, _) ← times (readRunItem replicaID) count.toNat (s.nodes, parent)
  return {s with nodes, singleChainParent := if s.singleChain then parent else s.singleChainParent}

def readRunBlock (n : IntSize) (limits : Limits) (s : Decoded) : PayloadReader Decoded := do
  let kind ← readUvarint
  require (kind ≤ runBlockChain)
  if kind = runBlockNode then readNodeBlock n limits s
  else do
    let (count, replicaID, parent) ← readRunChainHeader n limits s.nodes.size
    readRunChain count replicaID parent s

def runFormat : BlockFormat (List RunNode) where
  stateType := typeIDRGARunState
  makeBlocks _ blocks := .ok blocks
  nodes := id
  size := runBlockSize
  write := writeRunBlock
  read := readRunBlock

/-! ### Fields -/

variable {n : IntSize} {limits : Limits} {x : RunNode} {s : Decoded} {block : List RunNode}

/-- A tag that is not there or fits. -/
def FitsString (limits : Limits) (parent : Position) : Prop :=
  parent.valid = true → (parent.replicaID.length : Int) ≤ limits.maxStringBytes

variable {parent : Position} {size : Int}

theorem parentSize_eq_ok (h : parentSize limits parent = .ok size) : FitsString limits parent := by
  intro hv
  rw [parentSize, if_pos hv] at h
  exact of_decide_eq_true (check_bind_eq_ok_iff.mp h).1

variable {size' : Int} {value : Int}

theorem addWireTagSize_eq_ok {tag : Position}
    (h : addWireTagSize limits size tag = .ok size') : (tag.replicaID.length : Int) ≤ limits.maxStringBytes :=
  of_decide_eq_true (check_bind_eq_ok_iff.mp h).1

theorem validRune_iff :
    validRune value = true ↔ (0 ≤ value ∧ value < 0xD800) ∨ (0xDFFF < value ∧ value ≤ 0x10FFFF) :=
  decide_eq_true_iff

variable {scalar : UInt64}

theorem decodeRunScalar_of_encode (h : encodeRunScalar value = some scalar) :
    decodeRunScalar scalar = some value := by
  unfold encodeRunScalar at h
  split_ifs at h with hv
  obtain rfl := Option.some.inj h
  simp only [Bool.or_eq_true, decide_eq_true_eq, Bool.not_eq_true', not_or, Bool.not_eq_false, not_lt] at hv
  obtain ⟨hpos, hvalid⟩ := hv
  have hbound : value ≤ 0x10FFFF := by
    have := validRune_iff.mp hvalid
    omega
  have hnat : (UInt64.ofNat value.toNat).toNat = value.toNat := by
    rw [UInt64.toNat_ofNat']
    omega
  have hcast : ((value.toNat : Nat) : Int) = value := Int.toNat_of_nonneg hpos
  unfold decodeRunScalar
  rw [hnat, if_neg (by omega), hcast, if_pos hvalid]

theorem reads_scalar {value : Rune} (h : encodeRunScalar value = some scalar) {α : Type}
    {f : Rune → PayloadReader α} {taken : List UInt8} {a : α} (hf : Reads (f value) taken a) : Reads (do
      let runeValue ← readUvarint let scalar ← step (ofOption (decodeRunScalar runeValue) .invalidFrame)
      f scalar) (Uvarint.put scalar ++ taken) a := by
  refine (reads_uvarint scalar).bind (Reads.step_bind ?_ hf)
  rw [decodeRunScalar_of_encode h, ofOption_some]

theorem reads_parent (hl : limits.Fit n) (hv : parent = .zero ∨ parent.valid = true)
    (hlen : FitsString limits parent) : Reads (readParent n limits) (appendParent parent) parent := by
  unfold readParent appendParent
  split_ifs with hvalid
  · refine (reads_uvarint 1).bind (require_bind (by decide) ?_)
    exact reads_tag hl.maxStringBytes (hlen hvalid) hvalid
  obtain rfl := hv.resolve_right hvalid
  refine (reads_uvarint 0).bind (require_bind (by decide) ?_)
  exact Reads.pure

theorem validNode_parts (h : validNode x.id x.item = true) : x.id.valid = true ∧
    validRune x.item.value = true ∧ (x.item.parent = .zero ∨ x.item.parent.valid = true) ∧
      x.id ≠ x.item.parent := by
  simp only [validNode, Bool.and_eq_true, Bool.or_eq_true, decide_eq_true_eq] at h
  tauto

variable {nodes : TagMap (Node Rune)}

theorem reads_addNode (h : x.id ∉ nodes) : Reads (addNode nodes x) [] (nodes.insert x.id x.item) := by
  refine require_bind ?_ Reads.pure
  rw [TagMap.contains_eq_false.mpr h, Bool.not_false]

/-! ### Nodes and chains -/

theorem reads_runNode (hl : limits.Fit n) (hv : validNode x.id x.item = true)
    (hscalar : encodeRunScalar x.item.value = some scalar)
    (hid : (x.id.replicaID.length : Int) ≤ limits.maxStringBytes) (hparent : FitsString limits x.item.parent) :
    Reads (readRunNode n limits) (appendTag x.id ++ appendParent x.item.parent ++ Uvarint.put scalar) x := by
  obtain ⟨hvalid, -, hp, -⟩ := validNode_parts hv
  rw [append_assoc]
  refine (reads_tag hl.maxStringBytes hid hvalid).bind ((reads_parent hl hp hparent).bind ?_)
  rw [← append_nil (Uvarint.put scalar)]
  exact reads_scalar hscalar Reads.pure

theorem reads_header (hl : limits.Fit n) (hv : validNode x.id x.item = true) {existing length : Nat}
    (hlength : 2 ≤ length) (hroom : (existing + length : Int) ≤ limits.maxElements)
    (hid : (x.id.replicaID.length : Int) ≤ limits.maxStringBytes) (hparent : FitsString limits x.item.parent) :
    Reads (readRunChainHeader n limits existing) (appendChainHeader x length)
      (lengthAsUint64 length, x.id.replicaID, x.item.parent) := by
  obtain ⟨hvalid, -, hp, -⟩ := validNode_parts hv
  have hcount : (lengthAsUint64 length).toNat = length :=
    lengthAsUint64_toNat (by have := hl.maxElements; have := n.max_lt; omega)
  unfold readRunChainHeader appendChainHeader
  rw [append_assoc]
  refine (reads_uvarint _).bind (require_bind ?_ ?_)
  · simp only [hcount, Bool.and_eq_true, decide_eq_true_eq]
    omega
  refine (reads_bytes hl.maxStringBytes hid).bind (require_bind hvalid ?_)
  rw [← append_nil (appendParent x.item.parent)]
  exact (reads_parent hl hp hparent).bind Reads.pure

variable {replicaID bytes : List UInt8}

theorem reads_item (hw : appendRunItem x = .ok bytes) (hp : x.item.parent = parent)
    (hreplica : x.id.replicaID = replicaID) (hfresh : x.id ∉ nodes) :
    Reads (readRunItem replicaID (nodes, parent)) bytes (nodes.insert x.id x.item, x.id) := by
  subst hp hreplica
  unfold appendRunItem at hw
  split at hw
  · cases hw
  rename_i scalar hscalar
  cases hw
  rw [append_assoc]
  refine (reads_uvarint _).bind ((reads_uvarint _).bind ?_)
  rw [← append_nil (Uvarint.put scalar)]
  refine reads_scalar hscalar ?_
  exact (reads_addNode hfresh).bind Reads.pure

variable {rest : List RunNode} {items : List (List UInt8)}

theorem parent_of_chain (h : (x :: rest).IsChain Continues) : ∀ y ∈ rest.head?, y.item.parent = x.id := by
  cases rest with
  | nil => simp
  | cons y rest =>
    intro z hz
    cases hz
    exact (isChain_cons_cons.mp h).1.1

theorem fresh_of_nodup (hx : x.id ∉ rest.map RunNode.id)
    (h : ∀ y ∈ rest, y.id ∉ nodes) : ∀ y ∈ rest, y.id ∉ nodes.insert x.id x.item := by
  intro y hy hm
  rw [MapLoop.mem_insert] at hm
  rcases hm with he | hm
  · exact hx (he ▸ mem_map_of_mem hy)
  · exact h y hy hm

theorem reads_items (hw : List.Forall₂ (fun x bytes => appendRunItem x = .ok bytes) block items)
    (hrun : block.IsChain Continues)
    (hhead : ∀ x ∈ block.head?, x.item.parent = parent) (hreplica : ∀ x ∈ block, x.id.replicaID = replicaID)
    (hnodup : (block.map RunNode.id).Nodup) (hfresh : ∀ x ∈ block, x.id ∉ nodes) :
    ∃ last, Reads (times (readRunItem replicaID) block.length (nodes, parent)) items.flatten
      (block.foldl (fun nodes x => nodes.insert x.id x.item) nodes, last) := by
  induction hw generalizing nodes parent with
  | nil => exact ⟨parent, Reads.pure⟩
  | @cons x bytes rest items hx _ ih =>
    obtain ⟨hreplica₁, hreplica⟩ := forall_mem_cons.mp hreplica
    obtain ⟨hfresh₁, hfresh⟩ := forall_mem_cons.mp hfresh
    obtain ⟨hnodup₁, hnodup⟩ := nodup_cons.mp hnodup
    obtain ⟨last, hrest⟩ := ih hrun.tail (parent_of_chain hrun) hreplica hnodup (fresh_of_nodup hnodup₁ hfresh)
    exact ⟨last, (reads_item hx (hhead x rfl) hreplica₁ hfresh₁).bind hrest⟩

variable {first : RunNode}

theorem replicaID_of_chain (h : (first :: rest).IsChain Continues) :
    ∀ x ∈ first :: rest, x.id.replicaID = first.id.replicaID := by
  induction rest generalizing first with
  | nil =>
    intro x hx
    rw [mem_singleton.mp hx]
  | cons y rest ih =>
    obtain ⟨hy, h⟩ := isChain_cons_cons.mp h
    refine forall_mem_cons.mpr ⟨rfl, fun x hx => ?_⟩
    rw [ih h x hx, hy.2]

theorem add_single (s : Decoded) (x : RunNode) :
    s.add [x] = {s with nodes := s.nodes.insert x.id x.item, singleChain := false} := by
  simp [Decoded.add]

theorem add_chain (s : Decoded) (h : rest ≠ []) : s.add (first :: rest) =
      {s with nodes := (first :: rest).foldl (fun nodes x => nodes.insert x.id x.item) s.nodes
              singleChainParent := if s.singleChain then first.item.parent else s.singleChainParent} := by
  simp [Decoded.add, h]

theorem reads_nodeBlock (hl : limits.Fit n) (ht : s.Takes limits [x])
    (hw : appendRunNode x = .ok bytes) (hid : (x.id.replicaID.length : Int) ≤ limits.maxStringBytes)
    (hparent : FitsString limits x.item.parent) : Reads (readNodeBlock n limits s) bytes (s.add [x]) := by
  unfold appendRunNode at hw
  split at hw
  · cases hw
  rename_i scalar hscalar
  cases hw
  have hroom := ht.room
  rw [length_singleton] at hroom
  rw [← append_nil (appendTag x.id ++ appendParent x.item.parent ++ Uvarint.put scalar), add_single]
  refine (reads_runNode hl (ht.valid x (by simp)) hscalar hid hparent).bind (require_bind ?_ ?_)
  · simp only [decide_eq_true_eq]
    omega
  · exact (reads_addNode (ht.fresh x (by simp))).bind Reads.pure

theorem reads_runChain (hrest : rest ≠ []) (ht : s.Takes limits (first :: rest)) (hl : limits.Fit n)
    (hw : (first :: rest).mapM appendRunItem = .ok items) :
    Reads (readRunChain (lengthAsUint64 (first :: rest).length) first.id.replicaID first.item.parent s)
      items.flatten (s.add (first :: rest)) := by
  have hcount : (lengthAsUint64 (first :: rest).length).toNat = (first :: rest).length :=
    lengthAsUint64_toNat (by have := ht.room; have := hl.maxElements; have := n.max_lt; omega)
  obtain ⟨last, hread⟩ : ∃ last, Reads (times (readRunItem first.id.replicaID) (first :: rest).length
      (s.nodes, first.item.parent)) items.flatten (_, last) :=
    reads_items (Except.forall₂_of_mapM hw) ht.run (fun x hx => by cases hx; rfl) (replicaID_of_chain ht.run)
      ht.nodup ht.fresh
  unfold readRunChain
  rw [hcount, add_chain s hrest]
  exact hread.map

/-! ### The format is lawful -/

theorem yields_addNode : Yields (addNode nodes x) fun nodes' => nodes'.size ≤ nodes.size + 1 :=
  Yields.check_bind fun _ => Yields.pure Std.ExtTreeMap.size_insert_le

theorem yields_nodeBlock : Yields (readNodeBlock n limits s) fun s' => (s'.nodes.size : Int) ≤ limits.maxElements := by
  refine Yields.any.bind fun x _ => Yields.check_bind fun hroom => yields_addNode.bind fun nodes hnodes => ?_
  refine Yields.pure ?_
  have := of_decide_eq_true hroom
  dsimp only
  omega

theorem yields_header {existing : Nat} : Yields (readRunChainHeader n limits existing) fun p =>
    2 ≤ p.1.toNat ∧ (existing + p.1.toNat : Int) ≤ limits.maxElements := by
  refine Yields.any.bind fun count _ => Yields.check_bind fun hcount => Yields.any.bind fun _ _ =>
    Yields.check_bind fun _ => Yields.any.bind fun _ _ => Yields.pure ?_
  simp only [Bool.and_eq_true, decide_eq_true_eq] at hcount
  dsimp only
  omega

theorem yields_runChain {count : UInt64} (h : (s.nodes.size + count.toNat : Int) ≤ limits.maxElements) :
    Yields (readRunChain count replicaID parent s) fun s' => (s'.nodes.size : Int) ≤ limits.maxElements := by
  have hitems : Yields (times (readRunItem replicaID) count.toNat (s.nodes, parent)) fun p =>
      p.1.size ≤ s.nodes.size + count.toNat := by
    refine Yields.times (I := fun k (p : TagMap (Node Rune) × Position) => p.1.size + k ≤ s.nodes.size + count.toNat)
      (fun k p hp => ?_) _ le_rfl
    refine Yields.any.bind fun _ _ => Yields.any.bind fun _ _ => Yields.any.bind fun _ _ =>
      Yields.any.bind fun _ _ => yields_addNode.bind fun nodes hnodes => Yields.pure ?_
    dsimp only
    omega
  refine hitems.bind fun p hp => Yields.pure ?_
  dsimp only
  omega

theorem runBlockSize_eq_ok (h : runBlockSize limits size (first :: rest) = .ok size') :
    (first.id.replicaID.length : Int) ≤ limits.maxStringBytes ∧ FitsString limits first.item.parent := by
  cases rest with
  | nil =>
    obtain ⟨_, -, h⟩ := ofOption_bind_eq_ok_iff.mp h
    obtain ⟨_, hid, h⟩ := bind_eq_ok_iff.mp h
    obtain ⟨_, hparent, -⟩ := bind_eq_ok_iff.mp h
    exact ⟨addWireTagSize_eq_ok hid, parentSize_eq_ok hparent⟩
  | cons second rest =>
    obtain ⟨hid, h⟩ := check_bind_eq_ok_iff.mp h
    obtain ⟨_, hparent, -⟩ := bind_eq_ok_iff.mp h
    exact ⟨of_decide_eq_true hid, parentSize_eq_ok hparent⟩

theorem reads_runBlock (hl : limits.Fit n) (ht : s.Takes limits block)
    (hsize : runBlockSize limits size block = .ok size')
    (hw : writeRunBlock block = .ok bytes) : Reads (readRunBlock n limits s) bytes (s.add block) := by
  match block, ht, hsize, hw with
  | [], ht, _, _ => exact absurd rfl ht.nonempty
  | [x], ht, hsize, hw =>
    obtain ⟨hid, hparent⟩ := runBlockSize_eq_ok hsize
    obtain ⟨node, hnode, hw⟩ := Except.bind_eq_ok_iff.mp hw
    cases hw
    refine (reads_uvarint runBlockNode).bind (require_bind (by decide) ?_)
    exact reads_nodeBlock hl ht hnode hid hparent
  | first :: second :: rest, ht, hsize, hw =>
    obtain ⟨hid, hparent⟩ := runBlockSize_eq_ok hsize
    obtain ⟨items, hitems, hw⟩ := Except.bind_eq_ok_iff.mp hw
    cases hw
    refine (reads_uvarint runBlockChain).bind (require_bind (by decide) ?_)
    refine (reads_header hl (ht.valid first (by simp)) (by simp) ht.room hid hparent).bind ?_
    exact reads_runChain (cons_ne_nil _ _) ht hl hitems

theorem runFormat_lawful : runFormat.Lawful where
  nodes h := by
    cases h
    exact map_id _
  reads hl _ _ ht hsize hw _ := reads_runBlock hl ht hsize hw
  bounded {n limits s} hs := by
    refine Yields.any.bind fun kind _ => Yields.check_bind fun _ => ?_
    split_ifs
    · exact yields_nodeBlock
    · exact yields_header.bind fun p hp => yields_runChain hp.2

end Crdt.Text
