import Crdt.Text.PackedChain

/-! The packed format.

A block is written as in the run format, or as a dense chain if it is one and takes less room so.
`packedFormat_lawful`: what is written for a block is read back; `packedFormat_unbroken`: whatever is
written or read, nothing wraps. -/
namespace Crdt.Text

open Rga Wire Checked Reader List Payload
open Wire.Payload (readUvarint readBytes readTag require)

def typeIDRGAPackedState : UInt64 := 29

def typeIDRGAPackedDelta : UInt64 := 30

def packedRunBlockChain : UInt64 := 2

structure PackedRunBlock where
  nodes : List RunNode
  chain : PackedRunChain := {}
  packed : Bool := false

/-! ### Blocks on the wire -/

/-- The size of a chain behind its header. -/
def packedChainSize (block : PackedRunBlock) (first : RunNode) (size : Int) : Checked Wire.Err Int :=
  if block.packed then do
    let gaps ← packedGaps block.chain.transitions block.nodes
    return size + (Uvarint.size first.id.wallTime + Uvarint.size first.id.logical) +
      (Uvarint.size (lengthAsUint64 block.chain.transitions.length) + block.chain.transitions.length) +
      (gaps.map fun gap => (Uvarint.size gap : Int)).sum +
      (Uvarint.size (lengthAsUint64 block.chain.text.length) + block.chain.text.length)
  else block.nodes.foldlM addRunItemSize size

def packedRunBlockSize (limits : Limits) (block : PackedRunBlock) : Checked Wire.Err Int :=
  match block.nodes with
  | [] => .error .invalidFrame
  | [x] => do
    let scalar ← ofOption (encodeRunScalar x.item.value) .invalidFrame
    check (x.id.replicaID.length ≤ limits.maxStringBytes) .frameLimit
    return Uvarint.size runBlockNode + tagSize x.id + Uvarint.size scalar + 1 + (← parentSize limits x.item.parent)
  | first :: rest => do
    check (first.id.replicaID.length ≤ limits.maxStringBytes) .frameLimit
    packedChainSize block first (Uvarint.size runBlockChain + Uvarint.size (lengthAsUint64 (first :: rest).length) +
      Uvarint.size (lengthAsUint64 first.id.replicaID.length) + first.id.replicaID.length + 1 +
      (← parentSize limits first.item.parent))

/-- One round of `packedRunPayloadSize`. -/
def addPackedRunBlockSize (limits : Limits) (size : Int) (block : PackedRunBlock) : Checked Wire.Err Int := do
  let blockSize ← packedRunBlockSize limits block
  check (blockSize ≤ limits.maxPayload - size) .frameLimit
  return size + blockSize

section
variable (n : IntSize)

def packedRunBlockCanonicalSize (block : PackedRunBlock) : Checked Wire.Err Int :=
  packedRunBlockSize ⟨0, n.max, 0, 0, 0, n.max⟩ block

/-- The shorter of the two forms of a block. -/
def packRunBlock (block : List RunNode) : Checked Wire.Err PackedRunBlock := do
  match ← makePackedRunChain n block with
  | none => return {nodes := block}
  | some chain =>
    let candidateSize ← attempt (packedRunBlockCanonicalSize n {nodes := block, chain, packed := true})
    let regularSize ← attempt (packedRunBlockCanonicalSize n {nodes := block})
    match candidateSize, regularSize with
    | .ok candidateSize, .ok regularSize =>
      if candidateSize < regularSize then return {nodes := block, chain, packed := true}
      else return {nodes := block}
    | _, _ => return {nodes := block}

def makePackedRunBlocksFromRunBlocks (blocks : List (List RunNode)) :
    Checked Wire.Err (List PackedRunBlock) :=
  blocks.mapM (packRunBlock n)

/-- One round of `writePackedRunPayload`. The gaps are those of which the size was taken. -/
def writePackedRunBlock (block : PackedRunBlock) : Except Wire.Err (List UInt8) :=
  match block.nodes with
  | [] => .error .invalidFrame
  | [x] => do
    let node ← appendRunNode x
    return Uvarint.put runBlockNode ++ node
  | first :: rest =>
    if block.packed then
      match packedGaps block.chain.transitions block.nodes with
      | .ok gaps => .ok (Uvarint.put packedRunBlockChain ++ appendChainHeader first (first :: rest).length ++
          appendDense first block.chain gaps)
      | _ => .error .invalidFrame
    else do
      let items ← (first :: rest).mapM appendRunItem
      return Uvarint.put runBlockChain ++ appendChainHeader first (first :: rest).length ++ items.flatten

/-- A dense chain behind its header. -/
def readDenseChain (limits : Limits) (count : Nat) (replicaID : List UInt8) (parent : Position)
    (s : Decoded) : PayloadReader Decoded := do
  let nodes ← decodeDensePackedRunChain n limits count replicaID parent s.nodes
  return {s with nodes, singleChainParent := if s.singleChain then parent else s.singleChainParent}

def readPackedRunBlock (limits : Limits) (s : Decoded) : PayloadReader Decoded := do
  let kind ← readUvarint
  require (kind ≤ packedRunBlockChain)
  if kind = runBlockNode then readNodeBlock n limits s
  else do
    let (count, replicaID, parent) ← readRunChainHeader n limits s.nodes.size
    let countInt ← step (ofOption (uint64AsInt n count) .invalidFrame)
    if kind = runBlockChain then readRunChain count replicaID parent s
    else readDenseChain n limits countInt.toNat replicaID parent s

end

def packedFormat : BlockFormat PackedRunBlock where
  stateType := typeIDRGAPackedState
  makeBlocks := makePackedRunBlocksFromRunBlocks
  nodes := PackedRunBlock.nodes
  size := addPackedRunBlockSize
  write := writePackedRunBlock
  read := readPackedRunBlock

/-! ### Blocks -/

variable {n : IntSize} {limits : Limits} {s : Decoded} {block : List RunNode} {b : PackedRunBlock}
  {parent : Position}

/-- The form of a block: the run format, or a chain that is dense. -/
def Packs (n : IntSize) (block : List RunNode) (b : PackedRunBlock) : Prop :=
  b.nodes = block ∧ (b.packed = true → ∃ first rest, block = first :: rest ∧ IsDense n first rest b.chain)

theorem addRunItemSize_ne_broken (size : Int) (x : RunNode) : addRunItemSize size x ≠ .broken :=
  ofOption_bind_ne_broken fun _ _ => nofun

theorem parentSize_ne_broken : parentSize limits parent ≠ .broken := by
  unfold parentSize
  split_ifs
  · exact check_bind_ne_broken fun _ => nofun
  · exact nofun

theorem packedChainSize_ne_broken (h : Packs n block b) (first : RunNode) (size : Int) :
    packedChainSize b first size ≠ .broken := by
  unfold packedChainSize
  split_ifs with hpacked
  · obtain ⟨first, rest, hblock, hdense⟩ := h.2 hpacked
    rw [h.1, hblock, hdense.packedGaps]
    exact nofun
  · refine foldlM_ne_broken (I := fun _ _ => True) trivial fun x _ _ size _ => ⟨?_, fun _ _ => trivial⟩
    exact addRunItemSize_ne_broken size x

theorem packedRunBlockSize_ne_broken (h : Packs n block b) : packedRunBlockSize limits b ≠ .broken := by
  unfold packedRunBlockSize
  split
  · exact nofun
  · refine ofOption_bind_ne_broken fun _ _ => check_bind_ne_broken fun _ => ?_
    exact bind_ne_broken parentSize_ne_broken fun _ _ => nofun
  · refine check_bind_ne_broken fun _ => bind_ne_broken parentSize_ne_broken fun _ _ => ?_
    exact packedChainSize_ne_broken h _ _

theorem packRunBlock_spec (n : IntSize) (block : List RunNode) :
    ∃ b, packRunBlock n block = .ok b ∧ Packs n block b := by
  have hregular : Packs n block {nodes := block} := ⟨rfl, nofun⟩
  obtain ⟨o, ho, hdense⟩ := makePackedRunChain_spec n block
  unfold packRunBlock
  rw [ho, ok_bind]
  cases o with
  | none => exact ⟨_, rfl, hregular⟩
  | some chain =>
    have hcandidate : Packs n block {nodes := block, chain, packed := true} := ⟨rfl, fun _ => hdense chain rfl⟩
    obtain ⟨candidateSize, hcandidateSize⟩ : ∃ o, (attempt (packedRunBlockCanonicalSize n _) : Checked Wire.Err _) =
      .ok o := attempt_eq_ok (packedRunBlockSize_ne_broken hcandidate)
    obtain ⟨regularSize, hregularSize⟩ : ∃ o, (attempt (packedRunBlockCanonicalSize n _) : Checked Wire.Err _) =
      .ok o := attempt_eq_ok (packedRunBlockSize_ne_broken hregular)
    dsimp only
    rw [hcandidateSize, ok_bind, hregularSize, ok_bind]
    split
    · split_ifs
      · exact ⟨_, rfl, hcandidate⟩
      · exact ⟨_, rfl, hregular⟩
    · exact ⟨_, rfl, hregular⟩

variable {bs : List (List RunNode)} {blocks : List PackedRunBlock} {rest : List RunNode}
  {first : RunNode} {size : Int}

theorem makeBlocks_packs
    (h : makePackedRunBlocksFromRunBlocks n bs = .ok blocks) : List.Forall₂ (Packs n) bs blocks := by
  refine (forall₂_of_mapM h).imp fun block b hb => ?_
  obtain ⟨b', hb', hpacks⟩ := packRunBlock_spec n block
  rw [hb] at hb'
  cases hb'
  exact hpacks

theorem map_nodes_of_packs
    (h : List.Forall₂ (Packs n) bs blocks) : blocks.map PackedRunBlock.nodes = bs := by
  induction h with
  | nil => rfl
  | cons hb _ ih => rw [map_cons, hb.1, ih]

theorem packs_of_mem (h : List.Forall₂ (Packs n) bs blocks) (hb : b ∈ blocks) : Packs n b.nodes b := by
  induction h with
  | nil => cases hb
  | cons hfirst _ ih =>
    rcases mem_cons.mp hb with rfl | hb
    · rw [hfirst.1]
      exact hfirst
    · exact ih hb

/-! ### The format is lawful -/

theorem packedRunBlockSize_eq_ok (hb : b.nodes = first :: rest)
    (h : packedRunBlockSize limits b = .ok size) :
    (first.id.replicaID.length : Int) ≤ limits.maxStringBytes ∧ FitsString limits first.item.parent := by
  unfold packedRunBlockSize at h
  rw [hb] at h
  cases rest with
  | nil =>
    obtain ⟨_, -, h⟩ := ofOption_bind_eq_ok_iff.mp h
    obtain ⟨hid, h⟩ := check_bind_eq_ok_iff.mp h
    obtain ⟨_, hparent, -⟩ := bind_eq_ok_iff.mp h
    exact ⟨of_decide_eq_true hid, parentSize_eq_ok hparent⟩
  | cons second rest =>
    obtain ⟨hid, h⟩ := check_bind_eq_ok_iff.mp h
    obtain ⟨_, hparent, -⟩ := bind_eq_ok_iff.mp h
    exact ⟨of_decide_eq_true hid, parentSize_eq_ok hparent⟩

theorem reads_denseChain {chain : PackedRunChain}
    (hd : IsDense n first rest chain) (hl : limits.Fit n) (ht : s.Takes limits (first :: rest))
    (htext : (chain.text.length : Int) ≤ limits.maxPayload) :
    Reads (readDenseChain n limits (first :: rest).length first.id.replicaID first.item.parent s)
      (appendDense first chain (gapsFrom first.id rest)) (s.add (first :: rest)) := by
  have hrest : rest ≠ [] := fun hnil => by
    have := hd.length_eq.2.1
    rw [hnil] at this
    simp at this
  rw [add_chain s hrest]
  exact (hd.reads hl ht.run ht.nodup ht.fresh htext).map

theorem length_text_le (first : RunNode) (chain : PackedRunChain) (gaps : List UInt64) :
    chain.text.length ≤ (appendDense first chain gaps).length := by
  unfold appendDense appendBytes
  simp only [length_append]
  omega

theorem reads_packedRunBlock (hl : limits.Fit n) (hp : Packs n b.nodes b) (ht : s.Takes limits b.nodes)
    (hsize : packedRunBlockSize limits b = .ok size) {bytes : List UInt8} (hw : writePackedRunBlock b = .ok bytes)
    (hmax : (bytes.length : Int) ≤ limits.maxPayload) :
    Reads (readPackedRunBlock n limits s) bytes (s.add b.nodes) := by
  unfold writePackedRunBlock at hw
  split at hw
  · cases hw
  · rename_i x hnodes
    obtain ⟨hid, hparent⟩ := packedRunBlockSize_eq_ok hnodes hsize
    obtain ⟨node, hnode, hw⟩ := Except.bind_eq_ok_iff.mp hw
    cases hw
    rw [hnodes] at ht ⊢
    refine (reads_uvarint runBlockNode).bind (require_bind (by decide) ?_)
    exact reads_nodeBlock hl ht hnode hid hparent
  rename_i first rest hlong hnodes
  obtain ⟨hid, hparent⟩ := packedRunBlockSize_eq_ok hnodes hsize
  rw [hnodes] at ht hp hw ⊢
  have hrest : rest ≠ [] := hlong
  have htwo : 2 ≤ (first :: rest).length := by
    have := length_pos_iff.mpr hrest
    rw [length_cons]
    omega
  have hheader := reads_header hl (ht.valid first (by simp)) htwo ht.room hid hparent
  have hcount : ofOption (uint64AsInt n (lengthAsUint64 (first :: rest).length)) Wire.Err.invalidFrame =
      .ok ((first :: rest).length : Int) := by
    have := ht.room
    have := hl.maxElements
    have := n.max_lt
    rw [uint64AsInt_eq, lengthAsUint64_toNat (by omega), if_pos (by omega), ofOption_some]
  split_ifs at hw with hpacked
  · obtain ⟨_, _, hblock, hdense⟩ := hp.2 hpacked
    cases hblock
    rw [hdense.packedGaps] at hw
    cases hw
    have htext : (b.chain.text.length : Int) ≤ limits.maxPayload := by
      have := length_text_le first b.chain (gapsFrom first.id rest)
      rw [length_append] at hmax
      omega
    refine (reads_uvarint packedRunBlockChain).bind (require_bind (by decide) ?_)
    refine hheader.bind (Reads.step_bind hcount ?_)
    exact reads_denseChain hdense hl ht htext
  obtain ⟨items, hitems, hw⟩ := Except.bind_eq_ok_iff.mp hw
  cases hw
  refine (reads_uvarint runBlockChain).bind (require_bind (by decide) ?_)
  refine hheader.bind (Reads.step_bind hcount ?_)
  exact reads_runChain hrest ht hl hitems

theorem packedFormat_lawful : packedFormat.Lawful where
  nodes h := map_nodes_of_packs (makeBlocks_packs h)
  reads hl hmake hb ht hsize hw hmax := by
    obtain ⟨_, hblock, -⟩ := bind_eq_ok_iff.mp hsize
    exact reads_packedRunBlock hl (packs_of_mem (makeBlocks_packs hmake) hb) ht hblock hw hmax
  bounded {n limits s} hs := by
    refine Yields.any.bind fun kind _ => Yields.check_bind fun _ => ?_
    split_ifs
    · exact yields_nodeBlock
    · exact yields_header.bind fun p hp => Yields.step_bind fun _ _ => yields_runChain hp.2
    refine yields_header.bind fun p hp => Yields.step_bind fun count hcount => ?_
    refine yields_dense.bind fun nodes hnodes => Yields.pure ?_
    have hnat : count = p.1.toNat := by
      rw [ofOption_eq_ok_iff, uint64AsInt_eq] at hcount
      split_ifs at hcount
      exact (Option.some.inj hcount).symm
    dsimp only
    omega

/-! ### Nothing breaks -/

theorem unbroken_addNode {nodes : TagMap (Node Rune)} {x : RunNode} : Unbroken (addNode nodes x) :=
  Unbroken.check_bind fun _ => Unbroken.pure

theorem unbroken_readParent : Unbroken (readParent n limits) := by
  refine unbroken_readUvarint.bind fun flag => Unbroken.check_bind fun _ => ?_
  split_ifs
  · exact unbroken_readTag
  · exact Unbroken.pure

theorem unbroken_readNodeBlock : Unbroken (readNodeBlock n limits s) := by
  have hnode : Unbroken (readRunNode n limits) :=
    unbroken_readTag.bind fun _ => unbroken_readParent.bind fun _ =>
      unbroken_readUvarint.bind fun _ => Unbroken.step_bind (ofOption_ne_broken _ _) fun _ _ => Unbroken.pure
  exact hnode.bind fun _ => Unbroken.check_bind fun _ => unbroken_addNode.bind fun _ => Unbroken.pure

theorem unbroken_readRunChainHeader {existingNodes : Nat} : Unbroken (readRunChainHeader n limits existingNodes) :=
  unbroken_readUvarint.bind fun _ => Unbroken.check_bind fun _ => unbroken_readBytes.bind fun _ =>
    Unbroken.check_bind fun _ => unbroken_readParent.bind fun _ => Unbroken.pure

theorem unbroken_readRunChain {count : UInt64} {replicaID : List UInt8} :
    Unbroken (readRunChain count replicaID parent s) := by
  have hitem : ∀ p, Unbroken (readRunItem replicaID p) := fun p =>
    unbroken_readUvarint.bind fun _ => unbroken_readUvarint.bind fun _ =>
      unbroken_readUvarint.bind fun _ => Unbroken.step_bind (ofOption_ne_broken _ _) fun _ _ =>
        unbroken_addNode.bind fun _ => Unbroken.pure
  have hitems := Unbroken.times (I := fun _ _ => True) (fun _ p _ => ⟨hitem p, Yields.any⟩) count.toNat
    (s := (s.nodes, parent)) trivial
  exact hitems.bind fun _ => Unbroken.pure

theorem unbroken_readPackedRunBlock : Unbroken (readPackedRunBlock n limits s) := by
  refine unbroken_readUvarint.bind fun kind => Unbroken.check_bind fun _ => ?_
  split_ifs
  · exact unbroken_readNodeBlock
  · exact unbroken_readRunChainHeader.bind fun _ => Unbroken.step_bind (ofOption_ne_broken _ _) fun _ _ =>
      unbroken_readRunChain
  · exact unbroken_readRunChainHeader.bind fun _ => Unbroken.step_bind (ofOption_ne_broken _ _) fun _ _ =>
      unbroken_dense.bind fun _ => Unbroken.pure

end Crdt.Text
