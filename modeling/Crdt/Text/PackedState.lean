import Crdt.Text.PackedWire
import Crdt.Text.RunState

/-! States and deltas in the packed format.

The packed codec is a bijection as the run codec is, and nothing in it wraps or is out of range for
any input (`packed_codec_bijection`). In both formats the bytes of a state depend on its nodes and
tombstones only (`state_bytes_unique`). -/
namespace Crdt.Text

open Rga Wire Checked Reader

/-! ### Encoders and decoders -/

variable (e : Env)

def RGA.marshalPackedBinaryWithLimits (r : RGA) (order : RangeOrder r) (limits : Limits) :
    Checked WireErr (List UInt8) :=
  packedFormat.marshalReplica e r order limits

def Delta.marshalPackedBinaryWithLimits (d : Delta) (limits : Limits) : Checked WireErr (List UInt8) :=
  packedFormat.marshal e typeIDRGAPackedDelta d.nodes d.tombstones limits

def unmarshalRGAPackedDeltaWithLimits (data : List UInt8) (limits : Limits) : Checked Wire.Err Delta :=
  packedFormat.unmarshalDelta e typeIDRGAPackedDelta data limits

def unmarshalRGAPackedState (data : List UInt8) (limits : Limits) :
    Checked Wire.Err (TagMap (Node Rune) × TagSet) :=
  packedFormat.unmarshalState e data limits

def RGA.unmarshalPackedBinaryWithLimits (r : RGA) (data : List UInt8) (limits : Limits)
    (millis : Int64) : Option (RGA × Except WireErr Unit) :=
  r.installDecoded (unmarshalRGAPackedState e data limits) millis

/-! ### Nothing breaks -/

/-- Blocks are made, measured and read without breaking. -/
structure BlockFormat.Unbroken {β : Type} (fmt : BlockFormat β) : Prop where
  makeBlocks : ∀ n bs, fmt.makeBlocks n bs ≠ .broken
  size : ∀ {n bs blocks b}, fmt.makeBlocks n bs = .ok blocks → b ∈ blocks → ∀ limits size,
    fmt.size limits size b ≠ .broken
  read : ∀ n limits s, Reader.Unbroken (fmt.read n limits s)

theorem packedFormat_unbroken : packedFormat.Unbroken where
  makeBlocks n bs := mapM_ne_broken fun block _ => by
    obtain ⟨b, hb, -⟩ := packRunBlock_spec n block
    rw [hb]
    exact nofun
  size hmake hb limits size := by
    have hpacks := packs_of_mem (makeBlocks_packs hmake) hb
    exact bind_ne_broken (packedRunBlockSize_ne_broken hpacks) fun _ _ =>
      check_bind_ne_broken fun _ => nofun
  read _ _ _ := unbroken_readPackedRunBlock

namespace BlockFormat.Unbroken

variable {β : Type} {fmt : BlockFormat β} {e : Env} {limits : Limits} {n : IntSize}
  {bs : List (List RunNode)}
  {blocks : List β} {tombIDs : List Position}

variable (hu : fmt.Unbroken)
include hu

theorem payloadSize (hmake : fmt.makeBlocks n bs = .ok blocks) :
    fmt.payloadSize blocks tombIDs limits ≠ .broken := by
  refine bind_ne_broken ?_ fun size _ => check_bind_ne_broken fun _ => ?_
  · refine foldlM_ne_broken (I := fun _ _ => True) trivial fun b hb _ size _ => ⟨?_, fun _ _ => trivial⟩
    exact hu.size hmake hb limits size
  · refine foldlM_ne_broken (I := fun _ _ => True) trivial fun id _ _ size _ => ⟨?_, fun _ _ => trivial⟩
    exact check_bind_ne_broken fun _ => check_bind_ne_broken fun _ => nofun

theorem marshalBlocks (hl : limits.Fit e.intSize) (typeID : UInt64) :
    (fmt.makeBlocks n bs >>= fun blocks => fmt.marshalBlocks e typeID blocks tombIDs limits) ≠ .broken :=
  bind_ne_broken (hu.makeBlocks n bs) fun _ hmake => bind_ne_broken (hu.payloadSize hmake) fun _ _ =>
    marshalFrame_ne_broken hl

theorem marshal (hl : limits.Fit e.intSize) (typeID : UInt64) (nodes : TagMap (Node Rune))
    (tombstones : TagSet) : fmt.marshal e typeID nodes tombstones limits ≠ .broken := by
  unfold BlockFormat.marshal
  cases validateDelta {nodes, tombstones} with
  | error err => exact nofun
  | ok _ =>
    refine check_bind_ne_broken fun _ => check_bind_ne_broken fun _ => ?_
    exact fun h => hu.marshalBlocks hl typeID (mapError_eq_broken_iff.mp h)

theorem marshalReplica (hl : limits.Fit e.intSize) (r : RGA) (order : RangeOrder r) :
    fmt.marshalReplica e r order limits ≠ .broken := by
  unfold BlockFormat.marshalReplica
  cases r.captureRunState order with
  | error err => exact nofun
  | ok state =>
    refine check_bind_ne_broken fun _ => ?_
    dsimp only
    cases validateCompleteRunState state.sort.1 state.sort.2 with
    | error err => exact nofun
    | ok _ => exact fun h => hu.marshalBlocks hl _ (mapError_eq_broken_iff.mp h)

theorem checkCanonical {payload : List UInt8} : fmt.checkCanonical n bs tombIDs limits payload ≠ .broken := by
  refine bind_ne_broken (hu.makeBlocks n bs) fun blocks hmake => ?_
  have hpayload : fmt.marshalPayload blocks tombIDs limits ≠ .broken := by
    refine bind_ne_broken (hu.payloadSize hmake) fun size _ => ?_
    cases fmt.writePayload blocks tombIDs size <;> exact nofun
  cases hm : fmt.marshalPayload blocks tombIDs limits with
  | ok canonical => exact check_ne_broken _ _
  | error err => exact nofun
  | broken => exact absurd hm hpayload

theorem readPayload : Reader.Unbroken (fmt.readPayload n limits) := by
  refine Payload.unbroken_readUvarint.bind fun count => Reader.Unbroken.check_bind fun _ => ?_
  refine (Reader.Unbroken.times (I := fun _ _ => True) (fun _ s _ => ⟨hu.read n limits s, Yields.any⟩) _
    trivial).bind fun decoded => ?_
  refine Payload.unbroken_readUvarint.bind fun tombCount => Reader.Unbroken.check_bind fun _ =>
    Reader.Unbroken.check_bind fun _ => ?_
  have htomb : ∀ s, Reader.Unbroken (readTombstone n limits s) := fun s =>
    Payload.unbroken_readTag.bind fun _ => Reader.Unbroken.check_bind fun _ => Reader.Unbroken.pure
  exact (Reader.Unbroken.times (I := fun _ _ => True) (fun _ s _ => ⟨htomb s, Yields.any⟩) _ trivial).bind
    fun _ => Reader.Unbroken.pure

theorem unmarshal (hl : limits.Fit e.intSize) (data : List UInt8) (typeID : UInt64)
    (complete : Bool) : fmt.unmarshal e data typeID limits complete ≠ .broken := by
  refine bind_ne_broken (unmarshalFrame_ne_broken hl) fun f _ => check_bind_ne_broken fun _ => ?_
  refine bind_ne_broken (Payload.run_ne_broken hu.readPayload _) fun p _ =>
    check_bind_ne_broken fun _ => ?_
  exact bind_ne_broken hu.checkCanonical fun _ _ => nofun

end BlockFormat.Unbroken

/-! ### The packed codec -/

section Codec
variable {e : Env} {limits : Limits} {nodes : TagMap (Node Rune)} {tombstones : TagSet}
  {ids : List Position} {data : List UInt8} {typeID : UInt64} {complete : Bool} {n : IntSize} {f : Frame}

/-- The payload of a frame that was accepted is what would be written, whatever the outer format. -/
theorem BlockFormat.marshalPayload_of_unmarshal {β : Type} {fmt : BlockFormat β}
    (hframe : unmarshalFrame e data limits = .ok f)
    (h : fmt.unmarshal e data typeID limits complete = .ok (nodes, tombstones, ids)) :
    ∃ blocks, fmt.makeBlocks e.intSize (makeRunBlocks nodes) = .ok blocks ∧
      fmt.marshalPayload blocks tombstones.toList limits = .ok f.payload := by
  unfold BlockFormat.unmarshal at h
  rw [hframe] at h
  obtain ⟨-, h⟩ := check_bind_eq_ok_iff.mp h
  obtain ⟨⟨decoded, tombs⟩, -, h⟩ := bind_eq_ok_iff.mp h
  obtain ⟨-, h⟩ := check_bind_eq_ok_iff.mp h
  obtain ⟨_, hcanonical, h⟩ := bind_eq_ok_iff.mp h
  cases h
  obtain ⟨blocks, hmake, hcanonical⟩ := bind_eq_ok_iff.mp hcanonical
  refine ⟨blocks, hmake, ?_⟩
  cases hm : fmt.marshalPayload blocks tombstones.toList limits with
  | ok canonical =>
    rw [hm] at hcanonical
    rw [of_decide_eq_true (check_eq_ok_iff.mp hcanonical)]
  | error err => rw [hm] at hcanonical; cases hcanonical
  | broken => rw [hm] at hcanonical; cases hcanonical

/-- All bits from `count - 1` on are zero. -/
def SpareClear (transitions : List UInt8) (count : Nat) : Prop :=
  ∀ j, count - 1 ≤ j → j / 8 < transitions.length → Bitmap.get transitions j = some false

theorem spareClear_of_makeBlocks {bs : List (List RunNode)} {blocks : List PackedRunBlock}
    (h : packedFormat.makeBlocks n bs = .ok blocks) :
    ∀ b ∈ blocks, b.packed = true → SpareClear b.chain.transitions b.nodes.length := by
  intro b hb hpacked
  obtain ⟨first, rest, hnodes, hdense⟩ := (packs_of_mem (makeBlocks_packs h) hb).2 hpacked
  rw [hnodes]
  exact fun j hj hlt => hdense.unused j (by simpa using hj) hlt

theorem spareClear_of_readTransitions {length count : Nat} {payload transitions rest : List UInt8}
    (hlength : packedTransitionLength n count = some length)
    (h : readTransitions n length count payload = .ok (transitions, rest)) : SpareClear transitions count := by
  obtain ⟨hcount, -, rfl⟩ := packedTransitionLength_eq_some.mp hlength
  obtain ⟨hlen, hunused⟩ := yields_readTransitions _ _ _ h
  obtain ⟨c, hc, hiff⟩ := unusedPackedTransitionBitsSet_spec hcount hlen
  rw [hunused] at hc
  cases hc
  exact hiff.mp rfl

theorem packed_payload_of_unmarshal (hframe : unmarshalFrame e data limits = .ok f)
    (h : packedFormat.unmarshal e data typeID limits complete = .ok (nodes, tombstones, ids)) :
    ∃ blocks, packedFormat.makeBlocks e.intSize (makeRunBlocks nodes) = .ok blocks ∧
      packedFormat.marshalPayload blocks tombstones.toList limits = .ok f.payload ∧
      ∀ b ∈ blocks, b.packed = true → SpareClear b.chain.transitions b.nodes.length := by
  obtain ⟨blocks, hmake, hpayload⟩ := BlockFormat.marshalPayload_of_unmarshal hframe h
  exact ⟨blocks, hmake, hpayload, spareClear_of_makeBlocks hmake⟩

/-- The packed codec is a bijection, on deltas and on complete states; an accepted payload is what its
contents are encoded to, whatever the outer format, with no spare bit set. The nodes of a dense chain
follow from its start, its bits and its gaps. Nothing wraps, whatever is encoded or decoded. -/
theorem packed_codec_bijection (hl : limits.Fit e.intSize) :
    (∀ (d : Delta) b, acyclicAgainst d.nodes ∅ = true → d.marshalPackedBinaryWithLimits e limits = .ok b →
      ∃ d', unmarshalRGAPackedDeltaWithLimits e b limits = .ok d' ∧ d'.nodes = d.nodes ∧
        d'.tombstones = d.tombstones) ∧
    (∀ b (d : Delta) f, unmarshalFrame e b limits = .ok f → unmarshalRGAPackedDeltaWithLimits e b limits = .ok d →
      (∃ blocks, packedFormat.makeBlocks e.intSize (makeRunBlocks d.nodes) = .ok blocks ∧
        packedFormat.marshalPayload blocks d.tombstones.toList limits = .ok f.payload ∧
        ∀ b ∈ blocks, b.packed = true → SpareClear b.chain.transitions b.nodes.length) ∧
      (f.version = formatVersion → d.marshalPackedBinaryWithLimits e limits = .ok b)) ∧
    (∀ (r : RGA) order b, Live r → r.marshalPackedBinaryWithLimits e order limits = .ok b →
      unmarshalRGAPackedState e b limits = .ok (r.nodes, r.tombstones)) ∧
    (∀ b f nodes tombstones, unmarshalFrame e b limits = .ok f →
      unmarshalRGAPackedState e b limits = .ok (nodes, tombstones) →
      (∃ blocks, packedFormat.makeBlocks e.intSize (makeRunBlocks nodes) = .ok blocks ∧
        packedFormat.marshalPayload blocks tombstones.toList limits = .ok f.payload ∧
        ∀ b ∈ blocks, b.packed = true → SpareClear b.chain.transitions b.nodes.length) ∧
      ∀ (r r' : RGA) order millis, f.version = formatVersion →
        r.unmarshalPackedBinaryWithLimits e b limits millis = some (r', .ok ()) →
        r'.marshalPackedBinaryWithLimits e order limits = .ok b) ∧
    (∀ first rest chain (s : Decoded), makePackedRunChain e.intSize (first :: rest) = .ok (some chain) →
      s.Takes limits (first :: rest) → (chain.text.length : Int) ≤ limits.maxPayload →
      ∃ gaps, packedGaps chain.transitions (first :: rest) = .ok gaps ∧
        Reads (decodeDensePackedRunChain e.intSize limits (first :: rest).length first.id.replicaID
          first.item.parent s.nodes) (appendDense first chain gaps)
          ((first :: rest).foldl (fun nodes x => nodes.insert x.id x.item) s.nodes)) ∧
    (∀ length count payload transitions rest, packedTransitionLength e.intSize count = some length →
      readTransitions e.intSize length count payload = .ok (transitions, rest) → SpareClear transitions count) ∧
    (∀ d : Delta, d.marshalPackedBinaryWithLimits e limits ≠ .broken) ∧
    (∀ (r : RGA) order, r.marshalPackedBinaryWithLimits e order limits ≠ .broken) ∧
    (∀ data, unmarshalRGAPackedDeltaWithLimits e data limits ≠ .broken) ∧
    ∀ data, unmarshalRGAPackedState e data limits ≠ .broken := by
  refine ⟨fun d b hac h => ?_, fun b d f hframe h => ⟨?_, fun hversion => ?_⟩, fun r order b hr h => ?_,
    fun b f nodes tombstones hframe h => ⟨?_, fun r r' order millis hversion h' => ?_⟩,
    fun first rest chain s h ht htext => ?_, fun length count payload transitions rest hlength h => ?_,
    fun d => ?_, fun r order => ?_, fun data => ?_, fun data => ?_⟩
  · exact packedFormat_lawful.unmarshalDelta_of_marshal hl hac h
  · obtain ⟨⟨nodes, tombstones, ids⟩, hdecoded, hd⟩ := bind_eq_ok_iff.mp h
    cases hd
    exact packed_payload_of_unmarshal hframe hdecoded
  · exact packedFormat_lawful.marshal_of_unmarshalDelta hl (by decide) hframe hversion h
  · exact packedFormat_lawful.unmarshalState_of_marshal hl hr.inv.1 h
  · obtain ⟨⟨nodes, tombstones, ids⟩, hdecoded, hd⟩ := bind_eq_ok_iff.mp h
    cases hd
    exact packed_payload_of_unmarshal hframe hdecoded
  · exact packedFormat_lawful.marshal_of_installDecoded hl order hframe hversion h'
  · obtain ⟨o, ho, hdense⟩ := makePackedRunChain_spec e.intSize (first :: rest)
    rw [h] at ho
    cases ho
    obtain ⟨_, _, hblock, hdense⟩ := hdense chain rfl
    cases hblock
    exact ⟨_, hdense.packedGaps, hdense.reads hl ht.run ht.nodup ht.fresh htext⟩
  · exact spareClear_of_readTransitions hlength h
  · exact packedFormat_unbroken.marshal hl _ _ _
  · exact packedFormat_unbroken.marshalReplica hl r order
  · exact bind_ne_broken (packedFormat_unbroken.unmarshal hl data _ _) fun _ _ => nofun
  · exact bind_ne_broken (packedFormat_unbroken.unmarshal hl data _ _) fun _ _ => nofun

/-- Four letters of one replica, written at two wall times: a dense chain with one gap. -/
theorem packed_codec_bijection_dense : let e := plainEnv .bits64
    let tag (wallTime logical : UInt64) : Position := ⟨[65], wallTime, logical⟩
    let first : RunNode := ⟨tag 1 0, ⟨.zero, 97⟩⟩
    let rest : List RunNode := [⟨tag 1 1, ⟨tag 1 0, 98⟩⟩, ⟨tag 1 2, ⟨tag 1 1, 99⟩⟩, ⟨tag 7 0, ⟨tag 1 2, 100⟩⟩]
    let nodes := (first :: rest).foldl (fun nodes x => nodes.insert x.id x.item) ∅
    let d : Delta := {nodes, tombstones := (∅ : TagSet).insert (tag 1 1)}
    let b := [67, 82, 68, 84, 1, 30, 0, 21, 1, 2, 4, 1, 65, 0, 1, 0, 1, 4, 6, 4, 97, 98, 99, 100, 1, 1, 65, 1, 1,
      0, 0, 0, 0]
    Limits.default.Fit e.intSize ∧ d.marshalPackedBinaryWithLimits e .default = .ok b ∧
      (∃ d', unmarshalRGAPackedDeltaWithLimits e b .default = .ok d' ∧ d'.nodes = d.nodes ∧
        d'.tombstones = d.tombstones ∧ d'.marshalPackedBinaryWithLimits e .default = .ok b) ∧
      Reads (decodeDensePackedRunChain e.intSize .default 4 [65] .zero ∅)
        [1, 0, 1, 4, 6, 4, 97, 98, 99, 100] nodes := by
  intro e tag first rest nodes d b
  have hl : Limits.default.Fit e.intSize := by constructor <;> decide
  have hb : d.marshalPackedBinaryWithLimits e .default = .ok b := by decide +kernel
  obtain ⟨hdelta, haccepted, -, -, hdense, -⟩ := packed_codec_bijection hl
  obtain ⟨d', hd', hnodes, htombs⟩ := hdelta d b (by decide +kernel) hb
  refine ⟨hl, hb, ⟨d', hd', hnodes, htombs, ?_⟩, ?_⟩
  · exact (haccepted b d' ⟨30, [], (b.drop 8).take 21, 0⟩ (by decide +kernel) hd').2 (by decide)
  have htakes : Decoded.Takes {singleChain := true} .default (first :: rest) := by
    refine ⟨nofun, ?_, by decide +kernel, by decide +kernel, fun _ _ => by simp, by decide +kernel⟩
    simp [first, rest, Continues, tag]
  obtain ⟨gaps, hgaps, hread⟩ := hdense first rest ⟨[4], [97, 98, 99, 100]⟩ {singleChain := true}
    (by decide +kernel) htakes (by decide)
  have hsix : packedGaps [4] (first :: rest) = .ok [6] := by decide +kernel
  obtain rfl := ok.inj (hgaps.symm.trans hsix)
  exact hread

end Codec

/-! ### Bytes of a state -/

section Bytes
variable {e : Env} {limits : Limits} {r₁ r₂ : RGA} {ds : List Delta}

section Unique
variable (h₁ : Live r₁) (h₂ : Live r₂) (hnodes : r₁.nodes = r₂.nodes) (htombs : r₁.tombstones = r₂.tombstones)
  (hp₁ : r₁.pending = ∅) (hp₂ : r₂.pending = ∅) (o₁ : RangeOrder r₁) (o₂ : RangeOrder r₂)
include h₁ h₂ hnodes htombs hp₁ hp₂

theorem marshalReplica_unique {β : Type} (fmt : BlockFormat β) :
    fmt.marshalReplica e r₁ o₁ limits = fmt.marshalReplica e r₂ o₂ limits := by
  rw [marshalReplica_eq h₁.inv.1 hp₁ o₁, marshalReplica_eq h₂.inv.1 hp₂ o₂, hnodes, htombs]

theorem marshalRunBinary_unique :
    r₁.marshalRunBinaryWithLimits e o₁ limits = r₂.marshalRunBinaryWithLimits e o₂ limits := by
  rw [marshalRunBinary_eq h₁.inv.1, marshalRunBinary_eq h₂.inv.1]
  exact marshalReplica_unique h₁ h₂ hnodes htombs hp₁ hp₂ o₁ o₂ _

end Unique

/-- Two replicas with equal nodes and tombstones and nothing pending have the same bytes in both
formats. Along the sequence or from the maps, the same is captured, and every way to the blocks leads
to the same ones: chains of one replica that hold each node once. -/
theorem state_bytes_unique (h₁ : Live r₁) (h₂ : Live r₂) (hnodes : r₁.nodes = r₂.nodes)
    (htombs : r₁.tombstones = r₂.tombstones) (hp₁ : r₁.pending = ∅) (hp₂ : r₂.pending = ∅)
    (o₁ : RangeOrder r₁) (o₂ : RangeOrder r₂) :
    r₁.marshalRunBinaryWithLimits e o₁ limits = r₂.marshalRunBinaryWithLimits e o₂ limits ∧
    r₁.marshalPackedBinaryWithLimits e o₁ limits = r₂.marshalPackedBinaryWithLimits e o₂ limits ∧
    (r₁.captureRunStateLocked o₁).sort = (sortedItems r₁.nodes, r₁.tombstones.toList) ∧
    (r₁.captureRunStateFromMapsLocked o₁).sort = (sortedItems r₁.nodes, r₁.tombstones.toList) ∧
    makeRunBlocksFromSortedItems (sortedItems r₁.nodes) = makeRunBlocks r₁.nodes ∧
    makeRunBlocksFromSortedIDs r₁.nodes.keys r₁.nodes = makeRunBlocks r₁.nodes ∧
    (∀ block, r₁.nodes.keys ≠ [] → singleRunBlock r₁.nodes.keys r₁.nodes = some block →
      makeRunBlocks r₁.nodes = [block]) ∧
    (validateCompleteRunState (sortedItems r₁.nodes) r₁.tombstones.toList = .ok true →
      makeRunBlocks r₁.nodes = [sortedItems r₁.nodes]) ∧ Partition r₁.nodes (makeRunBlocks r₁.nodes) := by
  have hac := acyclic_of_forested h₁.inv.1.indexed.forested
  refine ⟨marshalRunBinary_unique h₁ h₂ hnodes htombs hp₁ hp₂ o₁ o₂,
    marshalReplica_unique h₁ h₂ hnodes htombs hp₁ hp₂ o₁ o₂ _, sorted_capture h₁.inv.1 o₁,
    sort_maps r₁ o₁, makeRunBlocksFromSortedItems_eq _, (makeRunBlocks_eq hac).symm, fun block hne hblock => ?_,
    fun hlinear => ?_, makeRunBlocks_partition hac⟩
  · rw [makeRunBlocks_cases, if_neg]
    · rw [singleRunBlock_eq] at hblock
      split_ifs at hblock with hrun
      cases hblock
      rw [if_pos hrun]
    · rwa [← map_id_sortedItems, ne_eq, List.map_eq_nil_iff, ← List.length_eq_zero_iff] at hne
  · rw [← makeRunBlocksFromSortedItems_eq]
    exact blocks_of_linear hlinear

/-- A node and its child, in order and backwards. -/
theorem state_bytes_unique_backwards :
    let a : Tag := ⟨[1], 5, 0⟩
    let b : Tag := ⟨[1], 6, 0⟩
    let root : Delta := {nodes := (∅ : TagMap (Node Rune)).insert a ⟨.zero, 97⟩}
    let child : Delta := {nodes := (∅ : TagMap (Node Rune)).insert b ⟨a, 98⟩, tombstones := (∅ : TagSet).insert a}
    let e := plainEnv .bits32
    ∃ r₁ r₂, newWith [7] [root, child] = some r₁ ∧ newWith [8] [child, root] = some r₂ ∧ r₁.nodes.size = 2 ∧
      ∀ o₁ o₂, r₁.marshalPackedBinaryWithLimits e o₁ .default = r₂.marshalPackedBinaryWithLimits e o₂ .default := by
  intro a b root child e
  have h : ((newWith [7] [root, child]).bind fun r₁ => (newWith [8] [child, root]).map fun r₂ =>
      (decide (r₁.nodes = r₂.nodes ∧ r₁.tombstones = r₂.tombstones), r₁.pending.isEmpty, r₂.pending.isEmpty,
        r₁.nodes.size)) = some (true, true, true, 2) := by decide +kernel
  obtain ⟨r₁, hr₁, h⟩ := Option.bind_eq_some_iff.mp h
  obtain ⟨r₂, hr₂, h⟩ := Option.map_eq_some_iff.mp h
  simp only [Prod.mk.injEq, decide_eq_true_eq, Std.ExtTreeMap.isEmpty_iff] at h
  obtain ⟨⟨hnodes, htombs⟩, hp₁, hp₂, hsize⟩ := h
  refine ⟨r₁, r₂, hr₁, hr₂, hsize, fun o₁ o₂ => ?_⟩
  exact (state_bytes_unique (reachable_newWith hr₁) (reachable_newWith hr₂) hnodes htombs hp₁ hp₂ o₁ o₂).2.1

end Bytes

end Crdt.Text
