import Crdt.Counter.Counter

/-! Counters on the wire.

A frame has the components as they are, zeros with them, in the order of their replica IDs: what was written
is read back (`unmarshalCounts_of_marshal`, `unmarshalPNCounts_of_marshal`). -/
namespace Crdt.Counter

open Wire Reader
open Checked (bind_eq_ok_iff check_eq_ok_iff mapError_eq_ok_iff)

variable {e : Env} {limits : Limits} {counts positive negative : Counts} {typeID : UInt64}
  {b : List UInt8}

theorem validateCounts_iff : validateCounts counts = true ↔ ∀ p ∈ counts.toList, blank p.1 = false := by
  simp [validateCounts]

theorem inverts_readCount (hl : limits.Fit e.intSize) :
    Inverts (readCount e.intSize limits) appendCount fun p =>
      (p.1.length : Int) ≤ limits.maxStringBytes ∧ blank p.1 = false := by
  intro data p rest
  simp only [readCount, ← readBytesOr_invalidFrame, ← readUvarintOr_invalidFrame, Payload.require,
    (inverts_readBytes hl.maxStringBytes _).bind_eq_ok_iff, (inverts_readUvarint _).bind_eq_ok_iff,
    check_bind_eq_ok_iff, pure_eq_ok_iff, true_and, Bool.not_eq_true', appendCount]
  constructor
  · intro ⟨id, _, hid, hdata, value, _, hleft, hblank, hp, hrest⟩
    rw [← hp, hdata, hleft, hrest, List.append_assoc]
    exact ⟨⟨hid, hblank⟩, rfl⟩
  intro ⟨⟨hid, hblank⟩, hdata⟩
  rw [List.append_assoc] at hdata
  exact ⟨p.1, _, hid, hdata, p.2, _, rfl, hblank, rfl, rfl⟩

/-- What the decoder asks of a section. -/
structure Readable (limits : Limits) (maxElements : Int) (counts : Counts) : Prop where
  size : (counts.size : Int) ≤ maxElements
  valid : validateCounts counts = true
  short : ∀ p ∈ counts.toList, (p.1.length : Int) ≤ limits.maxStringBytes

theorem reads_section (hl : limits.Fit e.intSize) {maxElements : Int} (hmax : maxElements ≤ e.intSize.max)
    (h : Readable limits maxElements counts) :
    Reads (unmarshalPNCountsSection e.intSize maxElements limits) (appendCounts counts) counts := by
  have hsize : (lengthAsUint64 counts.size).toNat = counts.size :=
    lengthAsUint64_toNat (by have := e.intSize.max_lt; have := h.size; omega)
  have hnonneg : 0 ≤ maxElements := (Int.natCast_nonneg _).trans h.size
  refine (Payload.reads_uvarint _).bind (Payload.require_bind (by simpa using hnonneg) fun rest => ?_)
  refine (SortedMap.inverts_readMap (inverts_readCount hl) _ _ _ _ _ _).mpr ⟨⟨hsize.symm, ?_, ?_⟩, rfl⟩
  · intro i hi
    have := h.size
    simp only [decide_eq_true_eq]
    omega
  · intro p hp
    exact ⟨h.short p hp, validateCounts_iff.mp h.valid p hp⟩

theorem short_of_countsSize {entries : List (ReplicaID × UInt64)} {size total : Int}
    (h : countsSize limits entries size = .ok total) : ∀ p ∈ entries, (p.1.length : Int) ≤ limits.maxStringBytes := by
  induction entries generalizing size with
  | nil => nofun
  | cons p entries ih =>
    obtain ⟨hp, h⟩ := Checked.check_bind_eq_ok_iff.mp h
    obtain ⟨-, h⟩ := Checked.check_bind_eq_ok_iff.mp h
    exact List.forall_mem_cons.mpr ⟨of_decide_eq_true hp, ih h⟩

theorem unmarshalPayload_of_marshal {α : Type} {payload : List UInt8} {read : PayloadReader α} {a : α}
    (h : Frame.marshalWithLimits e ⟨typeID, [], payload, 0⟩ .default = .ok b) (hread : Reads read payload a) :
    unmarshalPayload e b typeID .default read = .ok a := by
  have hframe := unmarshalFrame_of_marshalFrame (Limits.default_fit _) rfl h
  rw [unmarshalPayload, hframe]
  simp only [Checked.ok_bind]
  exact Payload.run_eq_ok hread

theorem unmarshalCounts_of_marshal (hvalid : validateCounts counts = true)
    (h : marshalCountsWithLimits e typeID counts .default = .ok b) :
    unmarshalCounts e b typeID .default = .ok counts := by
  obtain ⟨hsize, h⟩ := Checked.check_bind_eq_ok_iff.mp h
  obtain ⟨_, hsection, h⟩ := bind_eq_ok_iff.mp h
  have hfit := Limits.default_fit e.intSize
  refine unmarshalPayload_of_marshal (mapError_eq_ok_iff.mp h) (reads_section hfit hfit.maxElements ?_)
  exact ⟨of_decide_eq_true hsize, hvalid, short_of_countsSize hsection⟩

theorem unmarshalPNCounts_of_marshal (h : marshalPNCountsWithLimits e typeID positive negative .default = .ok b) :
    unmarshalPNCounts e b typeID .default = .ok (positive, negative) := by
  obtain ⟨hvalid, h⟩ := Checked.check_bind_eq_ok_iff.mp h
  obtain ⟨hsizes, h⟩ := Checked.check_bind_eq_ok_iff.mp h
  obtain ⟨_, hpositive, h⟩ := bind_eq_ok_iff.mp h
  obtain ⟨_, hnegative, h⟩ := bind_eq_ok_iff.mp h
  obtain ⟨-, h⟩ := Checked.check_bind_eq_ok_iff.mp h
  obtain ⟨hvalid, hvalid'⟩ := Bool.and_eq_true_iff.mp hvalid
  obtain ⟨hsize, hsize'⟩ := Bool.and_eq_true_iff.mp hsizes
  have hfit := Limits.default_fit e.intSize
  have hmax' : Limits.default.maxElements - positive.size ≤ e.intSize.max :=
    (sub_le_self _ (Int.natCast_nonneg _)).trans hfit.maxElements
  refine unmarshalPayload_of_marshal (mapError_eq_ok_iff.mp h) ?_
  refine (reads_section hfit hfit.maxElements ⟨of_decide_eq_true hsize, hvalid, short_of_countsSize hpositive⟩).bind ?_
  exact (reads_section hfit hmax' ⟨of_decide_eq_true hsize', hvalid', short_of_countsSize hnegative⟩).map

end Crdt.Counter
