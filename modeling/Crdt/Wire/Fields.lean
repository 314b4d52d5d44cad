import Crdt.Lib.Reader
import Crdt.Tag
import Crdt.Wire.RoundTrip

/-! The fields of a payload.

Payloads are made of varints, byte strings with their length, and tags. A payload decoder of the
library keeps a position; here it is a reader of what is left, and what it cannot read is an invalid
frame. Each field is read back as it was appended: `reads_uvarint`, `reads_bytes`, `reads_tag`. -/
namespace Crdt.Wire

open Checked Reader

/-! ### Readers -/

abbrev PayloadReader (α : Type) := Reader UInt8 Err α

namespace Payload

/-- What does not hold makes the frame invalid. -/
def require (c : Bool) : PayloadReader Unit := check c .invalidFrame

def readUvarint : PayloadReader UInt64 := fun rest => ofOption (Uvarint.read rest) .invalidFrame

def readBytes (n : IntSize) (max : Int) : PayloadReader (List UInt8) := do
  require (0 ≤ max)
  let length ← readUvarint
  let lengthInt ← step (ofOption (uint64AsInt n length) .invalidFrame)
  require (lengthInt ≤ max)
  take lengthInt.toNat .invalidFrame

def readTag (n : IntSize) (maxStringBytes : Int) : PayloadReader Tag := do
  let replicaID ← readBytes n maxStringBytes
  let wallTime ← readUvarint
  let logical ← readUvarint
  let tag : Tag := ⟨replicaID, wallTime, logical⟩
  require tag.valid
  return tag

/-- A reader that must end with the payload. -/
def run {α : Type} (r : PayloadReader α) (payload : List UInt8) : Checked Err α := do
  let (a, rest) ← r payload
  Checked.check (rest = []) .invalidFrame
  return a

end Payload

/-! ### Writers -/

/-- What is appended for a byte string. -/
def appendBytes (s : List UInt8) : List UInt8 := Uvarint.put (lengthAsUint64 s.length) ++ s

/-- What is appended for a tag. -/
def appendTag (tag : Tag) : List UInt8 :=
  appendBytes tag.replicaID ++ Uvarint.put tag.wallTime ++ Uvarint.put tag.logical

def tagSize (tag : Tag) : Int :=
  Uvarint.size (lengthAsUint64 tag.replicaID.length) + tag.replicaID.length + Uvarint.size tag.wallTime +
    Uvarint.size tag.logical

theorem length_appendBytes (s : List UInt8) :
    (appendBytes s).length = Uvarint.size (lengthAsUint64 s.length) + s.length :=
  List.length_append

theorem length_appendTag (tag : Tag) : ((appendTag tag).length : Int) = tagSize tag := by
  simp only [appendTag, List.length_append, length_appendBytes, tagSize, Uvarint.size]
  omega

/-! ### Round trips -/

namespace Payload

variable {n : IntSize} {max : Int} {α β : Type} {r : PayloadReader α} {payload : List UInt8}

theorem reads_uvarint (x : UInt64) : Reads readUvarint (Uvarint.put x) x := by
  intro rest
  rw [readUvarint, Uvarint.read_put, ofOption_some]

theorem require_bind {c : Bool} {f : Unit → PayloadReader β} {taken : List UInt8} {b : β} (hc : c = true)
    (hf : Reads (f ()) taken b) : Reads (require c >>= f) taken b :=
  Reads.check_bind hc hf

theorem reads_bytes {s : List UInt8} (hmax : max ≤ n.max) (h : (s.length : Int) ≤ max) :
    Reads (readBytes n max) (appendBytes s) s := by
  have hlen : (lengthAsUint64 s.length).toNat = s.length :=
    lengthAsUint64_toNat (by have := n.max_lt; omega)
  refine require_bind (by simp; omega) ((reads_uvarint _).bind ?_)
  refine Reads.step_bind (a := (s.length : Int)) ?_ (require_bind (by simpa using h) ?_)
  · rw [uint64AsInt_eq, hlen, if_pos (h.trans hmax), ofOption_some]
  · exact Reads.take (by simp)

theorem reads_tag {tag : Tag} (hmax : max ≤ n.max) (h : (tag.replicaID.length : Int) ≤ max)
    (hv : tag.valid = true) : Reads (readTag n max) (appendTag tag) tag := by
  rw [appendTag, List.append_assoc]
  refine (reads_bytes hmax h).bind ((reads_uvarint _).bind ?_)
  rw [← List.append_nil (Uvarint.put tag.logical)]
  exact (reads_uvarint _).bind (require_bind hv Reads.pure)

theorem run_eq_ok {a : α} (h : Reads r payload a) : run r payload = .ok a := by
  have := h []
  rw [List.append_nil] at this
  simp [run, this]

theorem yields_of_run {P : α → Prop} {a : α} (hr : Yields r P) (h : run r payload = .ok a) : P a := by
  obtain ⟨⟨a', rest⟩, hread, h⟩ := bind_eq_ok_iff.mp h
  obtain ⟨-, h⟩ := check_bind_eq_ok_iff.mp h
  cases h
  exact hr _ _ _ hread

/-! ### Nothing breaks -/

theorem unbroken_readUvarint : Unbroken readUvarint := fun _ => ofOption_ne_broken _ _

theorem unbroken_readBytes : Unbroken (readBytes n max) :=
  Unbroken.check.bind fun _ => unbroken_readUvarint.bind fun _ =>
    Unbroken.step_bind (ofOption_ne_broken _ _) fun _ _ => Unbroken.check.bind fun _ => Unbroken.take

theorem unbroken_readTag : Unbroken (readTag n max) :=
  unbroken_readBytes.bind fun _ => unbroken_readUvarint.bind fun _ => unbroken_readUvarint.bind fun _ =>
    Unbroken.check.bind fun _ => Unbroken.pure

theorem run_ne_broken (h : Unbroken r) (payload : List UInt8) : run r payload ≠ .broken :=
  bind_ne_broken (h payload) fun _ _ => check_bind_ne_broken fun _ => nofun

end Payload

end Crdt.Wire
