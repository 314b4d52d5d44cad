import Crdt.Wire.Fields

/-! Fields of other formats.

The stores and the relay of the library write the same fields as a payload and give errors of their own
where one cannot be read. A reader of a field accepts what is appended for it and nothing else
(`inverts_readUvarint`, `inverts_readBytes`, `inverts_readTag`); the readers of a payload are those whose
error is an invalid frame. -/
namespace Crdt.Wire

open Reader
open Checked (ofOption ofOption_eq_ok_iff)

variable {ε : Type}

section
variable (n : IntSize)

theorem Limits.default_fit : Limits.default.Fit n := by
  cases n <;> constructor <;> decide

def readUvarintOr (err : ε) : Reader UInt8 ε UInt64 := fun rest => ofOption (Uvarint.read rest) err

/-- `frame.ReadBytes` -/
def readBytesOr (max : Int) (err : ε) : Reader UInt8 ε (List UInt8) := do
  check (0 ≤ max) err
  let length ← readUvarintOr err
  let lengthInt ← step (ofOption (uint64AsInt n length) err)
  check (lengthInt ≤ max) err
  take lengthInt.toNat err

/-- `frame.ReadTag` -/
def readTagOr (maxStringBytes : Int) (err : ε) : Reader UInt8 ε Tag := do
  let replicaID ← readBytesOr n maxStringBytes err
  let wallTime ← readUvarintOr err
  let logical ← readUvarintOr err
  let tag : Tag := ⟨replicaID, wallTime, logical⟩
  check tag.valid err
  return tag

theorem readUvarintOr_invalidFrame : readUvarintOr .invalidFrame = Payload.readUvarint := rfl

theorem readBytesOr_invalidFrame (max : Int) :
    readBytesOr n max .invalidFrame = Payload.readBytes n max := rfl

end

theorem step_bind_eq_ok_iff {τ α β : Type} {x : Checked ε α} {f : α → Reader τ ε β} {data rest : List τ} {b : β} :
    (step x >>= f) data = .ok (b, rest) ↔ ∃ a, x = .ok a ∧ f a data = .ok (b, rest) := by
  cases x <;> simp [step, bind_apply]

theorem inverts_readUvarint (err : ε) : Inverts (readUvarintOr err) Uvarint.put fun _ => True := by
  intro data x rest
  rw [readUvarintOr, ofOption_eq_ok_iff, Uvarint.read_eq_some_iff, true_and]

variable {n : IntSize} {max : Int} (hmax : max ≤ n.max) (err : ε)
include hmax

theorem inverts_readBytes : Inverts (readBytesOr n max err) appendBytes fun s => (s.length : Int) ≤ max := by
  intro data s rest
  simp only [readBytesOr, check_bind_eq_ok_iff, (inverts_readUvarint err).bind_eq_ok_iff, step_bind_eq_ok_iff,
    ofOption_eq_ok_iff, uint64AsInt_eq, Inverts.take _ _ _ _ _, decide_eq_true_eq, true_and, id_eq, appendBytes]
  constructor
  · rintro ⟨_, length, left, hdata, lengthInt, hint, hle, hlen, hleft⟩
    split_ifs at hint with hfits
    obtain rfl := Option.some.inj hint
    have hlength : s.length = length.toNat := hlen.trans (Int.toNat_natCast _)
    rw [hdata, hleft, hlength, lengthAsUint64_of_toNat rfl, List.append_assoc]
    exact ⟨hle, rfl⟩
  rintro ⟨hle, hdata⟩
  have hlength : (lengthAsUint64 s.length).toNat = s.length :=
    lengthAsUint64_toNat (by have := n.max_lt; omega)
  rw [List.append_assoc] at hdata
  refine ⟨by omega, _, _, hdata, s.length, ?_, hle, (Int.toNat_natCast _).symm, rfl⟩
  rw [hlength, if_pos (hle.trans hmax)]

theorem inverts_readTag :
    Inverts (readTagOr n max err) appendTag fun tag => (tag.replicaID.length : Int) ≤ max ∧ tag.valid = true := by
  intro data tag rest
  simp only [readTagOr, (inverts_readBytes hmax err).bind_eq_ok_iff, (inverts_readUvarint err).bind_eq_ok_iff,
    check_bind_eq_ok_iff, pure_eq_ok_iff, true_and]
  constructor
  · rintro ⟨replicaID, _, hid, hdata, wallTime, _, hleft, logical, _, hleft', hvalid, htag, hrest⟩
    rw [← htag, hdata, hleft, hleft', hrest]
    exact ⟨⟨hid, hvalid⟩, by simp only [appendTag, List.append_assoc]⟩
  rintro ⟨⟨hid, hvalid⟩, hdata⟩
  simp only [appendTag, List.append_assoc] at hdata
  exact ⟨tag.replicaID, _, hid, hdata, tag.wallTime, _, rfl, tag.logical, _, rfl, hvalid, rfl, rfl⟩

end Crdt.Wire
