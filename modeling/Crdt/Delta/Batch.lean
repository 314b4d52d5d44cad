import Crdt.Replica.Inbox
import Crdt.Wire.Read

/-! Batches of deltas.

A batch is a list of delta frames. Its envelope has a magic, the number of the frames, and each frame behind
its length. The encoder bounds the bytes of the frames, the decoder those of the envelope too, with room for
every length. The decoder takes the envelopes of batches within its limits and nothing else, and neither a sum
nor a slice of it is out of range (`unmarshalBatch_spec`).

The encoder makes room for the bytes of all frames once for each frame. Where the `int`s do not reach so far
the room comes out negative, and where they do the runtime may not give it; then it panics, on a batch that both
`NewBatch` and the decoder return. -/
namespace Crdt.Delta

open Wire Checked List

inductive Err
  | limit
  | invalid
deriving DecidableEq, Repr

structure Batch where
  items : List (List UInt8)
deriving DecidableEq, Repr

def batchMagic : List UInt8 := [68, 66, 65, 84]

variable (e : Env)

/-- `make` gives so many bytes, of at most `maxAlloc` at once. -/
def Grants (maxAlloc bytes : Int) : Prop := 0 ≤ bytes ∧ bytes ≤ maxAlloc

instance instDecidableGrants (maxAlloc bytes : Int) : Decidable (Grants maxAlloc bytes) :=
  inferInstanceAs (Decidable (_ ∧ _))

/-- It panics if it is asked for more, or for less than nothing. -/
def make {ε : Type} (maxAlloc bytes : Int) : Checked ε Unit := if Grants maxAlloc bytes then .ok () else .broken

/-- The bytes of a slice header, of three words. -/
def headerBytes : IntSize → Int
  | .bits32 => 12
  | .bits64 => 24

def isDeltaFrame (item : List UInt8) : Bool :=
  match unmarshalFrame e item .default with
  | .ok decoded => (Replica.frameTypeForDelta decoded.typeID).isSome
  | _ => false

def validateBatchItem (item : List UInt8) (remaining : Int) : Checked Err Unit := do
  check (!(item.length = 0 || item.length > remaining)) .limit
  check (isDeltaFrame e item) .invalid

/-- The loop of `NewBatch` and `MarshalBinary`, with the bytes counted so far. -/
def validateItems (e : Env) (maxBytes : Int) : List (List UInt8) → Int → Checked Err Unit
  | [], _ => return
  | item :: items, total => do
    let remaining ← unbroken (e.intSize.sub maxBytes total)
    validateBatchItem e item remaining
    let total ← unbroken (e.intSize.add total item.length)
    validateItems e maxBytes items total

def newBatch (items : List (List UInt8)) (maxBytes : Int) : Checked Err Batch := do
  check (!(maxBytes ≤ 0)) .limit
  validateItems e maxBytes items 0
  return ⟨items⟩

def frameByteOverhead (items : List (List UInt8)) : Int := (items.map fun item => (item.length : Int) + 10).sum

/-- Sums and products of `int`s wrap around; they are taken as a whole here. -/
def wrap (n : IntSize) (x : Int) : Int := (x + n.max + 1) % (2 * n.max + 2) - n.max - 1

/-- The capacity that `MarshalBinary` asks for. -/
def Batch.capacity (n : IntSize) (b : Batch) : Int := wrap n (4 + b.items.length * frameByteOverhead b.items)

/-- The bytes of a batch. -/
def Batch.envelope (b : Batch) : List UInt8 :=
  batchMagic ++ Uvarint.put (lengthAsUint64 b.items.length) ++ b.items.flatMap appendBytes

def Batch.marshalBinary (maxAlloc : Int) (b : Batch) (maxBytes : Int) : Checked Err (List UInt8) := do
  check (!(maxBytes ≤ 0)) .limit
  validateItems e maxBytes b.items 0
  make maxAlloc (b.capacity e.intSize)
  return b.envelope

/-- `frame.ReadBytes`, with an error where it is not ok. -/
def readBytes (n : IntSize) (data : List UInt8) (position max : Int) : Checked Wire.Err (List UInt8 × Int) := do
  check (0 ≤ max) .invalidFrame
  let r ← readUvarint n data position
  let (length, next) ← ofOption r .invalidFrame
  let lengthInt ← ofOption (uint64AsInt n length) .invalidFrame
  let remaining ← unbroken (n.sub data.length next)
  check (lengthInt ≤ max && lengthInt ≤ remaining) .invalidFrame
  let stop ← unbroken (n.add next lengthInt)
  let item ← unbroken (slice data next stop)
  return (item, stop)

/-- The loop of `UnmarshalBatch`: the items left to read, from a position on. -/
def readItems (e : Env) (data : List UInt8) (maxBytes : Int) :
    Nat → Int → Int → Checked Wire.Err (List (List UInt8) × Int)
  | 0, pos, _ => return ([], pos)
  | count + 1, pos, total => do
    let remaining ← unbroken (e.intSize.sub maxBytes total)
    let (item, next) ← readBytes e.intSize data pos remaining
    check (item.length ≠ 0) .invalidFrame
    check (isDeltaFrame e item) .invalidFrame
    let total ← unbroken (e.intSize.add total item.length)
    let (items, pos) ← readItems e data maxBytes count next total
    return (item :: items, pos)

/-- `UnmarshalBatch` behind the magic. -/
def readBatch (maxAlloc : Int) (data : List UInt8) (maxItems maxBytes : Int) : Checked Wire.Err Batch := do
  let r ← readUvarint e.intSize data 4
  let (count, next) ← ofOption r .invalidFrame
  check (count.toNat ≤ maxItems) .invalidFrame
  make maxAlloc (count.toNat * headerBytes e.intSize)
  let (items, pos) ← readItems e data maxBytes count.toNat next 0
  check (pos = data.length) .invalidFrame
  return ⟨items⟩

/-- The limits of `UnmarshalBatch`, which are to be positive, and the length of its data. -/
def checkLimits (n : IntSize) (length : Nat) (maxItems maxBytes : Int) : Checked Err Unit := do
  check (!(maxItems ≤ 0 || maxBytes ≤ 0 || length < 4)) .limit
  check (maxItems ≤ (n.max - 4 - 10) / 10) .limit
  let lengths ← unbroken (n.add (maxItems * 10) 0)
  let most ← unbroken (n.sub (n.max - 4 - 10) lengths)
  check (maxBytes ≤ most) .limit
  let room ← unbroken (n.sum [maxBytes, 4, 10, lengths])
  check (length ≤ room) .limit

def unmarshalBatch (maxAlloc : Int) (data : List UInt8) (maxItems maxBytes : Int) : Checked Err Batch := do
  checkLimits e.intSize data.length maxItems maxBytes
  let start ← unbroken (slice data 0 4)
  check (start = batchMagic) .invalid
  (readBatch e maxAlloc data maxItems maxBytes).mapError fun _ => .invalid

section
variable {e : Env} {n : IntSize} {data item : List UInt8} {items : List (List UInt8)} {b : Batch} {p count : Nat}
  {max maxItems maxBytes total q maxAlloc size : Int}

theorem make_eq_ok_iff {ε : Type} {u : Unit} : (make maxAlloc size : Checked ε Unit) = .ok u ↔ Grants maxAlloc size := by
  unfold make
  split_ifs with h <;> simp [h]

theorem make_ne_broken_iff {ε : Type} : (make maxAlloc size : Checked ε Unit) ≠ .broken ↔ Grants maxAlloc size := by
  unfold make
  split_ifs with h <;> simp [h]

/-! ### What is accepted -/

/-- Items that a batch may have, within the bytes that are left. -/
def Fits (e : Env) : List (List UInt8) → Int → Prop
  | [], remaining => 0 ≤ remaining
  | item :: items, remaining => (item ≠ [] ∧ isDeltaFrame e item = true) ∧ Fits e items (remaining - item.length)

theorem Fits.bytes (h : Fits e items max) : (items.flatten.length : Int) ≤ max := by
  induction items generalizing max with
  | nil => simpa [Fits] using h
  | cons item items ih =>
    have := ih h.2
    rw [flatten_cons, length_append]
    omega

theorem length_envelope_le : (b.envelope.length : Int) ≤ 14 + b.items.length * 10 + b.items.flatten.length := by
  have hcount := Uvarint.size_le (lengthAsUint64 b.items.length)
  have hitems : (b.items.flatMap appendBytes).length ≤ b.items.length * 10 + b.items.flatten.length := by
    induction b.items with
    | nil => simp
    | cons item items ih =>
      have := Uvarint.size_le (lengthAsUint64 item.length)
      simp only [flatMap_cons, length_append, length_appendBytes, length_cons, flatten_cons]
      omega
  rw [Uvarint.size] at hcount
  simp only [Batch.envelope, length_append, batchMagic, length_cons, length_nil]
  omega

theorem drop_of_append {taken rest : List UInt8} (h : data.drop p = taken ++ rest) :
    data.drop (data.length - rest.length) = rest :=
  (suffix_iff_eq_drop.mp (((suffix_append taken rest).trans (h ▸ suffix_rfl)).trans (drop_suffix p data))).symm

theorem readBytes_eq (hp : p ≤ data.length) (hdata : (data.length : Int) ≤ n.max) (hmax : max ≤ n.max) :
    readBytes n data p max = (do
      let (item, rest) ← readBytesOr n max .invalidFrame (data.drop p)
      return (item, ((data.length - rest.length : Nat) : Int))) := by
  rw [readBytes, readBytesOr]
  cases decide (0 ≤ max) with
  | false => rfl
  | true =>
    refine (read_step hp hdata fun length rest q hq hrest => ?_).trans (bind_assoc _ _ _).symm
    have := @codec_step n data _ data.length q length max .invalidFrame (fun item stop => return (item, stop))
      (fun item rest => return (item, ((data.length - rest.length : Nat) : Int))) le_rfl hq hdata
      fun item p hp => by simp; omega
    rw [take_length, hrest] at this
    refine this.trans ?_
    dsimp only
    rw [uint64AsInt_eq]
    by_cases hle : (length.toNat : Int) ≤ max
    · rw [if_pos (hle.trans hmax)]
      by_cases hfit : length.toNat ≤ rest.length <;>
        simp [hle, hfit, Reader.step, Reader.bind_apply, Reader.check, Reader.take]
    · split_ifs <;> simp [hle, Reader.step, Reader.bind_apply, Reader.check]

/-- The items without positions. -/
def itemsReader (e : Env) (maxBytes : Int) : Nat → Int → PayloadReader (List (List UInt8))
  | 0, _ => pure []
  | count + 1, total => do
    let item ← readBytesOr e.intSize (maxBytes - total) .invalidFrame
    Reader.check (item.length ≠ 0) .invalidFrame
    Reader.check (isDeltaFrame e item) .invalidFrame
    let items ← itemsReader e maxBytes count (total + item.length)
    return item :: items

theorem unbroken_itemsReader : Reader.Unbroken (itemsReader e maxBytes count total) := by
  induction count generalizing total with
  | zero => exact .pure
  | succ count ih =>
    exact Payload.unbroken_readBytes.bind fun _ => .check_bind fun _ => .check_bind fun _ => ih.bind fun _ => .pure

/-- The limits are in the range that the decoder can check. -/
def Guarded (n : IntSize) (maxItems maxBytes : Int) : Prop :=
  maxItems ≤ (n.max - 4 - 10) / 10 ∧ maxBytes ≤ n.max - 4 - 10 - maxItems * 10

theorem check_bind_congr {ε α : Type} {c : Bool} {err : ε} {f g : Unit → Checked ε α} (h : c = true → f () = g ()) :
    (check c err >>= f) = check c err >>= g := by
  cases c with
  | false => rfl
  | true => exact h rfl

/-- No sum of the decoder leaves the `int`s. -/
theorem checkLimits_spec (n : IntSize) (length : Nat) (maxItems maxBytes : Int) :
    checkLimits n length maxItems maxBytes ≠ .broken ∧ (checkLimits n length maxItems maxBytes = .ok () ↔
      (0 < maxItems ∧ 0 < maxBytes ∧ 4 ≤ length) ∧ Guarded n maxItems maxBytes ∧
        length ≤ maxBytes + 14 + maxItems * 10) := by
  have heq : checkLimits n length maxItems maxBytes = (do
      check (!(maxItems ≤ 0 || maxBytes ≤ 0 || length < 4)) .limit
      check (maxItems ≤ (n.max - 4 - 10) / 10) .limit
      check (maxBytes ≤ n.max - 4 - 10 - maxItems * 10) .limit
      check (length ≤ maxBytes + 14 + maxItems * 10) .limit) := by
    have hge := n.max_ge
    refine check_bind_congr fun hpos => check_bind_congr fun hitems => ?_
    simp at hpos hitems
    have hlengths : n.add (maxItems * 10) 0 = some (maxItems * 10) := by
      rw [IntSize.add_eq (by omega) le_rfl (by omega), add_zero]
    rw [hlengths, unbroken_some, ok_bind, IntSize.sub_eq (by omega) (by omega) (by omega), unbroken_some, ok_bind]
    refine check_bind_congr fun hmost => ?_
    have hroom : n.sum [maxBytes, 4, 10, maxItems * 10] = some (maxBytes + 14 + maxItems * 10) := by
      simp at hmost
      rw [IntSize.sum_eq (by simp; omega), if_pos (by simp; omega)]
      simp
      omega
    rw [hroom, unbroken_some, ok_bind]
  rw [heq]
  refine ⟨check_bind_ne_broken fun _ => check_bind_ne_broken fun _ => check_bind_ne_broken fun _ => ?_, ?_⟩
  · simp
  · simp [check_bind_eq_ok_iff, Guarded, and_assoc]

variable (hbytes : maxBytes ≤ e.intSize.max)
include hbytes

theorem validateItems_eq_ok_iff (h0 : 0 ≤ total) (hle : total ≤ maxBytes) :
    validateItems e maxBytes items total = .ok () ↔ Fits e items (maxBytes - total) := by
  induction items generalizing total with
  | nil => exact iff_of_true rfl (by rw [Fits]; omega)
  | cons item items ih =>
    rw [validateItems, IntSize.sub_eq h0 hle hbytes, unbroken_some, ok_bind, validateBatchItem, bind_assoc,
      check_bind_eq_ok_iff, check_bind_eq_ok_iff, Fits, sub_sub]
    constructor
    · intro ⟨hlen, hdelta, h⟩
      simp at hlen
      rw [IntSize.add_eq h0 (by omega) (by omega), unbroken_some, ok_bind] at h
      exact ⟨⟨hlen.1, hdelta⟩, (ih (by omega) (by omega)).mp h⟩
    intro ⟨⟨hne, hdelta⟩, h⟩
    have := h.bytes
    rw [IntSize.add_eq h0 (by omega) (by omega), unbroken_some, ok_bind]
    refine ⟨?_, hdelta, (ih (by omega) (by omega)).mpr h⟩
    simp [hne]
    omega

theorem inverts_itemsReader (h0 : 0 ≤ total) (hle : total ≤ maxBytes) :
    Reader.Inverts (itemsReader e maxBytes count total) (flatMap appendBytes) fun items =>
      items.length = count ∧ Fits e items (maxBytes - total) := by
  induction count generalizing total with
  | zero =>
    intro data items rest
    rw [itemsReader, Reader.pure_eq_ok_iff]
    constructor
    · intro ⟨hitems, hdata⟩
      rw [← hitems]
      exact ⟨⟨rfl, show 0 ≤ maxBytes - total by omega⟩, hdata⟩
    intro ⟨⟨hlen, _⟩, hdata⟩
    rw [length_eq_zero_iff.mp hlen] at hdata ⊢
    exact ⟨rfl, hdata⟩
  | succ count ih =>
    intro data items rest
    rw [itemsReader, (inverts_readBytes (by omega) _).bind_eq_ok_iff]
    constructor
    · intro ⟨item, left, hlen, hdata, h⟩
      obtain ⟨hne, h⟩ := Reader.check_bind_eq_ok_iff.mp h
      obtain ⟨hdelta, h⟩ := Reader.check_bind_eq_ok_iff.mp h
      obtain ⟨later, left', ⟨hcount, hfits⟩, hleft, h⟩ := (ih (by omega) (by omega)).bind_eq_ok_iff.mp h
      obtain ⟨hitems, hrest⟩ := Reader.pure_eq_ok_iff.mp h
      rw [← hitems, hdata, hleft, hrest, flatMap_cons, append_assoc]
      rw [← sub_sub] at hfits
      exact ⟨⟨congrArg (· + 1) hcount, ⟨by simpa using hne, hdelta⟩, hfits⟩, rfl⟩
    intro ⟨⟨hcount, hfits⟩, hdata⟩
    cases items with
    | nil => cases hcount
    | cons item items =>
      obtain ⟨⟨hne, hdelta⟩, hfits⟩ := hfits
      have := hfits.bytes
      rw [sub_sub] at hfits
      rw [flatMap_cons, append_assoc] at hdata
      refine ⟨item, _, by omega, hdata, Reader.check_bind_eq_ok_iff.mpr ⟨by simpa using hne, ?_⟩⟩
      refine Reader.check_bind_eq_ok_iff.mpr ⟨hdelta, (ih (by omega) (by omega)).bind_eq_ok_iff.mpr ?_⟩
      exact ⟨items, rest, ⟨Nat.succ.inj hcount, hfits⟩, rfl, rfl⟩

variable (hdata : (data.length : Int) ≤ e.intSize.max)
include hdata

theorem readItems_eq (hp : p ≤ data.length) (h0 : 0 ≤ total) (hle : total ≤ maxBytes) :
    readItems e data maxBytes count p total = (do
      let (items, rest) ← itemsReader e maxBytes count total (data.drop p)
      return (items, ((data.length - rest.length : Nat) : Int))) := by
  induction count generalizing p total with
  | zero =>
    rw [readItems, itemsReader, Reader.pure_apply, ok_bind]
    dsimp only
    rw [length_drop, Nat.sub_sub_self hp]
  | succ count ih =>
    rw [readItems, IntSize.sub_eq h0 hle hbytes, unbroken_some, ok_bind, readBytes_eq hp hdata (by omega),
      itemsReader, Reader.bind_apply]
    cases hread : readBytesOr e.intSize (maxBytes - total) Wire.Err.invalidFrame (data.drop p) with
    | error err => rfl
    | broken => rfl
    | ok r =>
      obtain ⟨item, rest⟩ := r
      obtain ⟨hlen, hrest⟩ := (inverts_readBytes (by omega) _ _ _ _).mp hread
      simp only [ok_bind, pure_eq]
      rw [IntSize.add_eq h0 (by omega) (by omega), unbroken_some, ok_bind, ih (Nat.sub_le _ _) (by omega) (by omega),
        drop_of_append hrest]
      cases decide (item.length ≠ 0) with
      | false => rfl
      | true =>
        cases isDeltaFrame e item with
        | false => rfl
        | true => cases hitems : itemsReader e maxBytes count (total + item.length) rest <;>
            simp [Reader.bind_apply, Reader.check, hitems, Reader.pure_apply, - bind_pure_comp]

/-- The batch behind its magic bytes, without positions. -/
def batchReader (e : Env) (maxAlloc : Int) (data : List UInt8) (maxItems maxBytes : Int) :
    Checked Wire.Err Batch := do
  let (count, rest) ← ofOption (Uvarint.read (data.drop 4)) .invalidFrame
  check (count.toNat ≤ maxItems) .invalidFrame
  make maxAlloc (count.toNat * headerBytes e.intSize)
  let (items, left) ← itemsReader e maxBytes count.toNat 0 rest
  check (data.length - left.length = data.length) .invalidFrame
  return ⟨items⟩

theorem readBatch_spec (hmagic : data.take 4 = batchMagic) (h0 : 0 ≤ maxBytes) (hmax : maxItems ≤ e.intSize.max) :
    (maxItems * headerBytes e.intSize ≤ maxAlloc → readBatch e maxAlloc data maxItems maxBytes ≠ .broken) ∧
    ∀ b, readBatch e maxAlloc data maxItems maxBytes = .ok b ↔ (b.items.length : Int) ≤ maxItems ∧
      Grants maxAlloc (b.items.length * headerBytes e.intSize) ∧ Fits e b.items maxBytes ∧ data = b.envelope := by
  have hsplit : data = batchMagic ++ data.drop 4 := by rw [← hmagic, take_append_drop]
  have h4 : 4 ≤ data.length := by
    have := congrArg List.length hmagic
    simp [batchMagic] at this
    omega
  have hread : readBatch e maxAlloc data maxItems maxBytes = batchReader e maxAlloc data maxItems maxBytes := by
    refine read_step (p := 4) h4 hdata fun count rest q hq hrest => ?_
    dsimp only
    rw [readItems_eq hbytes hdata hq le_rfl h0, hrest, bind_assoc]
    simp
  rw [hread, batchReader]
  constructor
  · intro halloc
    refine ofOption_bind_ne_broken fun r _ => check_bind_ne_broken fun hle => bind_ne_broken ?_ fun _ _ =>
      bind_ne_broken (unbroken_itemsReader r.2) fun _ _ => check_bind_ne_broken fun _ => by simp
    have hpos : 0 ≤ headerBytes e.intSize := by cases e.intSize <;> decide
    exact make_ne_broken_iff.mpr ⟨Int.mul_nonneg (Int.natCast_nonneg _) hpos,
      (Int.mul_le_mul_of_nonneg_right (of_decide_eq_true hle) hpos).trans halloc⟩
  intro b
  simp only [bind_eq_ok_iff, ofOption_eq_ok_iff, check_eq_ok_iff, make_eq_ok_iff, exists_const, Prod.exists,
    Uvarint.read_eq_some_iff, inverts_itemsReader hbytes le_rfl h0 _ _ _, decide_eq_true_eq, pure_eq, ok.injEq, sub_zero]
  constructor
  · rintro ⟨count, rest, hrest, hle, hmake, items, left, ⟨⟨hcount, hfits⟩, hleft⟩, hend, rfl⟩
    have hlen := congrArg List.length hsplit
    rw [hrest, hleft] at hlen
    simp only [length_append] at hlen
    obtain rfl : left = [] := length_eq_zero_iff.mp (by omega)
    refine ⟨by rw [hcount]; exact hle, by rw [hcount]; exact hmake, hfits, ?_⟩
    rw [hsplit, hrest, hleft, Batch.envelope, lengthAsUint64_of_toNat hcount.symm, append_nil, append_assoc]
  rintro ⟨hle, hmake, hfits, henv⟩
  have hlength : (lengthAsUint64 b.items.length).toNat = b.items.length :=
    lengthAsUint64_toNat (by have := e.intSize.max_lt; omega)
  have hrest : data.drop 4 = Uvarint.put (lengthAsUint64 b.items.length) ++ b.items.flatMap appendBytes := by
    rw [henv, Batch.envelope, append_assoc]
    rfl
  exact ⟨_, _, hrest, by rwa [hlength], by rwa [hlength], b.items, [],
    ⟨⟨hlength.symm, hfits⟩, by rw [append_nil]⟩, by simp, rfl⟩

theorem unmarshalBatch_spec (maxAlloc : Int) (hmax : maxItems ≤ e.intSize.max) :
    (maxItems * headerBytes e.intSize ≤ maxAlloc → unmarshalBatch e maxAlloc data maxItems maxBytes ≠ .broken) ∧
    ∀ b, unmarshalBatch e maxAlloc data maxItems maxBytes = .ok b ↔ (0 < maxItems ∧ 0 < maxBytes) ∧
      Guarded e.intSize maxItems maxBytes ∧ (b.items.length : Int) ≤ maxItems ∧
      Grants maxAlloc (b.items.length * headerBytes e.intSize) ∧ Fits e b.items maxBytes ∧ data = b.envelope := by
  obtain ⟨hsafe, hlimits⟩ := checkLimits_spec e.intSize data.length maxItems maxBytes
  have hslice : 4 ≤ data.length → slice data 0 4 = some (data.take 4) := slice_take
  constructor
  · refine fun halloc => bind_ne_broken hsafe fun _ h => ?_
    obtain ⟨⟨_, h0, h4⟩, _⟩ := hlimits.mp h
    rw [hslice h4, unbroken_some, ok_bind]
    refine check_bind_ne_broken fun hmagic => mapError_eq_broken_iff.not.mpr ?_
    exact (readBatch_spec hbytes hdata (of_decide_eq_true hmagic) h0.le hmax).1 halloc
  intro b
  rw [unmarshalBatch, bind_eq_ok_iff, Unique.exists_iff]
  constructor
  · intro ⟨h, hread⟩
    obtain ⟨⟨hitems, h0, h4⟩, hguard, _⟩ := hlimits.mp h
    rw [hslice h4, unbroken_some, ok_bind, check_bind_eq_ok_iff, mapError_eq_ok_iff] at hread
    obtain ⟨hmagic, hread⟩ := hread
    exact ⟨⟨hitems, h0⟩, hguard, ((readBatch_spec hbytes hdata (of_decide_eq_true hmagic) h0.le hmax).2 b).mp hread⟩
  intro ⟨⟨hitems, h0⟩, hguard, hle, hmake, hfits, henv⟩
  have hlen := length_envelope_le (b := b)
  have := hfits.bytes
  rw [← henv] at hlen
  have hmagic : data.take 4 = batchMagic := by rw [henv]; rfl
  have h4 : 4 ≤ data.length := by
    rw [henv, Batch.envelope, append_assoc, length_append]
    exact Nat.le_add_right _ _
  refine ⟨hlimits.mpr ⟨⟨hitems, h0, h4⟩, hguard, by omega⟩, ?_⟩
  rw [hslice h4, unbroken_some, ok_bind, check_bind_eq_ok_iff, mapError_eq_ok_iff]
  exact ⟨decide_eq_true hmagic, ((readBatch_spec hbytes hdata hmagic h0.le hmax).2 b).mpr ⟨hle, hmake, hfits, henv⟩⟩

omit hdata in
theorem marshalBinary_eq_ok_iff : b.marshalBinary e maxAlloc maxBytes = .ok data ↔
    0 < maxBytes ∧ Fits e b.items maxBytes ∧ Grants maxAlloc (b.capacity e.intSize) ∧ data = b.envelope := by
  rw [Batch.marshalBinary, check_bind_eq_ok_iff, bind_eq_ok_iff, Unique.exists_iff, bind_eq_ok_iff, Unique.exists_iff]
  simp only [Bool.not_eq_true', decide_eq_false_iff_not, not_le]
  refine and_congr_right fun h0 => ?_
  rw [validateItems_eq_ok_iff hbytes le_rfl h0.le, sub_zero]
  refine and_congr_right fun _ => and_congr make_eq_ok_iff ?_
  rw [pure_eq, ok.injEq, eq_comm]

end

/-- The batch that was encoded is decoded with any limits that can be checked, if that for the items is positive and
there is room for the items. Bytes that are decoded are encoded again, with the same bytes, exactly if `make` grants
the capacity. The decoder, and that of the frames, stays within the data and the `int`s, and its batches within the
limit; it breaks only if the items it may read are more than `make` has room for. -/
theorem batch_codec (maxAlloc : Int) (b : Batch) (data : List UInt8) (maxItems maxBytes : Int)
    (hdata : (data.length : Int) ≤ e.intSize.max) (hitems : maxItems ≤ e.intSize.max)
    (hbytes : maxBytes ≤ e.intSize.max) :
    (b.marshalBinary e maxAlloc maxBytes = .ok data → (b.items.length : Int) ≤ maxItems →
      Guarded e.intSize maxItems maxBytes → (unmarshalBatch e maxAlloc data maxItems maxBytes = .ok b ↔
        0 < maxItems ∧ Grants maxAlloc (b.items.length * headerBytes e.intSize))) ∧
    (unmarshalBatch e maxAlloc data maxItems maxBytes = .ok b →
      (b.marshalBinary e maxAlloc maxBytes = .ok data ↔ Grants maxAlloc (b.capacity e.intSize)) ∧
        (b.items.flatten.length : Int) ≤ maxBytes) ∧
    (unmarshalBatch e maxAlloc data maxItems maxBytes = .broken → maxAlloc < maxItems * headerBytes e.intSize) ∧
    ∀ item, unmarshalFrame e item .default ≠ .broken := by
  obtain ⟨hsafe, hdecoded⟩ := unmarshalBatch_spec hbytes hdata maxAlloc hitems
  rw [marshalBinary_eq_ok_iff hbytes, hdecoded]
  refine ⟨fun ⟨h0, hfits, _, henv⟩ hle hguard => ?_, fun ⟨⟨_, h0⟩, _, _, _, hfits, henv⟩ => ⟨?_, hfits.bytes⟩,
    fun hbroken => ?_, fun _ => unmarshalFrame_ne_broken (Limits.default_fit _)⟩
  · exact ⟨fun h => ⟨h.1.1, h.2.2.2.1⟩, fun ⟨h, hmake⟩ => ⟨⟨h, h0⟩, hguard, hle, hmake, hfits, henv⟩⟩
  · exact ⟨fun h => h.2.2.1, fun h => ⟨h0, hfits, h, henv⟩⟩
  · exact not_le.mp fun halloc => hsafe halloc hbroken

/-- A delta frame with an empty payload. -/
def emptyDelta : List UInt8 := [67, 82, 68, 84, 1, 3, 0, 1, 9, 0, 0, 0, 0]

/-- Two frames, and back again, on 64 bits with 2^48 bytes to give. -/
theorem batch_codec_two_deltas : let e := plainEnv .bits64
    let b : Batch := ⟨[emptyDelta, emptyDelta]⟩
    unmarshalBatch e 281474976710656 b.envelope 2 100 = .ok b ∧
      b.marshalBinary e 281474976710656 100 = .ok b.envelope ∧ b.items.flatten.length = 26 := by
  intro e b
  have h := batch_codec e 281474976710656 b b.envelope 2 100 (by decide +kernel) (by decide) (by decide)
  have hdecoded := (h.1 (by decide +kernel) (by decide) (by unfold Guarded; decide)).mpr (by decide +kernel)
  exact ⟨hdecoded, (h.2.1 hdecoded).1.mpr (by decide +kernel), by decide⟩

theorem fits_replicate (k : Nat) : Fits (plainEnv .bits32) (replicate k emptyDelta) (k * 13) := by
  induction k with
  | zero => simp [Fits]
  | succ k ih =>
    refine ⟨⟨by decide, by decide +kernel⟩, ?_⟩
    have : ((k + 1 : Nat) : Int) * 13 - emptyDelta.length = k * 13 := by simp [emptyDelta]; omega
    rwa [this]

/-- Ten thousand frames of 13 bytes: 10000 times 230000 is no `int` of 32 bits. -/
theorem capacity_wraps : ∃ b : Batch, unmarshalBatch (plainEnv .bits32) 4294967296 b.envelope 10000 130000 = .ok b ∧
      b.marshalBinary (plainEnv .bits32) 4294967296 130000 = .broken := by
  -- the number is kept out of the terms
  obtain ⟨k, hk⟩ : ∃ k : Nat, k = 10000 := ⟨_, rfl⟩
  have hfits : Fits (plainEnv .bits32) (replicate k emptyDelta) 130000 := by
    have := fits_replicate k
    rwa [hk] at this ⊢
  refine ⟨⟨replicate k emptyDelta⟩, ((unmarshalBatch_spec (by decide) ?_ _ (by decide)).2 _).mpr ?_, ?_⟩
  · have hbytes := hfits.bytes
    refine length_envelope_le.trans ?_
    rw [length_replicate]
    change 14 + (k : Int) * 10 + (replicate k emptyDelta).flatten.length ≤ 2147483647
    omega
  · refine ⟨by decide, by unfold Guarded; decide, ?_, ?_, hfits, rfl⟩ <;> rw [length_replicate, hk]
    · rfl
    · decide
  have hcap : Batch.capacity .bits32 ⟨replicate k emptyDelta⟩ < 0 := by
    rw [Batch.capacity, frameByteOverhead, map_replicate, sum_replicate, length_replicate, hk]
    decide
  rw [Batch.marshalBinary, (validateItems_eq_ok_iff (by decide) le_rfl (by decide)).mpr hfits]
  have hmake : make 4294967296 (Batch.capacity .bits32 ⟨replicate k emptyDelta⟩) = (.broken : Checked Err Unit) :=
    if_neg fun h => absurd h.1 (not_le.mpr hcap)
  exact congrArg (· >>= fun _ => _) hmake

end Crdt.Delta
