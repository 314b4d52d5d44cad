import Crdt.Wire.Frame

/-! Frames are read in range.

The decoder keeps a position in the bytes. `parse` does the same work on what is left of them, with
no positions and no slices. For every input the decoder is `parse` (`unmarshalFrame_eq`): no slice
is out of range and no sum leaves the `int`s, as long as the limit for a frame is an `int`. -/
namespace Crdt.Wire

open Checked List IntSize

variable {n : IntSize} {e : Env} {limits : Limits} {data rest : List UInt8} {p : Nat} {parts : List Int}
  {a b : Int} {α : Type}

/-! ### Integers and slices -/

theorem IntSize.max_ge (n : IntSize) : 2147483647 ≤ n.max := by
  cases n <;> decide

theorem IntSize.max_lt (n : IntSize) : n.max < 2 ^ 63 := by
  cases n <;> decide

theorem IntSize.add_eq (ha : 0 ≤ a) (hb : 0 ≤ b) (h : a + b ≤ n.max) : n.add a b = some (a + b) :=
  if_pos ⟨by have := n.max_ge; omega, h⟩

theorem IntSize.sub_eq (hb : 0 ≤ b) (hle : b ≤ a) (h : a ≤ n.max) : n.sub a b = some (a - b) :=
  if_pos ⟨by have := n.max_ge; omega, by omega⟩

theorem foldlM_add_eq (ha : 0 ≤ a) (hmax : a ≤ n.max) (hparts : ∀ x ∈ parts, 0 ≤ x) :
    parts.foldlM n.add a = if a + parts.sum ≤ n.max then some (a + parts.sum) else none := by
  induction parts generalizing a with
  | nil => simp [hmax]
  | cons x parts ih =>
    obtain ⟨hx, hparts⟩ := forall_mem_cons.mp hparts
    have hsum : 0 ≤ parts.sum := sum_nonneg hparts
    rw [foldlM_cons, sum_cons, add]
    by_cases hle : a + x ≤ n.max
    · have hrange : -n.max - 1 ≤ a + x ∧ a + x ≤ n.max := ⟨by omega, hle⟩
      rw [if_pos hrange]
      simp only [Option.bind_eq_bind, Option.bind_some]
      rw [ih (by omega) hle hparts, add_assoc]
    · rw [if_neg fun h => hle h.2, if_neg (by omega)]
      rfl

theorem IntSize.sum_eq (hparts : ∀ x ∈ parts, 0 ≤ x) :
    n.sum parts = if parts.sum ≤ n.max then some parts.sum else none := by
  have := foldlM_add_eq (n := n) le_rfl (by have := n.max_ge; omega) hparts
  simpa [sum] using this

theorem slice_eq {low high : Nat} (hle : low ≤ high) (hhigh : high ≤ data.length) :
    slice data low high = some ((data.drop low).take (high - low)) := by
  rw [slice, if_pos ⟨by omega, by omega, by omega⟩]
  congr 2
  omega

theorem slice_drop {low : Nat} (hlow : low ≤ data.length) :
    slice data low data.length = some (data.drop low) := by
  rw [slice_eq hlow le_rfl, take_of_length_le (by simp)]

theorem slice_take {high : Nat} (hhigh : high ≤ data.length) : slice data 0 high = some (data.take high) := by
  have : slice data (0 : Nat) high = _ := slice_eq (Nat.zero_le high) hhigh
  simpa using this

theorem uint64AsInt_eq (value : UInt64) :
    uint64AsInt n value = if (value.toNat : Int) ≤ n.max then some (value.toNat : Int) else none := by
  unfold uint64AsInt
  split_ifs <;> first | rfl | omega

/-! ### Positions -/

/-- At a position the reader sees what is left from there on. -/
theorem readUvarint_eq (hp : p ≤ data.length) (hmax : (data.length : Int) ≤ n.max) :
    readUvarint n data p = .ok ((Uvarint.read (data.drop p)).map fun r =>
      (r.1, ((data.length - r.2.length : Nat) : Int))) := by
  unfold readUvarint
  rcases Nat.lt_or_ge p data.length with hlt | hge
  · rw [if_neg (by omega), slice_drop hp, unbroken_some, ok_bind]
    rcases hg : Uvarint.get (data.drop p) with ⟨value, count⟩
    have hread : Uvarint.read (data.drop p) = if count ≤ 0 then none
        else if (Uvarint.size value : Int) ≠ count then none
        else some (value, (data.drop p).drop count.toNat) := by
      simp only [Uvarint.read, hg]
    dsimp only
    split_ifs at hread ⊢ with hc hs
    · rw [hread]
      rfl
    · rw [hread]
      rfl
    have hlen := Uvarint.read_length hread
    rw [length_drop] at hlen
    rw [add_eq (by omega) (by omega) (by omega), unbroken_some, ok_bind, hread]
    simp only [pure_eq, Option.map_some, length_drop, ok.injEq, Option.some.injEq, Prod.mk.injEq, true_and]
    omega
  · have hp' : p = data.length := by omega
    rw [if_pos (.inr (by omega)), hp', drop_length]
    rfl

theorem read_drop {value : UInt64} (h : Uvarint.read (data.drop p) = some (value, rest)) :
    data.drop (data.length - rest.length) = rest := by
  have hlen := Uvarint.read_length h
  have heq := Uvarint.read_eq_some_iff.mp h
  rw [length_drop] at hlen
  have hdrop : data.drop (p + Uvarint.size value) = rest := by
    rw [← drop_drop, heq]
    exact drop_left
  have hpos := Uvarint.size_pos value
  have hnext : data.length - rest.length = p + Uvarint.size value := by omega
  rw [hnext, hdrop]

/-! ### Without positions -/

/-- What is left of a frame of version 2 behind the codec. -/
def parseV2 (e : Env) (typeID : UInt64) (codecID rest : List UInt8) (limits : Limits) : Checked Err Frame := do
  let (mode, rest) ← ofOption (Uvarint.read rest) .invalidFrame
  check (mode = v2PayloadRaw || mode = v2PayloadDeflate) .invalidFrame
  let (rawLength, rest) ← ofOption (Uvarint.read rest) .frameLimit
  check (rawLength.toNat ≤ limits.maxPayload) .frameLimit
  let (encodedLength, encoded) ← ofOption (Uvarint.read rest) .frameLimit
  check (encodedLength.toNat = encoded.length) .frameLimit
  if mode = v2PayloadRaw then do
    check (rawLength = encodedLength) .invalidFrame
    return ⟨typeID, codecID, encoded, formatVersionV2⟩
  else do
    let payload ← inflatePayload e encoded rawLength.toNat
    return ⟨typeID, codecID, payload, formatVersionV2⟩

/-- What is left behind the codec. -/
def parsePayload (e : Env) (limits : Limits) (version typeID : UInt64) (codecID rest : List UInt8) :
    Checked Err Frame :=
  if version = formatVersion then do
    let (payloadLength, payload) ← ofOption (Uvarint.read rest) .frameLimit
    check (payloadLength.toNat ≤ limits.maxPayload && payloadLength.toNat = payload.length) .frameLimit
    return {typeID, codecID, payload}
  else parseV2 e typeID codecID rest limits

def parse (e : Env) (data : List UInt8) (limits : Limits) : Checked Err Frame := do
  check (limits.valid && data.length ≤ limits.maxFrameBytes && data.length ≥ 9) .frameLimit
  check (data.take 4 = magic) .invalidFrame
  let body := data.take (data.length - 4)
  check (getUint32 (data.drop (data.length - 4)) = some (e.checksum (body.drop 4))) .invalidFrame
  let (version, rest) ← ofOption (Uvarint.read (body.drop 4)) .invalidFrame
  check (version = formatVersion || version = formatVersionV2) .invalidFrame
  let (typeID, rest) ← ofOption (Uvarint.read rest) .invalidFrame
  check (typeID ≠ 0) .invalidFrame
  let (codecLength, rest) ← ofOption (Uvarint.read rest) .frameLimit
  check (codecLength.toNat ≤ limits.maxCodecID && codecLength.toNat ≤ rest.length) .frameLimit
  parsePayload e limits version typeID (rest.take codecLength.toNat) (rest.drop codecLength.toNat)

theorem read_step {err : Err} {k : UInt64 × Int → Checked Err α}
    {k' : UInt64 × List UInt8 → Checked Err α} (hp : p ≤ data.length) (hmax : (data.length : Int) ≤ n.max)
    (h : ∀ value rest q, q ≤ data.length → data.drop q = rest → k (value, (q : Int)) = k' (value, rest)) :
    (do
      let r ← readUvarint n data p let r ← ofOption r err
      k r) = ofOption (Uvarint.read (data.drop p)) err >>= k' := by
  rw [readUvarint_eq hp hmax]
  cases hr : Uvarint.read (data.drop p) with
  | none => rfl
  | some r =>
    obtain ⟨value, rest⟩ := r
    exact h value rest _ (Nat.sub_le _ _) (read_drop hr)

/-- The limits are `int`s. -/
structure Limits.Fit (l : Limits) (n : IntSize) : Prop where
  maxFrameBytes : l.maxFrameBytes ≤ n.max
  maxPayload : l.maxPayload ≤ n.max
  maxCodecID : l.maxCodecID ≤ n.max
  maxElements : l.maxElements ≤ n.max
  maxTags : l.maxTags ≤ n.max
  maxStringBytes : l.maxStringBytes ≤ n.max

theorem unmarshalFrameV2_eq {body codecID : List UInt8} {typeID : UInt64} (hp : p ≤ body.length)
    (hmax : (body.length : Int) ≤ e.intSize.max) (hpos : 0 ≤ limits.maxPayload)
    (hpayload : limits.maxPayload ≤ e.intSize.max) :
    unmarshalFrameV2 e body typeID codecID p limits = parseV2 e typeID codecID (body.drop p) limits := by
  refine read_step hp hmax fun mode rest q hq hrest => ?_
  subst hrest
  dsimp only
  refine congrArg _ (funext fun _ => ?_)
  refine read_step hq hmax fun rawLength rest q hq hrest => ?_
  subst hrest
  simp only [hpos, decide_true]
  cases hraw : decide ((rawLength.toNat : Int) ≤ limits.maxPayload) with
  | false => rfl
  | true =>
    have hraw := of_decide_eq_true hraw
    refine read_step hq hmax fun encodedLength rest q hq hrest => ?_
    subst hrest
    rw [sub_eq (by omega) (by omega) hmax, unbroken_some, ok_bind, slice_drop hq, unbroken_some,
      length_drop, uint64AsInt_eq, if_pos (by omega), ofOption_some, ok_bind, ok_bind]
    have hremaining : (0 : Int) ≤ body.length - q := by omega
    have hsame : ((encodedLength.toNat : Int) = body.length - q) = (encodedLength.toNat = body.length - q) :=
      propext (by omega)
    simp only [hremaining, decide_true, Bool.true_and, hsame]

/-- A slice that ends before the checksum is one of the body. -/
theorem slice_body {m low high : Nat} (hm : m ≤ data.length) (hle : low ≤ high) (hhigh : high ≤ m) :
    slice data low high = some (((data.take m).drop low).take (high - low)) := by
  rw [slice_eq hle (hhigh.trans hm), drop_take, take_take, min_eq_left (by omega)]

/-- The step of the decoder that takes the codec ID, whose length it has read. -/
theorem codec_step {m q : Nat} {length : UInt64} {bound : Int} {err : Err}
    {k : List UInt8 → Int → Checked Err α} {k' : List UInt8 → List UInt8 → Checked Err α}
    (hm : m ≤ data.length) (hq : q ≤ m) (hmax : (m : Int) ≤ n.max)
    (h : ∀ codecID (p : Nat), p ≤ m → k codecID p = k' codecID ((data.take m).drop p)) : (do
      let lengthInt ← ofOption (uint64AsInt n length) err let remaining ← unbroken (n.sub m q)
      check (lengthInt ≤ bound && lengthInt ≤ remaining) err
      let codecEnd ← unbroken (n.add q lengthInt) let codecID ← unbroken (slice data q codecEnd)
      k codecID codecEnd) = (do
      check (length.toNat ≤ bound && length.toNat ≤ ((data.take m).drop q).length) err
      k' (((data.take m).drop q).take length.toNat) (((data.take m).drop q).drop length.toNat)) := by
  have hlen : ((data.take m).drop q).length = m - q := by
    rw [length_drop, length_take, min_eq_left hm]
  have hroom : decide ((length.toNat : Int) ≤ (m : Int) - q) = decide (length.toNat ≤ m - q) :=
    decide_eq_decide.mpr (by omega)
  rw [uint64AsInt_eq, sub_eq (by omega) (by omega) hmax, unbroken_some, hlen]
  by_cases hint : (length.toNat : Int) ≤ n.max
  · rw [if_pos hint, ofOption_some, ok_bind, ok_bind, hroom]
    cases hfit : decide ((length.toNat : Int) ≤ bound) && decide (length.toNat ≤ m - q) with
    | false => rfl
    | true =>
      have hle : length.toNat ≤ m - q := of_decide_eq_true (Bool.and_eq_true_iff.mp hfit).2
      have hslice : slice data q (q + length.toNat : Nat) = _ := slice_body hm (by omega) (by omega)
      rw [Nat.add_sub_cancel_left, Nat.cast_add] at hslice
      rw [add_eq (by omega) (by omega) (by omega), unbroken_some, ok_bind, hslice, unbroken_some,
        ok_bind, drop_drop, ← Nat.cast_add]
      exact h _ (q + length.toNat) (by omega)
  · have hnot : decide (length.toNat ≤ m - q) = false := decide_eq_false (by omega)
    rw [if_neg hint, hnot, Bool.and_false]
    rfl

theorem unmarshalFrame_eq (hl : limits.Fit e.intSize) : unmarshalFrame e data limits = parse e data limits := by
  unfold unmarshalFrame parse
  cases hc : limits.valid && decide ((data.length : Int) ≤ limits.maxFrameBytes) &&
      decide (data.length ≥ 9) with
  | false => rfl
  | true =>
    obtain ⟨⟨hvalid, hle⟩, hge⟩ : (limits.valid = true ∧ (data.length : Int) ≤ limits.maxFrameBytes) ∧
        9 ≤ data.length := by simpa using hc
    have hmax : (data.length : Int) ≤ e.intSize.max := hle.trans hl.maxFrameBytes
    have hpos : 0 ≤ limits.maxPayload := by
      simp only [Limits.valid, Bool.and_eq_true, decide_eq_true_eq] at hvalid
      omega
    have hend : ((data.length : Int) - 4) = ((data.length - 4 : Nat) : Int) := by omega
    have hbody : (data.take (data.length - 4)).length = data.length - 4 := by
      rw [length_take]
      omega
    have hsummed : slice data 4 ((data.length - 4 : Nat) : Int) =
        some ((data.take (data.length - 4)).drop 4) := by
      have : slice data (4 : Nat) (data.length - 4 : Nat) = _ := slice_eq (by omega) (Nat.sub_le _ _)
      rw [drop_take]
      exact this
    have hmagic : slice data 0 4 = some (data.take 4) := slice_take (show 4 ≤ data.length by omega)
    rw [check_true, ok_bind, hmagic, unbroken_some, ok_bind]
    refine congrArg _ (funext fun _ => ?_)
    rw [sub_eq (by omega) (by omega) hmax, unbroken_some, ok_bind, hend,
      slice_drop (by omega), unbroken_some, ok_bind, hsummed, unbroken_some, ok_bind]
    refine congrArg _ (funext fun _ => ?_)
    rw [slice_take (by omega)]
    have hbmax : ((data.take (data.length - 4)).length : Int) ≤ e.intSize.max := by omega
    refine read_step (p := 4) (by omega) hbmax fun version rest q hq hrest => ?_
    subst hrest
    dsimp only
    refine congrArg _ (funext fun _ => ?_)
    refine read_step hq hbmax fun typeID rest q hq hrest => ?_
    subst hrest
    refine congrArg _ (funext fun _ => ?_)
    refine read_step hq hbmax fun codecLength rest q hq hrest => ?_
    subst hrest
    have hm : data.length - 4 ≤ data.length := Nat.sub_le _ _
    have hqm : q ≤ data.length - 4 := hbody ▸ hq
    have hmmax : ((data.length - 4 : Nat) : Int) ≤ e.intSize.max := hbody ▸ hbmax
    refine codec_step hm hqm hmmax fun codecID p hp => ?_
    unfold parsePayload
    by_cases hversion : version = formatVersion
    · rw [if_pos hversion, if_pos hversion]
      refine read_step (by omega) hbmax fun payloadLength rest q hq hrest => ?_
      subst hrest
      dsimp only
      rw [uint64AsInt_eq, sub_eq (by omega) (by omega) (by omega), unbroken_some,
        slice_body (by omega) (by omega) le_rfl, unbroken_some, take_of_length_le (by simp)]
      have hsame : decide ((payloadLength.toNat : Int) = ((data.length - 4 : Nat) : Int) - q) =
          decide (payloadLength.toNat = ((data.take (data.length - 4)).drop q).length) := by
        rw [length_drop]
        exact decide_eq_decide.mpr (by omega)
      by_cases hint : (payloadLength.toNat : Int) ≤ e.intSize.max
      · rw [if_pos hint, ofOption_some, ok_bind, ok_bind, hsame]
        rfl
      have hnot : decide (payloadLength.toNat = ((data.take (data.length - 4)).drop q).length) = false := by
        rw [length_drop]
        exact decide_eq_false (by omega)
      rw [if_neg hint, hnot, Bool.and_false]
      rfl
    · rw [if_neg hversion, if_neg hversion]
      exact unmarshalFrameV2_eq (by omega) hbmax hpos hl.maxPayload

end Crdt.Wire
