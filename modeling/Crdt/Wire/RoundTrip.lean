import Crdt.Wire.Cursor

/-! Frames come back as they went out.

A frame is its header, what follows the codec, and the checksum of both (`sealed`). The decoder
accepts exactly the bytes of this form (`unmarshalFrame_eq_ok_iff`), so that a frame of version 1
has one encoding. Version 2 chooses between two forms of a payload, and both are read back. The
sums of the encoders are another matter: they fit into an `int` exactly when the frame does
(`frame_round_trip`), and the encoder of version 2 adds before it compares
(`v2_size_overflows`). -/
namespace Crdt.Wire

open Checked List IntSize

variable {e : Env} {limits : Limits} {data buf rest codecID payload : List UInt8} {typeID : UInt64}
  {f : Frame} {length : Nat}

/-! ### Checksums -/

def sealed (e : Env) (buf : List UInt8) : List UInt8 := buf ++ putUint32 (e.checksum (buf.drop 4))

@[simp] theorem length_putUint32 (x : UInt32) : (putUint32 x).length = 4 := rfl

theorem getUint32_eq_some_iff {bytes : List UInt8} {x : UInt32} :
    getUint32 bytes = some x ↔ bytes = putUint32 x := by
  constructor
  · intro h
    unfold getUint32 at h
    split at h
    · rename_i a b c d
      obtain rfl := Option.some.inj h
      have ha := a.toNat_lt
      have hb := b.toNat_lt
      have hc := c.toNat_lt
      have hd := d.toNat_lt
      unfold putUint32
      rw [UInt32.toNat_ofNat', Nat.mod_eq_of_lt (by omega)]
      simp only [List.cons.injEq, and_true]
      refine ⟨?_, ?_, ?_, ?_⟩ <;> refine UInt8.toNat_inj.mp ?_ <;> rw [UInt8.toNat_ofNat'] <;> omega
    · cases h
  rintro rfl
  have hx := x.toNat_lt
  unfold putUint32 getUint32
  simp only [UInt8.toNat_ofNat', Option.some.injEq]
  refine UInt32.toNat_inj.mp ?_
  rw [UInt32.toNat_ofNat']
  omega

theorem withChecksum_eq (h : 4 ≤ buf.length) : withChecksum e buf = .ok (sealed e buf) := by
  have : slice buf 4 buf.length = some (buf.drop 4) := slice_drop h
  rw [withChecksum, this]
  rfl

theorem length_sealed : (sealed e buf).length = buf.length + 4 := by
  rw [sealed, length_append, length_putUint32]

theorem take_sealed : (sealed e buf).take ((sealed e buf).length - 4) = buf := by
  rw [length_sealed, Nat.add_sub_cancel, sealed, take_left]

theorem drop_sealed :
    (sealed e buf).drop ((sealed e buf).length - 4) = putUint32 (e.checksum (buf.drop 4)) := by
  rw [length_sealed, Nat.add_sub_cancel, sealed, drop_left]

theorem lengthAsUint64_toNat (h : (length : Int) < 2 ^ 63) : (lengthAsUint64 length).toNat = length := by
  rw [lengthAsUint64, UInt64.toNat_ofNat', Int.toNat_natCast]
  omega

theorem lengthAsUint64_of_toNat {x : UInt64} (h : x.toNat = length) : lengthAsUint64 length = x := by
  rw [lengthAsUint64, Int.toNat_natCast, ← h, UInt64.ofNat_toNat]

theorem length_header (version : UInt64) :
    (header version typeID codecID).length = 4 + Uvarint.size version + Uvarint.size typeID +
      Uvarint.size (lengthAsUint64 codecID.length) + codecID.length := by
  simp only [header, magic, length_append, length_cons, length_nil, Uvarint.size]

theorem four_le_length (version : UInt64) : 4 ≤ (header version typeID codecID ++ rest).length := by
  rw [length_append, length_header]
  omega

/-! ### What is accepted -/

/-- The bytes of a frame, and what the decoder makes of the part behind the codec. -/
structure Accepted (e : Env) (limits : Limits) (data : List UInt8) (version typeID : UInt64)
    (codecID rest : List UInt8) : Prop where
  valid : limits.valid = true
  bounded : (data.length : Int) ≤ limits.maxFrameBytes
  known : version = formatVersion ∨ version = formatVersionV2
  typed : typeID ≠ 0
  codec : (codecID.length : Int) ≤ limits.maxCodecID
  bytes : data = sealed e (header version typeID codecID ++ rest)

theorem parse_eq_ok_iff (hl : limits.Fit e.intSize) :
    parse e data limits = .ok f ↔ ∃ version typeID codecID rest,
      Accepted e limits data version typeID codecID rest ∧
        parsePayload e limits version typeID codecID rest = .ok f := by
  constructor
  · intro h
    unfold parse at h
    simp only [check_bind_eq_ok_iff, ofOption_bind_eq_ok_iff, decide_eq_true_eq, Bool.and_eq_true,
      Bool.or_eq_true, Prod.exists, ge_iff_le] at h
    obtain ⟨⟨⟨hvalid, hbound⟩, hge⟩, hmagic, hsum, version, rest₁, hversion, hv, typeID, rest₂, htype,
      hne, length, rest₃, hlength, ⟨hid, hroom⟩, hpayload⟩ := h
    refine ⟨version, typeID, _, _, ⟨hvalid, hbound, hv, hne, ?_, ?_⟩, hpayload⟩
    · rw [length_take, min_eq_left hroom]
      exact hid
    have hbody : data.take (data.length - 4) = header version typeID (rest₃.take length.toNat) ++
        rest₃.drop length.toNat := by
      have hlen : lengthAsUint64 ((rest₃.take length.toNat).length) = length := by
        rw [length_take, min_eq_left hroom]
        exact lengthAsUint64_of_toNat rfl
      have hstart : (data.take (data.length - 4)).take 4 = magic := by
        rw [take_take, min_eq_left (by omega), hmagic]
      rw [← take_append_drop 4 (data.take (data.length - 4)), hstart,
        Uvarint.read_eq_some_iff.mp hversion, Uvarint.read_eq_some_iff.mp htype,
        Uvarint.read_eq_some_iff.mp hlength, header, hlen]
      simp
    rw [← hbody, sealed, ← getUint32_eq_some_iff.mp hsum, take_append_drop]
  rintro ⟨version, typeID, codecID, rest, ha, hpayload⟩
  have hlen : (header version typeID codecID).length = _ := length_header version
  have hbytes := ha.bytes
  have hsmall : (codecID.length : Int) < 2 ^ 63 :=
    ha.codec.trans_lt (hl.maxCodecID.trans_lt e.intSize.max_lt)
  have hbody : data.take (data.length - 4) = header version typeID codecID ++ rest := by
    rw [hbytes, take_sealed]
  have hlength : data.length = (header version typeID codecID ++ rest).length + 4 := by
    rw [hbytes, length_sealed]
  have hbig : 9 ≤ data.length := by
    have := Uvarint.size_pos version
    have := Uvarint.size_pos typeID
    rw [hlength, length_append, hlen]
    omega
  have hmagic : data.take 4 = magic := by
    have : data.take 4 = (data.take (data.length - 4)).take 4 := by
      rw [take_take, min_eq_left (by omega)]
    rw [this, hbody]
    rfl
  have hsum : getUint32 (data.drop (data.length - 4)) =
      some (e.checksum ((data.take (data.length - 4)).drop 4)) := by
    rw [hbody, hbytes, drop_sealed]
    exact getUint32_eq_some_iff.mpr rfl
  have hrest : (data.take (data.length - 4)).drop 4 = Uvarint.put version ++ (Uvarint.put typeID ++
      (Uvarint.put (lengthAsUint64 codecID.length) ++ (codecID ++ rest))) := by
    rw [hbody]
    simp [header, magic]
  unfold parse
  dsimp only
  rw [hsum, hmagic, hrest, Uvarint.read_put]
  have hv : (decide (version = formatVersion) || decide (version = formatVersionV2)) = true := by
    simpa using ha.known
  simp only [ha.valid, ha.bounded, hbig, decide_true, Bool.and_self, check_true, ok_bind,
    ofOption_some, hv, Uvarint.read_put, ha.typed, ne_eq, not_false_eq_true,
    lengthAsUint64_toNat hsmall, ha.codec, length_append, Nat.le_add_right, take_left, drop_left, hpayload]

theorem unmarshalFrame_eq_ok_iff (hl : limits.Fit e.intSize) :
    unmarshalFrame e data limits = .ok f ↔ ∃ version typeID codecID rest,
      Accepted e limits data version typeID codecID rest ∧
        parsePayload e limits version typeID codecID rest = .ok f := by
  rw [unmarshalFrame_eq hl, parse_eq_ok_iff hl]

/-! ### Format version 1 -/

theorem parsePayload_v1_eq_ok_iff (hl : limits.Fit e.intSize) :
    parsePayload e limits formatVersion typeID codecID rest = .ok f ↔
      ∃ payload : List UInt8, rest = Uvarint.put (lengthAsUint64 payload.length) ++ payload ∧
        (payload.length : Int) ≤ limits.maxPayload ∧ f = {typeID, codecID, payload} := by
  unfold parsePayload
  rw [if_pos rfl]
  simp only [ofOption_bind_eq_ok_iff, check_bind_eq_ok_iff, Prod.exists, Bool.and_eq_true,
    decide_eq_true_eq, pure_eq, ok.injEq]
  constructor
  · rintro ⟨length, payload, hread, ⟨hle, hlen⟩, rfl⟩
    refine ⟨payload, ?_, hlen ▸ hle, rfl⟩
    rw [Uvarint.read_eq_some_iff.mp hread, lengthAsUint64_of_toNat hlen]
  rintro ⟨payload, rfl, hle, rfl⟩
  have hlen := lengthAsUint64_toNat (hle.trans_lt (hl.maxPayload.trans_lt e.intSize.max_lt))
  refine ⟨_, payload, Uvarint.read_put _ _, ⟨?_, hlen⟩, rfl⟩
  rw [hlen]
  exact hle

theorem version_of_parsePayload_v2 (h : parsePayload e limits formatVersionV2 typeID codecID rest = .ok f) :
    f.version = formatVersionV2 := by
  unfold parsePayload parseV2 at h
  rw [if_neg (by decide)] at h
  simp only [ofOption_bind_eq_ok_iff, check_bind_eq_ok_iff, Prod.exists] at h
  obtain ⟨mode, _, -, -, _, _, -, -, _, _, -, -, h⟩ := h
  split_ifs at h
  · obtain ⟨-, h⟩ := check_bind_eq_ok_iff.mp h
    cases h
    rfl
  obtain ⟨_, -, h⟩ := bind_eq_ok_iff.mp h
  cases h
  rfl

/-- The bytes of a frame of version 1. -/
def v1Bytes (e : Env) (typeID : UInt64) (codecID payload : List UInt8) : List UInt8 :=
  sealed e (header formatVersion typeID codecID ++ (Uvarint.put (lengthAsUint64 payload.length) ++ payload))

theorem length_v1Bytes : ((v1Bytes e typeID codecID payload).length : Int) =
    (envelopeParts typeID codecID payload.length).sum + payload.length := by
  simp only [v1Bytes, length_sealed, length_append, length_header, envelopeParts, sum_cons,
    sum_nil, Uvarint.size]
  push_cast
  ring

theorem envelopeParts_nonneg {payloadLength : Int} : ∀ x ∈ envelopeParts typeID codecID payloadLength, 0 ≤ x := by
  simp only [envelopeParts, forall_mem_cons]
  refine ⟨by omega, by omega, by omega, by omega, by omega, by omega, by omega, by simp⟩

variable {w : Int → Except Err (List UInt8)}

/-- What the encoder of version 1 does: it fails before the payload is written, or frames it. -/
theorem marshalFrame_eq (hl : limits.Fit e.intSize) (hw : w payload.length = .ok payload) :
    marshalFrameWithPayloadAndLimits e typeID codecID payload.length limits w =
      if validFrameV2Input typeID codecID payload.length limits = false then .error .frameLimit
      else if (envelopeParts typeID codecID payload.length).sum ≤ e.intSize.max then
        if ((v1Bytes e typeID codecID payload).length : Int) ≤ limits.maxFrameBytes then
          .ok (v1Bytes e typeID codecID payload)
        else .error .frameLimit
      else .broken := by
  have hnonneg : 0 ≤ (envelopeParts typeID codecID payload.length).sum := sum_nonneg envelopeParts_nonneg
  unfold marshalFrameWithPayloadAndLimits
  change (check (validFrameV2Input typeID codecID payload.length limits) Err.frameLimit >>= _) = _
  cases hvalid : validFrameV2Input typeID codecID payload.length limits with
  | false => rfl
  | true =>
    rw [check_true, ok_bind, if_neg (by decide), sum_eq envelopeParts_nonneg]
    by_cases hfit : (envelopeParts typeID codecID payload.length).sum ≤ e.intSize.max
    · rw [if_pos hfit, if_pos hfit, unbroken_some, ok_bind, length_v1Bytes]
      by_cases hle : (envelopeParts typeID codecID payload.length).sum ≤ limits.maxFrameBytes
      · have hmax := hl.maxFrameBytes
        rw [decide_eq_true hle, check_true, ok_bind, sub_eq hnonneg hle hl.maxFrameBytes,
          unbroken_some, ok_bind]
        by_cases hroom : (payload.length : Int) ≤
            limits.maxFrameBytes - (envelopeParts typeID codecID payload.length).sum
        · rw [decide_eq_true hroom, check_true, ok_bind, add_eq hnonneg (by omega) (by omega),
            unbroken_some, ok_bind, if_pos (by omega), hw]
          dsimp only
          rw [append_assoc, withChecksum_eq (four_le_length _)]
          rfl
        · rw [decide_eq_false hroom, if_neg (by omega)]
          rfl
      · rw [decide_eq_false hle, if_neg (by omega)]
        rfl
    · rw [if_neg hfit, if_neg hfit]
      rfl

theorem unmarshalFrame_v1_iff (hl : limits.Fit e.intSize) :
    unmarshalFrame e data limits = .ok f ∧ f.version = formatVersion ↔
      f.formatVersion = 0 ∧ validFrameV2Input f.typeID f.codecID f.payload.length limits = true ∧
        (data.length : Int) ≤ limits.maxFrameBytes ∧ data = v1Bytes e f.typeID f.codecID f.payload := by
  rw [unmarshalFrame_eq_ok_iff hl]
  constructor
  · rintro ⟨⟨version, typeID, codecID, rest, ha, hp⟩, hversion⟩
    rcases ha.known with rfl | rfl
    · obtain ⟨payload, rfl, hle, rfl⟩ := (parsePayload_v1_eq_ok_iff hl).mp hp
      refine ⟨rfl, ?_, ha.bounded, ha.bytes⟩
      simp [validFrameV2Input, ha.valid, ha.typed, ha.codec, hle]
    · rw [version_of_parsePayload_v2 hp] at hversion
      exact absurd hversion (by decide)
  rintro ⟨hformat, hvalid, hbound, hdata⟩
  simp only [validFrameV2Input, ne_eq, decide_not, Bool.and_eq_true, Bool.not_eq_true',
    decide_eq_false_iff_not, decide_eq_true_eq] at hvalid
  obtain ⟨⟨⟨⟨hlimits, htype⟩, -⟩, hcodec⟩, hpayload⟩ := hvalid
  obtain ⟨typeID, codecID, payload, version⟩ := f
  dsimp only at hformat hdata hcodec hpayload htype
  subst hformat
  refine ⟨⟨formatVersion, typeID, codecID, _, ⟨hlimits, hbound, .inl rfl, htype, hcodec, hdata⟩, ?_⟩, rfl⟩
  exact (parsePayload_v1_eq_ok_iff hl).mpr ⟨payload, rfl, hpayload, rfl⟩

variable {b : List UInt8} {length : Int}

theorem unmarshalFrame_of_marshalFrame (hl : limits.Fit e.intSize) (hw : w payload.length = .ok payload)
    (h : marshalFrameWithPayloadAndLimits e typeID codecID payload.length limits w = .ok b) :
    unmarshalFrame e b limits = .ok {typeID, codecID, payload} := by
  rw [marshalFrame_eq hl hw] at h
  split_ifs at h with hvalid hfit hbound
  obtain rfl := ok.inj h
  have hinput : validFrameV2Input typeID codecID payload.length limits = true := by simpa using hvalid
  exact ((unmarshalFrame_v1_iff (f := {typeID, codecID, payload}) hl).mpr ⟨rfl, hinput, hbound, rfl⟩).1

theorem marshalWithLimits_of_unmarshalFrame (hl : limits.Fit e.intSize)
    (h : unmarshalFrame e b limits = .ok f) (hversion : f.version = formatVersion) :
    f.marshalWithLimits e limits = .ok b := by
  obtain ⟨-, hvalid, hbound, rfl⟩ := (unmarshalFrame_v1_iff hl).mp ⟨h, hversion⟩
  have hmax := hl.maxFrameBytes
  have hsum : ((v1Bytes e f.typeID f.codecID f.payload).length : Int) = _ := length_v1Bytes
  rw [Frame.marshalWithLimits, marshalFrame_eq hl rfl, if_neg (by simp [hvalid]), if_pos (by omega),
    if_pos hbound]

/-- A frame has a payload that was written within the limits. -/
theorem payload_of_marshalFrame
    (h : marshalFrameWithPayloadAndLimits e typeID codecID length limits w = .ok b) :
    ∃ payload, w length = .ok payload ∧ length ≤ limits.maxPayload := by
  unfold marshalFrameWithPayloadAndLimits at h
  obtain ⟨hvalid, h⟩ := check_bind_eq_ok_iff.mp h
  obtain ⟨_, -, h⟩ := bind_eq_ok_iff.mp h
  obtain ⟨-, h⟩ := check_bind_eq_ok_iff.mp h
  obtain ⟨_, -, h⟩ := bind_eq_ok_iff.mp h
  obtain ⟨-, h⟩ := check_bind_eq_ok_iff.mp h
  obtain ⟨_, -, h⟩ := bind_eq_ok_iff.mp h
  dsimp only at h
  cases hw : w length with
  | error err => rw [hw] at h; cases h
  | ok payload => exact ⟨payload, rfl, of_decide_eq_true (Bool.and_eq_true_iff.mp hvalid).2⟩

theorem marshalFrame_of_unmarshalFrame
    (hl : limits.Fit e.intSize) (h : unmarshalFrame e b limits = .ok f) (hversion : f.version = formatVersion)
    (hw : w f.payload.length = .ok f.payload) :
    marshalFrameWithPayloadAndLimits e f.typeID f.codecID f.payload.length limits w = .ok b := by
  rw [marshalFrame_eq hl hw, ← marshalWithLimits_of_unmarshalFrame hl h hversion, Frame.marshalWithLimits,
    marshalFrame_eq hl rfl]

/-- Without a codec the size of a frame is an `int`. -/
theorem marshalFrame_ne_broken (hl : limits.Fit e.intSize) :
    marshalFrameWithPayloadAndLimits e typeID [] length limits w ≠ .broken := by
  have hnonneg : 0 ≤ (envelopeParts typeID [] length).sum := sum_nonneg envelopeParts_nonneg
  have hsmall : (envelopeParts typeID [] length).sum ≤ e.intSize.max := by
    have h₁ := Uvarint.size_le formatVersion
    have h₂ := Uvarint.size_le typeID
    have h₃ := Uvarint.size_le (lengthAsUint64 ([] : List UInt8).length)
    have h₄ := Uvarint.size_le (lengthAsUint64 length)
    have hmax := e.intSize.max_ge
    simp only [envelopeParts, sum_cons, sum_nil, length_nil] at h₃ ⊢
    omega
  unfold marshalFrameWithPayloadAndLimits
  refine check_bind_ne_broken fun hvalid => ?_
  simp only [Bool.and_eq_true, decide_eq_true_eq] at hvalid
  rw [sum_eq envelopeParts_nonneg, if_pos hsmall, unbroken_some, ok_bind]
  refine check_bind_ne_broken fun hle => ?_
  have hle := of_decide_eq_true hle
  rw [sub_eq hnonneg hle hl.maxFrameBytes, unbroken_some, ok_bind]
  refine check_bind_ne_broken fun hroom => ?_
  have hroom := of_decide_eq_true hroom
  have hmax := hl.maxFrameBytes
  rw [add_eq hnonneg hvalid.1.1.2 (by omega), unbroken_some, ok_bind]
  dsimp only
  cases w length with
  | error err => exact nofun
  | ok payload =>
    dsimp only
    rw [append_assoc, withChecksum_eq (four_le_length _)]
    exact nofun

/-! ### Format version 2 -/

/-- The bytes of a frame of version 2. -/
def v2Bytes (e : Env) (typeID : UInt64) (codecID payload : List UInt8) (mode : UInt64)
    (encoded : List UInt8) : List UInt8 :=
  sealed e (header formatVersionV2 typeID codecID ++ (Uvarint.put mode ++
    (Uvarint.put (lengthAsUint64 payload.length) ++ (Uvarint.put (lengthAsUint64 encoded.length) ++ encoded))))

/-- A payload in one of its forms. -/
def Encodes (e : Env) (payload : List UInt8) (mode : UInt64) (encoded : List UInt8) : Prop :=
  mode = v2PayloadRaw ∧ encoded = payload ∨
    mode = v2PayloadDeflate ∧ e.deflate payload = some encoded ∧ payload ≠ []

variable {mode : UInt64} {encoded : List UInt8}

theorem Encodes.size_mode (h : Encodes e payload mode encoded) :
    Uvarint.size mode = Uvarint.size v2PayloadDeflate := by
  rcases h with ⟨rfl, -⟩ | ⟨rfl, -⟩ <;> decide

theorem length_v2Bytes (h : Encodes e payload mode encoded) :
    ((v2Bytes e typeID codecID payload mode encoded).length : Int) =
      (v2FrameParts typeID codecID payload.length encoded.length).sum := by
  have hmode := h.size_mode
  simp only [Uvarint.size] at hmode
  have hcast : ∀ l : List UInt8, ¬ ((l.length : Int) < 0) := fun l => by omega
  simp only [v2Bytes, length_sealed, length_append, length_header, v2FrameParts, sum_cons,
    sum_nil, Uvarint.size, uvarintSizeForLength, hcast, if_false, hmode]
  push_cast
  ring

variable {rawLength : Int}

theorem v2FrameParts_nonneg : ∀ x ∈ v2FrameParts typeID codecID rawLength encoded.length, 0 ≤ x := by
  have hsize : ∀ length, 0 ≤ uvarintSizeForLength length := fun length => by
    unfold uvarintSizeForLength
    split_ifs <;> omega
  simp only [v2FrameParts, forall_mem_cons]
  refine ⟨by omega, by omega, by omega, hsize _, by omega, by omega, hsize _, hsize _, by omega,
    by omega, by simp⟩

theorem v2FrameSize_eq : v2FrameSize e typeID codecID rawLength encoded.length =
      if (v2FrameParts typeID codecID rawLength encoded.length).sum ≤ e.intSize.max then
        .ok (v2FrameParts typeID codecID rawLength encoded.length).sum
      else .broken := by
  rw [v2FrameSize, sum_eq v2FrameParts_nonneg]
  split_ifs <;> rfl

theorem length_le_sum_v2FrameParts :
    (encoded.length : Int) + 4 ≤ (v2FrameParts typeID codecID rawLength encoded.length).sum := by
  have hnonneg : ∀ x ∈ v2FrameParts typeID codecID rawLength encoded.length, 0 ≤ x := v2FrameParts_nonneg
  simp only [v2FrameParts, forall_mem_cons] at hnonneg
  simp only [v2FrameParts, sum_cons, sum_nil]
  omega

theorem inflatePayload_deflate {compressed : List UInt8} (h : e.deflate payload = some compressed)
    (hne : payload ≠ []) (hmax : (payload.length : Int) < e.intSize.max) :
    inflatePayload e compressed payload.length = .ok payload := by
  have hstream := e.inflate_deflate payload compressed h
  have hfull : readFull (payload, .eof) ((payload.length : Int) + 1) =
      ((payload.length : Int), some .unexpectedEOF) := by
    rw [readFull, if_neg (by dsimp only; omega)]
    simp [hne]
  unfold inflatePayload
  rw [hstream, decide_eq_true hmax, add_eq (by omega) (by omega) (by omega)]
  simp [hfull]

/-- The decoder undoes both forms. -/
theorem parsePayload_v2_eq
    (h : Encodes e payload mode encoded) (hpayload : (payload.length : Int) ≤ limits.maxPayload)
    (hmax : (payload.length : Int) < e.intSize.max) (hencoded : (encoded.length : Int) ≤ e.intSize.max) :
    parsePayload e limits formatVersionV2 typeID codecID (Uvarint.put mode ++
      (Uvarint.put (lengthAsUint64 payload.length) ++
        (Uvarint.put (lengthAsUint64 encoded.length) ++ encoded))) =
      .ok ⟨typeID, codecID, payload, formatVersionV2⟩ := by
  have hp := lengthAsUint64_toNat (hmax.trans e.intSize.max_lt)
  have he := lengthAsUint64_toNat (hencoded.trans_lt e.intSize.max_lt)
  unfold parsePayload parseV2
  rw [if_neg (by decide)]
  simp only [Uvarint.read_put, ofOption_some, ok_bind, hp, he, hpayload, decide_true, check_true]
  rcases h with ⟨rfl, rfl⟩ | ⟨rfl, hdeflate, hne⟩
  · simp
  · rw [inflatePayload_deflate hdeflate hne hmax]
    rfl

theorem unmarshalFrame_v2Bytes (hl : limits.Fit e.intSize) (h : Encodes e payload mode encoded)
    (hvalid : validFrameV2Input typeID codecID payload.length limits = true)
    (hmax : (payload.length : Int) < e.intSize.max)
    (hbound : ((v2Bytes e typeID codecID payload mode encoded).length : Int) ≤ limits.maxFrameBytes) :
    unmarshalFrame e (v2Bytes e typeID codecID payload mode encoded) limits =
      .ok ⟨typeID, codecID, payload, formatVersionV2⟩ := by
  simp only [validFrameV2Input, ne_eq, decide_not, Bool.and_eq_true, Bool.not_eq_true',
    decide_eq_false_iff_not, decide_eq_true_eq] at hvalid
  obtain ⟨⟨⟨⟨hlimits, htype⟩, -⟩, hcodec⟩, hpayload⟩ := hvalid
  have hencoded : (encoded.length : Int) ≤ e.intSize.max := by
    have hmaxFrame := hl.maxFrameBytes
    rw [length_v2Bytes h] at hbound
    have hsum : (encoded.length : Int) + 4 ≤ (v2FrameParts typeID codecID payload.length encoded.length).sum :=
      length_le_sum_v2FrameParts
    omega
  exact (unmarshalFrame_eq_ok_iff hl).mpr ⟨formatVersionV2, typeID, codecID, _,
    ⟨hlimits, hbound, .inr rfl, htype, hcodec, rfl⟩, parsePayload_v2_eq h hpayload hmax hencoded⟩

/-- The sums that the encoder of version 2 makes are `int`s. -/
def V2Fits (e : Env) (typeID : UInt64) (codecID payload : List UInt8) : Prop :=
  ((payload.length : Int) < minV2DeflatePayloadBytes →
    (v2FrameParts typeID codecID payload.length payload.length).sum ≤ e.intSize.max) ∧
  (minV2DeflatePayloadBytes ≤ payload.length → ∀ compressed, e.deflate payload = some compressed →
    (v2FrameParts typeID codecID payload.length payload.length).sum ≤ e.intSize.max ∧
      (v2FrameParts typeID codecID payload.length compressed.length).sum ≤ e.intSize.max)

/-- Choosing a form breaks, or gives one whose size is known to fit. -/
theorem choosePayload_cases (e : Env) (typeID : UInt64) (codecID payload : List UInt8) :
    choosePayload e typeID codecID payload = .broken ∧ ¬ V2Fits e typeID codecID payload ∨
    choosePayload e typeID codecID payload = .error .flate ∧ V2Fits e typeID codecID payload ∨
    ∃ mode encoded, choosePayload e typeID codecID payload = .ok (mode, encoded) ∧
      Encodes e payload mode encoded ∧ (V2Fits e typeID codecID payload ↔
        (v2FrameParts typeID codecID payload.length encoded.length).sum ≤ e.intSize.max) ∧
      (V2Fits e typeID codecID payload → (payload.length : Int) < e.intSize.max) := by
  have hraw : (payload.length : Int) + 4 ≤ (v2FrameParts typeID codecID payload.length payload.length).sum :=
    length_le_sum_v2FrameParts
  unfold choosePayload
  by_cases hlen : (payload.length : Int) ≥ minV2DeflatePayloadBytes
  · rw [if_pos hlen]
    cases hd : e.deflate payload with
    | none =>
      refine .inr (.inl ⟨rfl, fun h => absurd h (by omega), fun _ compressed hc => ?_⟩)
      rw [hd] at hc
      cases hc
    | some compressed =>
      have hfits : V2Fits e typeID codecID payload ↔
          (v2FrameParts typeID codecID payload.length payload.length).sum ≤ e.intSize.max ∧
            (v2FrameParts typeID codecID payload.length compressed.length).sum ≤ e.intSize.max := by
        refine ⟨fun h => h.2 hlen compressed hd, fun h => ⟨fun hlt => absurd hlt (by omega), ?_⟩⟩
        intro _ c hc
        rw [hd] at hc
        cases hc
        exact h
      rw [ofOption_some, ok_bind, v2FrameSize_eq, v2FrameSize_eq]
      by_cases hdef : (v2FrameParts typeID codecID payload.length compressed.length).sum ≤ e.intSize.max
      · by_cases hr : (v2FrameParts typeID codecID payload.length payload.length).sum ≤ e.intSize.max
        · rw [if_pos hdef, if_pos hr, ok_bind, ok_bind]
          right
          right
          have hne : payload ≠ [] := fun hnil => by
            rw [hnil] at hlen
            exact absurd hlen (by decide)
          split_ifs
          · exact ⟨_, _, rfl, .inr ⟨rfl, hd, hne⟩, by rw [hfits]; simp [hr], fun _ => by omega⟩
          · exact ⟨_, _, rfl, .inl ⟨rfl, rfl⟩, by rw [hfits]; simp [hdef], fun _ => by omega⟩
        · rw [if_pos hdef, if_neg hr, ok_bind, broken_bind]
          exact .inl ⟨rfl, fun h => hr (hfits.mp h).1⟩
      · rw [if_neg hdef, broken_bind]
        exact .inl ⟨rfl, fun h => hdef (hfits.mp h).2⟩
  · rw [if_neg hlen]
    have hfits : V2Fits e typeID codecID payload ↔
        (v2FrameParts typeID codecID payload.length payload.length).sum ≤ e.intSize.max :=
      ⟨fun h => h.1 (by omega), fun h => ⟨fun _ => h, fun hle => absurd hle (by omega)⟩⟩
    exact .inr (.inr ⟨_, _, rfl, .inl ⟨rfl, rfl⟩, hfits, fun h => by have := hfits.mp h; omega⟩)

theorem marshalFrameV2Payload_cases (e : Env) (typeID : UInt64) (codecID payload : List UInt8)
    (limits : Limits) :
    marshalFrameV2Payload e typeID codecID payload limits = .broken ∧ ¬ V2Fits e typeID codecID payload ∨
    V2Fits e typeID codecID payload ∧
      ((∃ err, marshalFrameV2Payload e typeID codecID payload limits = .error err) ∨
        ∃ mode encoded, Encodes e payload mode encoded ∧ (payload.length : Int) < e.intSize.max ∧
          ((v2Bytes e typeID codecID payload mode encoded).length : Int) ≤ limits.maxFrameBytes ∧
          marshalFrameV2Payload e typeID codecID payload limits =
            .ok (v2Bytes e typeID codecID payload mode encoded)) := by
  unfold marshalFrameV2Payload
  rcases choosePayload_cases e typeID codecID payload with ⟨hc, hfits⟩ | ⟨hc, hfits⟩ |
      ⟨mode, encoded, hc, henc, hfits, hmax⟩ <;> rw [hc]
  · exact .inl ⟨rfl, hfits⟩
  · exact .inr ⟨hfits, .inl ⟨_, rfl⟩⟩
  rw [ok_bind]
  dsimp only
  rw [v2FrameSize_eq]
  by_cases hf : V2Fits e typeID codecID payload
  · rw [if_pos (hfits.mp hf), ok_bind, ← length_v2Bytes henc]
    refine .inr ⟨hf, ?_⟩
    by_cases hbound : ((v2Bytes e typeID codecID payload mode encoded).length : Int) ≤ limits.maxFrameBytes
    · refine .inr ⟨mode, encoded, henc, hmax hf, hbound, ?_⟩
      rw [decide_eq_true hbound, check_true, ok_bind]
      simp only [append_assoc]
      exact withChecksum_eq (four_le_length _)
    · rw [decide_eq_false hbound]
      exact .inl ⟨_, rfl⟩
  · rw [if_neg fun h => hf (hfits.mpr h)]
    exact .inl ⟨rfl, hf⟩

/-- Writing the payload in place makes no difference. -/
theorem marshalFrameV2WithPayloadAndLimits_eq (hw : w payload.length = .ok payload) :
    marshalFrameV2WithPayloadAndLimits e typeID codecID payload.length limits w =
      marshalFrameV2WithLimits e ⟨typeID, codecID, payload, 0⟩ limits := by
  unfold marshalFrameV2WithPayloadAndLimits marshalFrameV2WithLimits
  refine congrArg _ (funext fun _ => ?_)
  by_cases hlen : (payload.length : Int) < minV2DeflatePayloadBytes
  · have hnonneg : decide ((0 : Int) ≤ payload.length) = true := decide_eq_true (by omega)
    rw [if_pos hlen, marshalFrameV2RawWithPayload, marshalFrameV2Payload, choosePayload,
      if_neg (not_le.mpr hlen), hnonneg, check_true, ok_bind, hw]
    rfl
  · rw [if_neg hlen, hw]

theorem marshalFrameV2WithLimits_ok (hl : limits.Fit e.intSize)
    (h : marshalFrameV2WithLimits e f limits = .ok b) :
    unmarshalFrame e b limits = .ok ⟨f.typeID, f.codecID, f.payload, formatVersionV2⟩ := by
  obtain ⟨hvalid, h⟩ := check_bind_eq_ok_iff.mp h
  rcases marshalFrameV2Payload_cases e f.typeID f.codecID f.payload limits with ⟨hb, -⟩ |
      ⟨-, ⟨err, herr⟩ | ⟨mode, encoded, henc, hmax, hbound, hok⟩⟩
  · rw [h] at hb
    cases hb
  · rw [h] at herr
    cases herr
  rw [h] at hok
  cases hok
  exact unmarshalFrame_v2Bytes hl henc hvalid hmax hbound

theorem marshalFrameV2WithLimits_ne_broken_iff : marshalFrameV2WithLimits e f limits ≠ .broken ↔
      (validFrameV2Input f.typeID f.codecID f.payload.length limits = true →
        V2Fits e f.typeID f.codecID f.payload) := by
  unfold marshalFrameV2WithLimits
  cases validFrameV2Input f.typeID f.codecID f.payload.length limits with
  | false => simp
  | true =>
    rw [check_true, ok_bind]
    rcases marshalFrameV2Payload_cases e f.typeID f.codecID f.payload limits with ⟨hb, hfits⟩ |
        ⟨hfits, ⟨err, herr⟩ | ⟨mode, encoded, -, -, -, hok⟩⟩
    · simp [hb, hfits]
    · simp [herr, hfits]
    · simp [hok, hfits]

/-! ### Any bytes -/

theorem inflatePayload_ne_broken : inflatePayload e encoded rawLength ≠ .broken := by
  refine check_bind_ne_broken fun hc => ?_
  have hc : 0 ≤ rawLength ∧ rawLength < e.intSize.max := by simpa using hc
  rw [add_eq hc.1 (by omega) (by omega), unbroken_some, ok_bind]
  refine check_bind_ne_broken fun _ => ?_
  refine check_bind_ne_broken fun _ => ?_
  exact check_bind_ne_broken fun _ => by simp

theorem parseV2_ne_broken : parseV2 e typeID codecID rest limits ≠ .broken := by
  refine ofOption_bind_ne_broken fun r _ => ?_
  refine check_bind_ne_broken fun _ => ?_
  refine ofOption_bind_ne_broken fun r _ => ?_
  refine check_bind_ne_broken fun _ => ?_
  refine ofOption_bind_ne_broken fun r _ => ?_
  refine check_bind_ne_broken fun _ => ?_
  split_ifs
  · exact check_bind_ne_broken fun _ => by simp
  · exact bind_ne_broken inflatePayload_ne_broken fun _ _ => by simp

theorem unmarshalFrame_ne_broken (hl : limits.Fit e.intSize) : unmarshalFrame e data limits ≠ .broken := by
  rw [unmarshalFrame_eq hl]
  refine check_bind_ne_broken fun _ => ?_
  refine check_bind_ne_broken fun _ => ?_
  refine check_bind_ne_broken fun _ => ?_
  refine ofOption_bind_ne_broken fun r _ => ?_
  refine check_bind_ne_broken fun _ => ?_
  refine ofOption_bind_ne_broken fun r _ => ?_
  refine check_bind_ne_broken fun _ => ?_
  refine ofOption_bind_ne_broken fun r _ => ?_
  refine check_bind_ne_broken fun _ => ?_
  unfold parsePayload
  split_ifs
  · refine ofOption_bind_ne_broken fun r _ => ?_
    exact check_bind_ne_broken fun _ => by simp
  · exact parseV2_ne_broken

theorem peekFrameFormatVersion_ne_broken (hl : limits.Fit e.intSize) :
    peekFrameFormatVersion e data limits ≠ .broken := by
  refine check_bind_ne_broken fun hc => ?_
  obtain ⟨⟨-, hle⟩, hge⟩ : (limits.valid = true ∧ (data.length : Int) ≤ limits.maxFrameBytes) ∧
      9 ≤ data.length := by simpa using hc
  have hmagic : slice data 0 4 = some (data.take 4) := slice_take (show 4 ≤ data.length by omega)
  have hread : readUvarint e.intSize data 4 = _ := readUvarint_eq (show 4 ≤ data.length by omega)
    (hle.trans hl.maxFrameBytes)
  rw [hmagic, unbroken_some, ok_bind, hread]
  refine check_bind_ne_broken fun _ => ?_
  rw [ok_bind]
  refine ofOption_bind_ne_broken fun r _ => ?_
  exact check_bind_ne_broken fun _ => by simp

/-! ### All together -/

/-- For limits that are `int`s: what either encoder returns is read back with its type, codec,
payload and version; what is accepted as version 1 is what the encoder returns for it; a frame that
was converted to version 2 and back is the same; no input bytes make the decoder slice out of range
or leave the `int`s. The encoders stay within the `int`s exactly if the sizes they add up do. -/
theorem frame_round_trip (e : Env) (limits : Limits) (hl : limits.Fit e.intSize) :
    (∀ typeID codecID payload w b, w (payload.length : Int) = .ok payload →
      marshalFrameWithPayloadAndLimits e typeID codecID payload.length limits w = .ok b →
      ∃ f, unmarshalFrame e b limits = .ok f ∧ f.typeID = typeID ∧ f.codecID = codecID ∧
        f.payload = payload ∧ f.version = formatVersion) ∧
    (∀ typeID codecID payload w b, w (payload.length : Int) = .ok payload →
      (marshalFrameV2WithLimits e ⟨typeID, codecID, payload, 0⟩ limits = .ok b ∨
        marshalFrameV2WithPayloadAndLimits e typeID codecID payload.length limits w = .ok b) →
      ∃ f, unmarshalFrame e b limits = .ok f ∧ f.typeID = typeID ∧ f.codecID = codecID ∧
        f.payload = payload ∧ f.version = formatVersionV2) ∧
    (∀ b f, unmarshalFrame e b limits = .ok f → f.version = formatVersion →
      f.marshalWithLimits e limits = .ok b) ∧
    (∀ b c d, convertFrameV1ToV2 e b limits = .ok c → convertFrameV2ToV1 e c limits = .ok d → d = b) ∧
    (∀ data, unmarshalFrame e data limits ≠ .broken ∧ peekFrameFormatVersion e data limits ≠ .broken) ∧
    (∀ f : Frame, f.marshalWithLimits e limits ≠ .broken ↔
      (validFrameV2Input f.typeID f.codecID f.payload.length limits = true →
        (envelopeParts f.typeID f.codecID f.payload.length).sum ≤ e.intSize.max)) ∧
    ∀ f : Frame, marshalFrameV2WithLimits e f limits ≠ .broken ↔
      (validFrameV2Input f.typeID f.codecID f.payload.length limits = true →
        V2Fits e f.typeID f.codecID f.payload) := by
  refine ⟨fun typeID codecID payload w b hw h => ?_, fun typeID codecID payload w b hw h => ?_,
    fun b f => marshalWithLimits_of_unmarshalFrame hl, fun b c d hc hd => ?_, fun data =>
    ⟨unmarshalFrame_ne_broken hl, peekFrameFormatVersion_ne_broken hl⟩, fun f => ?_, fun f =>
    marshalFrameV2WithLimits_ne_broken_iff⟩
  · exact ⟨{typeID, codecID, payload}, unmarshalFrame_of_marshalFrame hl hw h, rfl, rfl, rfl, rfl⟩
  · rw [marshalFrameV2WithPayloadAndLimits_eq hw, or_self] at h
    exact ⟨_, marshalFrameV2WithLimits_ok hl h, rfl, rfl, rfl, rfl⟩
  · obtain ⟨f, hf, hc⟩ := bind_eq_ok_iff.mp hc
    obtain ⟨hversion, hc⟩ := check_bind_eq_ok_iff.mp hc
    have hdecoded := marshalFrameV2WithLimits_ok hl hc
    unfold convertFrameV2ToV1 at hd
    rw [hdecoded, ok_bind] at hd
    obtain ⟨-, hd⟩ := check_bind_eq_ok_iff.mp hd
    have hback := marshalWithLimits_of_unmarshalFrame hl hf (of_decide_eq_true hversion)
    exact ok.inj (hd.symm.trans hback)
  rw [Frame.marshalWithLimits, marshalFrame_eq hl rfl]
  cases validFrameV2Input f.typeID f.codecID f.payload.length limits with
  | false => simp
  | true =>
    rw [if_neg (by decide)]
    split_ifs with hfit hbound
    · simp [hfit]
    · simp [hfit]
    · simp [hfit]

/-- The limits that a 32-bit machine allows. -/
def maxLimits32 : Limits := ⟨2147483647, 2147483647, 2147483647, 2147483647, 2147483647, 2147483647⟩

/-- DEFLATE that leaves the bytes as they are, and a constant checksum. -/
def plainEnv (intSize : IntSize) : Env where
  intSize := intSize
  checksum _ := 0
  deflate := some
  inflate bytes := (bytes, .eof)
  inflate_deflate payload compressed h := by
    cases h
    rfl

/-- A frame with a codec, in the first version and in the second. -/
theorem frame_round_trip_versions : let e := plainEnv .bits32
    maxLimits32.Fit e.intSize ∧ ∃ b c f g,
      marshalFrameWithPayloadAndLimits e 300 [7] 3 maxLimits32 (fun _ => .ok [9, 8, 9]) = .ok b ∧
      unmarshalFrame e b maxLimits32 = .ok f ∧ f.codecID = [7] ∧ f.payload = [9, 8, 9] ∧
      f.marshalWithLimits e maxLimits32 = .ok b ∧ convertFrameV1ToV2 e b maxLimits32 = .ok c ∧
      unmarshalFrame e c maxLimits32 = .ok g ∧ g.codecID = [7] ∧ g.payload = [9, 8, 9] ∧ g.version = 2 := by
  intro e
  have hl : maxLimits32.Fit e.intSize := by constructor <;> decide
  have hb : marshalFrameWithPayloadAndLimits e 300 [7] 3 maxLimits32 (fun _ => .ok [9, 8, 9]) =
      .ok [67, 82, 68, 84, 1, 172, 2, 1, 7, 3, 9, 8, 9, 0, 0, 0, 0] := by decide +kernel
  have hc : marshalFrameV2WithLimits e ⟨300, [7], [9, 8, 9], 0⟩ maxLimits32 =
      .ok [67, 82, 68, 84, 2, 172, 2, 1, 7, 0, 3, 3, 9, 8, 9, 0, 0, 0, 0] := by decide +kernel
  obtain ⟨hfirst, hsecond, hback, -⟩ := frame_round_trip e maxLimits32 hl
  obtain ⟨f, hf, -, hcodec, hp, hversion⟩ := hfirst 300 [7] [9, 8, 9] _ _ rfl hb
  obtain ⟨g, hg, -, hcodec', hp', hversion'⟩ := hsecond 300 [7] [9, 8, 9] (fun _ => .ok [9, 8, 9]) _ rfl (.inl hc)
  exact ⟨hl, _, _, f, g, hb, hf, hcodec, hp, hback _ f hf hversion, by decide +kernel, hg, hcodec', hp', hversion'⟩

/-- A payload of the greatest length: the first encoder answers that the limit is exceeded, the
second leaves the `int`s. -/
theorem v2_size_overflows : let payload := List.replicate 2147483647 (0 : UInt8)
    Frame.marshalWithLimits (plainEnv .bits32) ⟨1, [], payload, 0⟩ maxLimits32 = .error .frameLimit ∧
      marshalFrameV2WithLimits (plainEnv .bits32) ⟨1, [], payload, 0⟩ maxLimits32 = .broken := by
  intro payload
  have hl : maxLimits32.Fit (plainEnv .bits32).intSize := by constructor <;> decide
  have hlen : payload.length = 2147483647 := length_replicate
  have hvalid : validFrameV2Input 1 [] payload.length maxLimits32 = true := by
    rw [hlen]
    decide +kernel
  have hbig : ((payload.length : Int) + 4) ≤ (v2FrameParts 1 [] payload.length payload.length).sum :=
    length_le_sum_v2FrameParts
  have hmax : (plainEnv .bits32).intSize.max = 2147483647 := rfl
  constructor
  · have hlong : ((v1Bytes (plainEnv .bits32) 1 [] payload).length : Int) = _ := length_v1Bytes
    have hsum : (envelopeParts 1 [] (payload.length : Int)).sum = 16 := by
      rw [hlen]
      decide +kernel
    rw [Frame.marshalWithLimits, marshalFrame_eq hl rfl]
    dsimp only
    rw [if_neg (by simp [hvalid]), if_pos (by rw [hsum]; decide), if_neg]
    rw [hlong, hsum, hlen]
    decide
  by_contra hne
  have hfits := marshalFrameV2WithLimits_ne_broken_iff.mp hne hvalid
  have := (hfits.2 (by rw [hlen]; decide) payload rfl).1
  dsimp only at this
  omega

end Crdt.Wire
