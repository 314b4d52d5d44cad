import Mathlib

/-! Unsigned varints of sixty-four bits.

Seven bits a byte, the low ones first, every byte but the last with its high bit set; ten bytes are
enough. A value has one shortest encoding (`put`). The reader `read` accepts that one only, so that
it is a prefix code: what it reads is exactly what was put (`read_eq_some_iff`). -/
namespace Uvarint

open List

/-- The greatest number of bytes. -/
def maxLen : Nat := 10

/-- The bytes of `n`, if `fuel` of them are enough. -/
def putLoop : Nat → Nat → List UInt8
  | 0, _ => []
  | fuel + 1, n =>
    if n < 128 then [UInt8.ofNat n] else UInt8.ofNat (n % 128 + 128) :: putLoop fuel (n / 128)

def put (x : UInt64) : List UInt8 := putLoop maxLen x.toNat

def size (x : UInt64) : Nat := (put x).length

/-- The value of the bytes from the `i`-th on, and how many bytes there are in all. No bytes are
left at `0`, and a negative number means that the value has no sixty-four bits. The bits of a byte
do not overlap those read before, so they are added. -/
def getLoop : Nat → Nat → List UInt8 → Nat × Int
  | _, _, [] => (0, 0)
  | i, x, b :: rest =>
    if i = maxLen then (0, -(i + 1))
    else if b.toNat < 128 then
      if i = maxLen - 1 ∧ b.toNat > 1 then (0, -(i + 1)) else (x + b.toNat * 2 ^ (7 * i), i + 1)
    else getLoop (i + 1) (x + (b.toNat - 128) * 2 ^ (7 * i)) rest

def get (buf : List UInt8) : UInt64 × Int :=
  let r := getLoop 0 0 buf
  (UInt64.ofNat r.1, r.2)

/-- The value at the start of the bytes, in its shortest form, and the bytes after it. -/
def read (buf : List UInt8) : Option (UInt64 × List UInt8) :=
  let (value, count) := get buf
  if count ≤ 0 then none
  else if (size value : Int) ≠ count then none
  else some (value, buf.drop count.toNat)

/-! ### What is put -/

theorem length_putLoop_pos (fuel n : Nat) : 0 < (putLoop (fuel + 1) n).length := by
  rw [putLoop]
  split_ifs <;> simp

theorem length_putLoop_le (fuel n : Nat) : (putLoop fuel n).length ≤ fuel := by
  induction fuel generalizing n with
  | zero => simp [putLoop]
  | succ fuel ih =>
    rw [putLoop]
    split_ifs
    · simp
    · simpa using ih (n / 128)

theorem size_pos (x : UInt64) : 0 < size x := length_putLoop_pos 9 x.toNat

theorem size_le (x : UInt64) : size x ≤ 10 := length_putLoop_le maxLen x.toNat

theorem length_putLoop_mono (fuel : Nat) {n m : Nat} (h : n ≤ m) :
    (putLoop fuel n).length ≤ (putLoop fuel m).length := by
  induction fuel generalizing n m with
  | zero => exact le_rfl
  | succ fuel ih =>
    have hdiv := ih (Nat.div_le_div_right h : n / 128 ≤ m / 128)
    have hpos := length_putLoop_pos fuel m
    rw [putLoop]
    split_ifs with hn
    · exact hpos
    · rw [putLoop, if_neg (by omega)]
      simpa using hdiv

theorem size_mono {x y : UInt64} (h : x ≤ y) : size x ≤ size y :=
  length_putLoop_mono maxLen (UInt64.le_iff_toNat_le.mp h)

theorem toNat_ofNat_of_lt {n : Nat} (h : n < 256) : (UInt8.ofNat n).toNat = n := by
  rw [UInt8.toNat_ofNat', Nat.mod_eq_of_lt h]

/-- What fits into the bytes that are left is read back. -/
theorem getLoop_putLoop {i fuel n : Nat} (x : Nat) (rest : List UInt8) (hi : i + fuel = maxLen)
    (hfuel : 0 < fuel) (hn : n * 2 ^ (7 * i) < 2 ^ 64) : getLoop i x (putLoop fuel n ++ rest) =
      (x + n * 2 ^ (7 * i), (i + (putLoop fuel n).length : Int)) := by
  induction fuel generalizing i n x with
  | zero => omega
  | succ fuel ih =>
    have hne : i ≠ maxLen := by omega
    rw [putLoop]
    split_ifs with hlt
    · rw [singleton_append, getLoop, if_neg hne, toNat_ofNat_of_lt (by omega), if_pos hlt, if_neg]
      · simp
      rintro ⟨rfl, hn'⟩
      simp only [maxLen] at hn
      omega
    -- the last byte holds one bit, so there is another byte
    have hlast : i ≠ 9 := by
      rintro rfl
      omega
    have hfuel' : 0 < fuel := by
      simp only [maxLen] at hi
      omega
    rw [cons_append, getLoop, if_neg hne, toNat_ofNat_of_lt (by omega), if_neg (by omega)]
    have hpow : 2 ^ (7 * (i + 1)) = 128 * 2 ^ (7 * i) := by
      ring
    have hsplit : n % 128 * 2 ^ (7 * i) + n / 128 * 2 ^ (7 * (i + 1)) = n * 2 ^ (7 * i) := by
      have := Nat.mod_add_div n 128
      calc n % 128 * 2 ^ (7 * i) + n / 128 * 2 ^ (7 * (i + 1))
          = (n % 128 + 128 * (n / 128)) * 2 ^ (7 * i) := by rw [hpow]; ring
        _ = n * 2 ^ (7 * i) := by rw [this]
    rw [ih _ (by omega) hfuel' (by omega)]
    simp only [length_cons, Nat.add_sub_cancel, Nat.cast_add, Prod.mk.injEq]
    constructor
    · rw [← hsplit]
      ring
    · ring

theorem get_put (x : UInt64) (rest : List UInt8) : get (put x ++ rest) = (x, (size x : Int)) := by
  have h : getLoop 0 0 (putLoop maxLen x.toNat ++ rest) = _ :=
    getLoop_putLoop 0 rest rfl (by decide) (by simpa using x.toNat_lt)
  unfold get put
  rw [h]
  simp [size, put]

theorem read_put (x : UInt64) (rest : List UInt8) : read (put x ++ rest) = some (x, rest) := by
  have hpos := size_pos x
  unfold read
  rw [get_put]
  dsimp only
  rw [if_neg (by omega)]
  simp [size]

/-! ### What is read -/

theorem getLoop_maxLen_le (x : Nat) (buf : List UInt8) : (getLoop maxLen x buf).2 ≤ 0 := by
  cases buf with
  | nil => exact le_rfl
  | cons b rest =>
    rw [getLoop, if_pos rfl]
    decide

/-- What was read is put in no more bytes than it was read from, and where it takes as many they
are the same. -/
theorem getLoop_spec {i fuel x v : Nat} {c : Int} {buf : List UInt8} (hi : i + fuel = maxLen)
    (h : getLoop i x buf = (v, c)) (hc : 0 < c) :
    ∃ n m : Nat, c = i + m ∧ 0 < m ∧ v = x + n * 2 ^ (7 * i) ∧
      n < 2 ^ (64 - 7 * i) ∧ (putLoop fuel n).length ≤ m ∧
      ((putLoop fuel n).length = m → buf.take m = putLoop fuel n) := by
  induction buf generalizing i fuel x with
  | nil =>
    cases h
    omega
  | cons b rest ih =>
    have hb : b.toNat < 256 := b.toNat_lt
    rw [getLoop] at h
    split_ifs at h with hmax hlt hover
    · cases h
      omega
    · cases h
      omega
    · cases h
      obtain _ | fuel := fuel
      · omega
      have hput : putLoop (fuel + 1) b.toNat = [b] := by
        rw [putLoop, if_pos hlt, UInt8.ofNat_toNat]
      refine ⟨b.toNat, 1, by simp, by omega, rfl, ?_, by simp [hput], by simp [hput]⟩
      rcases Nat.lt_or_ge i 9 with hi' | hi'
      · have : 2 ^ 7 ≤ 2 ^ (64 - 7 * i) := Nat.pow_le_pow_right (by decide) (by omega)
        omega
      -- the tenth byte holds the last bit
      have h9 : i = 9 := by
        simp only [maxLen] at hi
        omega
      subst h9
      have : ¬ b.toNat > 1 := fun hgt => hover ⟨rfl, hgt⟩
      omega
    have hi8 : i ≤ 8 := by
      by_contra hgt
      have h9 : i + 1 = maxLen := by
        simp only [maxLen] at hi hmax ⊢
        omega
      have := getLoop_maxLen_le (x + (b.toNat - 128) * 2 ^ (7 * i)) rest
      rw [← h9, h] at this
      omega
    obtain ⟨fuel, rfl⟩ : ∃ k, fuel = k + 1 := ⟨fuel - 1, by simp only [maxLen] at hi; omega⟩
    obtain ⟨n, m, hcm, hm, hv, hn, hlen, heq⟩ := ih (show i + 1 + fuel = maxLen by omega) h
    have hpow : 2 ^ (7 * (i + 1)) = 128 * 2 ^ (7 * i) := by
      ring
    have hdiv : (b.toNat - 128 + 128 * n) / 128 = n := by omega
    have hmod : (b.toNat - 128 + 128 * n) % 128 + 128 = b.toNat := by omega
    refine ⟨b.toNat - 128 + 128 * n, m + 1, by rw [hcm]; push_cast; ring, by omega,
      by rw [hv, hpow]; ring, ?_, ?_, fun heqm => ?_⟩
    · have : 2 ^ (64 - 7 * i) = 128 * 2 ^ (64 - 7 * (i + 1)) := by
        rw [show 64 - 7 * i = 7 + (64 - 7 * (i + 1)) by omega, Nat.pow_add]
      omega
    · rw [putLoop]
      split_ifs
      · simp
      · simpa [hdiv] using hlen
    rw [putLoop] at heqm ⊢
    split_ifs at heqm ⊢
    · simp only [length_singleton] at heqm
      omega
    · rw [hdiv] at heqm ⊢
      rw [take_succ_cons, heq (by simpa using heqm), hmod, UInt8.ofNat_toNat]

variable {buf rest : List UInt8} {x : UInt64}

theorem read_eq_some_iff : read buf = some (x, rest) ↔ buf = put x ++ rest := by
  refine ⟨fun h => ?_, fun h => h ▸ read_put x rest⟩
  unfold read at h
  rcases hg : getLoop 0 0 buf with ⟨v, c⟩
  simp only [get, hg] at h
  split_ifs at h with hc hsize
  obtain ⟨rfl, rfl⟩ := Prod.mk.inj (Option.some.inj h)
  obtain ⟨n, m, hcm, -, hv, hn, -, heq⟩ := getLoop_spec (Nat.zero_add maxLen) hg (by omega)
  have hvn : v = n := by omega
  have hput : put (UInt64.ofNat v) = putLoop maxLen n := by
    rw [put, UInt64.toNat_ofNat', hvn, Nat.mod_eq_of_lt (by simpa using hn)]
  have hm : c.toNat = m := by omega
  have htake : buf.take m = putLoop maxLen n := heq (by
    rw [← hput]
    simp only [size] at hsize
    omega)
  rw [hput, ← htake, hm, take_append_drop]

theorem read_length (h : read buf = some (x, rest)) : buf.length = size x + rest.length := by
  rw [read_eq_some_iff.mp h, length_append, size]

end Uvarint
