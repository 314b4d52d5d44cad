import Mathlib

/-! UTF-8.

Code points are integers, and a text is a list of bytes. A byte that does not begin the encoding of a
code point stands for itself and is skipped. `scan_encode`: the encoding of a list of code points is
scanned back to it. -/
namespace Utf8

open List Option

/-- What stands for a byte that is not part of an encoding. -/
def runeError : Int := 0xFFFD

/-- A code point that is no surrogate. -/
def Scalar (r : Int) : Prop := (0 ≤ r ∧ r < 0xD800) ∨ (0xDFFF < r ∧ r ≤ 0x10FFFF)

instance : DecidablePred Scalar := fun r =>
  inferInstanceAs (Decidable ((0 ≤ r ∧ r < 0xD800) ∨ (0xDFFF < r ∧ r ≤ 0x10FFFF)))

theorem Scalar.nonneg {r : Int} (h : Scalar r) : 0 ≤ r := by
  unfold Scalar at h
  omega

/-- A byte that continues an encoding, with the low six bits. -/
def continuation (bits : Nat) : UInt8 := UInt8.ofNat (0x80 + bits % 64)

def encodeNat (c : Nat) : List UInt8 :=
  if c ≤ 0x7F then [UInt8.ofNat c] else
  if c ≤ 0x7FF then [UInt8.ofNat (0xC0 + c / 64), continuation c] else
  if c ≤ 0xFFFF then [UInt8.ofNat (0xE0 + c / 4096), continuation (c / 64), continuation c] else
    [UInt8.ofNat (0xF0 + c / 262144), continuation (c / 4096), continuation (c / 64), continuation c]

/-- The bytes of a code point; of `runeError` if it is none. -/
def encode (r : Int) : List UInt8 := encodeNat (if Scalar r then r else runeError).toNat

/-- The range of the second byte. -/
def acceptRange (first : Nat) : Nat × Nat :=
  if first = 0xE0 then (0xA0, 0xBF) else
  if first = 0xED then (0x80, 0x9F) else
  if first = 0xF0 then (0x90, 0xBF) else
  if first = 0xF4 then (0x80, 0x8F) else (0x80, 0xBF)

/-- The bits of the next byte, if it is in a range. -/
def next (low high : Nat) : List UInt8 → Option (Nat × List UInt8)
  | [] => none
  | b :: rest => if low ≤ b.toNat ∧ b.toNat ≤ high then some (b.toNat - 0x80, rest) else none

/-- The first code point and what follows its encoding. -/
def decode : List UInt8 → Option (Nat × List UInt8)
  | [] => none
  | first :: rest => do
    let x := first.toNat
    if x < 0x80 then some (x, rest) else
    if x < 0xC2 ∨ 0xF4 < x then none else
    let (y, rest) ← next (acceptRange x).1 (acceptRange x).2 rest
    if x < 0xE0 then some ((x - 0xC0) * 64 + y, rest) else
    let (z, rest) ← next 0x80 0xBF rest
    if x < 0xF0 then some ((x - 0xE0) * 4096 + y * 64 + z, rest) else
    let (w, rest) ← next 0x80 0xBF rest
    some ((x - 0xF0) * 262144 + y * 4096 + z * 64 + w, rest)

/-- The code points of a text, `none` where a byte is skipped. -/
def scan : Nat → List UInt8 → List (Option Nat)
  | 0, _ => []
  | _ + 1, [] => []
  | n + 1, b :: rest =>
    match decode (b :: rest) with
    | some (c, rest) => some c :: scan n rest
    | none => none :: scan n rest

def valid (text : List UInt8) : Bool := (scan text.length text).all Option.isSome

def runes (text : List UInt8) : List Int := (scan text.length text).map fun c => c.elim runeError Nat.cast

def runeCount (text : List UInt8) : Nat := (scan text.length text).length

/-! ### Encodings are decoded -/

variable {c : Nat} {rest : List UInt8}

theorem next_continuation {low high bits : Nat} (hlow : low ≤ 0x80 + bits % 64) (hhigh : 0x80 + bits % 64 ≤ high) :
    next low high (continuation bits :: rest) = some (bits % 64, rest) := by
  have hnat : (continuation bits).toNat = 0x80 + bits % 64 := UInt8.toNat_ofNat_of_lt' (by unfold UInt8.size; omega)
  rw [next, hnat, if_pos ⟨hlow, hhigh⟩, Nat.add_sub_cancel_left]

theorem acceptRange_three (h : 0x7FF < c) (hc : c < 0xD800 ∨ 0xDFFF < c) (hmax : c ≤ 0xFFFF) :
    (acceptRange (0xE0 + c / 4096)).1 ≤ 0x80 + c / 64 % 64 ∧
      0x80 + c / 64 % 64 ≤ (acceptRange (0xE0 + c / 4096)).2 := by
  unfold acceptRange
  split_ifs <;> dsimp only <;> omega

theorem acceptRange_four (h : 0xFFFF < c) (hmax : c ≤ 0x10FFFF) :
    (acceptRange (0xF0 + c / 262144)).1 ≤ 0x80 + c / 4096 % 64 ∧
      0x80 + c / 4096 % 64 ≤ (acceptRange (0xF0 + c / 262144)).2 := by
  unfold acceptRange
  split_ifs <;> dsimp only <;> omega

theorem decode_encodeNat (hc : c < 0xD800 ∨ (0xDFFF < c ∧ c ≤ 0x10FFFF)) (rest : List UInt8) :
    decode (encodeNat c ++ rest) = some (c, rest) := by
  unfold encodeNat
  split_ifs with h₁ h₂ h₃
  · simp only [cons_append, nil_append, decode]
    rw [UInt8.toNat_ofNat_of_lt' (by unfold UInt8.size; omega), if_pos (by omega)]
  · simp only [cons_append, nil_append, decode]
    have hrange : acceptRange (0xC0 + c / 64) = (0x80, 0xBF) := by
      unfold acceptRange
      rw [if_neg (by omega), if_neg (by omega), if_neg (by omega), if_neg (by omega)]
    rw [UInt8.toNat_ofNat_of_lt' (by unfold UInt8.size; omega), if_neg (by omega), if_neg (by omega), hrange,
      next_continuation (by omega) (by omega)]
    simp only [bind_eq_bind, bind_some]
    rw [if_pos (by omega)]
    congr 2
    omega
  · simp only [cons_append, nil_append, decode]
    obtain ⟨hlow, hhigh⟩ := acceptRange_three (c := c) (by omega) (by omega) h₃
    rw [UInt8.toNat_ofNat_of_lt' (by unfold UInt8.size; omega), if_neg (by omega), if_neg (by omega), next_continuation hlow hhigh]
    simp only [bind_eq_bind, bind_some]
    rw [if_neg (by omega), next_continuation (by omega) (by omega), bind_some, if_pos (by omega)]
    congr 2
    omega
  simp only [cons_append, nil_append, decode]
  obtain ⟨hlow, hhigh⟩ := acceptRange_four (c := c) (by omega) (by omega)
  rw [UInt8.toNat_ofNat_of_lt' (by unfold UInt8.size; omega), if_neg (by omega), if_neg (by omega), next_continuation hlow hhigh]
  simp only [bind_eq_bind, bind_some]
  rw [if_neg (by omega), next_continuation (by omega) (by omega), bind_some, if_neg (by omega),
    next_continuation (by omega) (by omega), bind_some]
  congr 2
  omega

theorem encodeNat_ne_nil (c : Nat) : encodeNat c ≠ [] := by
  unfold encodeNat
  split_ifs <;> simp

/-! ### Texts -/

theorem scan_encode {l : List Int} (h : ∀ r ∈ l, Scalar r) {n : Nat} (hn : (l.flatMap encode).length ≤ n) :
    scan n (l.flatMap encode) = l.map fun r => some r.toNat := by
  induction l generalizing n with
  | nil => cases n <;> rfl
  | cons r l ih =>
    obtain ⟨hr, h⟩ := forall_mem_cons.mp h
    have hencode : encode r = encodeNat r.toNat := by rw [encode, if_pos hr]
    have hdecode : decode (encodeNat r.toNat ++ l.flatMap encode) = some (r.toNat, l.flatMap encode) :=
      decode_encodeNat (by unfold Scalar at hr; omega) _
    rw [flatMap_cons, hencode] at hn ⊢
    obtain ⟨b, bytes, hbytes⟩ := exists_cons_of_ne_nil (encodeNat_ne_nil r.toNat)
    rw [hbytes] at hn hdecode ⊢
    rw [length_append, length_cons] at hn
    obtain _ | n := n
    · omega
    rw [cons_append] at hdecode ⊢
    rw [scan, hdecode]
    dsimp only
    rw [ih h (by omega), map_cons]

variable {l : List Int}

variable (h : ∀ r ∈ l, Scalar r)
include h

theorem valid_encode : valid (l.flatMap encode) = true := by
  rw [valid, scan_encode h (Nat.le_refl _)]
  simp

theorem runeCount_encode : runeCount (l.flatMap encode) = l.length := by
  rw [runeCount, scan_encode h (Nat.le_refl _), length_map]

theorem runes_encode : runes (l.flatMap encode) = l := by
  have hcast : ∀ r ∈ l, ((r.toNat : Nat) : Int) = r := fun r hr => Int.toNat_of_nonneg (h r hr).nonneg
  rw [runes, scan_encode h (Nat.le_refl _), List.map_map]
  exact (map_congr_left hcast).trans (map_id l)

end Utf8
