import Mathlib

/-! Bitmaps, eight bits to a byte.

A bit is there if its byte is. `get_set` says what setting a bit does, and `spare_eq_false_iff` that
masking the last byte finds every bit that is not in use. -/
namespace Bitmap

/-- The byte that has one bit. -/
def mask (i : Nat) : UInt8 := 1 <<< UInt8.ofNat (i % 8)

/-- The bit at an index, `none` out of range. -/
def get (bits : List UInt8) (i : Nat) : Option Bool := bits[i / 8]?.map fun b => b &&& mask i ≠ 0

/-- The bitmap with one more bit, `none` out of range. -/
def set (bits : List UInt8) (i : Nat) : Option (List UInt8) :=
  if i / 8 < bits.length then some (bits.modify (i / 8) (· ||| mask i)) else none

/-- The bits of a byte beyond the first `used` ones. -/
def spare (used : Nat) (b : UInt8) : Bool := b &&& ~~~(UInt8.ofNat (2 ^ used - 1)) ≠ 0

variable {bits bits' : List UInt8} {b : UInt8} {i j used : Nat}

theorem toNat_mask (i : Nat) : (mask i).toNat = 2 ^ (i % 8) := by
  have hlt : i % 8 < 8 := Nat.mod_lt _ (by decide)
  have hpow : 2 ^ (i % 8) < 2 ^ 8 := Nat.pow_lt_pow_right (by decide) hlt
  have hshift : (UInt8.ofNat (i % 8)).toNat = i % 8 := UInt8.toNat_ofNat_of_lt' (by unfold UInt8.size; omega)
  rw [mask, UInt8.toNat_shiftLeft, hshift, Nat.mod_eq_of_lt hlt, UInt8.toNat_one, Nat.shiftLeft_eq, Nat.one_mul,
    Nat.mod_eq_of_lt hpow]

theorem and_mask_ne_zero : b &&& mask i ≠ 0 ↔ b.toNat.testBit (i % 8) = true := by
  rw [ne_eq, ← UInt8.toNat_inj, UInt8.toNat_and, toNat_mask, Nat.and_two_pow]
  cases b.toNat.testBit (i % 8) <;> simp

theorem get_eq (bits : List UInt8) (i : Nat) : get bits i = bits[i / 8]?.map fun b => b.toNat.testBit (i % 8) := by
  unfold get
  congr 1
  funext b
  rw [Bool.eq_iff_iff, decide_eq_true_iff, and_mask_ne_zero]

theorem get_of_lt (h : i / 8 < bits.length) : ∃ bit, get bits i = some bit := by
  rw [get_eq, List.getElem?_eq_getElem h]
  exact ⟨_, rfl⟩

theorem set_of_lt (h : i / 8 < bits.length) : ∃ bits', set bits i = some bits' := ⟨_, if_pos h⟩

theorem length_set (h : set bits i = some bits') : bits'.length = bits.length := by
  unfold set at h
  split_ifs at h
  obtain rfl := Option.some.inj h
  exact List.length_modify ..

theorem testBit_or_mask : (b ||| mask i).toNat.testBit (j % 8) =
    (b.toNat.testBit (j % 8) || decide (i % 8 = j % 8)) := by
  rw [UInt8.toNat_or, toNat_mask, Nat.testBit_or, Nat.testBit_two_pow]

theorem get_set (h : set bits i = some bits') : get bits' j = if i = j then some true else get bits j := by
  unfold set at h
  split_ifs at h with hlt
  obtain rfl := Option.some.inj h
  rw [get_eq, get_eq, List.getElem?_modify]
  by_cases hij : i / 8 = j / 8
  · have hmod : i % 8 = j % 8 ↔ i = j := by omega
    rw [← hij, List.getElem?_eq_getElem hlt]
    simp only [Option.map_eq_map, Option.map_some, if_true]
    rw [testBit_or_mask]
    by_cases he : i = j
    · simp [he]
    · simp [he, hmod]
  · have hne : i ≠ j := fun he => hij (by rw [he])
    simp [hij, hne]

theorem get_replicate {n : Nat} (h : i / 8 < n) : get (List.replicate n 0) i = some false := by
  rw [get_eq, List.getElem?_replicate, if_pos h]
  simp

theorem getLsbD_spare {k : Nat} (hk : k < 8) :
    (b &&& ~~~(UInt8.ofNat (2 ^ used - 1))).toBitVec.getLsbD k = (b.toNat.testBit k && decide (used ≤ k)) := by
  rw [UInt8.toBitVec_and, UInt8.toBitVec_not, BitVec.getLsbD_and, BitVec.getLsbD_not, UInt8.toBitVec_ofNat',
    BitVec.getLsbD_ofNat, Nat.testBit_two_pow_sub_one]
  simp only [hk, decide_true, BitVec.getLsbD]
  by_cases hused : used ≤ k
  · simp [hused, Nat.not_lt.mpr hused]
  · simp [hused, Nat.not_le.mp hused]

theorem spare_eq_false_iff : spare used b = false ↔ ∀ k, used ≤ k → k < 8 → b.toNat.testBit k = false := by
  rw [spare, decide_eq_false_iff_not, not_not, ← UInt8.toBitVec_inj]
  constructor
  · intro h k hused hk
    have hbit := congrArg (fun v => v.getLsbD k) h
    rw [getLsbD_spare hk] at hbit
    simpa [hused] using hbit
  intro h
  refine BitVec.eq_of_getLsbD_eq fun k hk => ?_
  rw [getLsbD_spare hk]
  by_cases hused : used ≤ k
  · simp [h k hused hk]
  · simp [hused]

end Bitmap
