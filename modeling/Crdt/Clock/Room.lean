import Crdt.Clock.Hlc

/-! How much room a clock has.

The stamps of a clock end at `endStamp`. A call moves a clock by one past what it has seen, or to a
reading of the physical clock, which is in the lower half; it fails only where a step past the end would
be needed, or where the physical clock is before its epoch. -/
namespace Crdt.Clock

/-- The last timestamp. -/
def endStamp : Nat := 2 ^ 128 - 1

/-- Every reading of the physical clock is before this stamp. -/
def physicalEnd : Nat := 2 ^ 127

theorem nextTimestamp_error {w l : UInt64} {err : Err} (h : nextTimestamp w l = .error err) :
    stamp w l = endStamp := by
  unfold nextTimestamp at h
  split at h
  · cases h
  rename_i hl
  split at h
  · rename_i hw
    rw [Classical.not_not.mp hl, hw]
    rfl
  · cases h

theorem physicalMillis_lt {millis : Int64} {physical : UInt64} (h : physicalMillis millis = .ok physical) :
    physical.toNat < 2 ^ 63 := by
  unfold physicalMillis at h
  split at h
  · cases h
  rename_i hneg
  cases h
  have hnonneg : 0 ≤ millis.toInt := by
    rw [Int64.lt_iff_toInt_lt] at hneg
    simpa using hneg
  have hlt := millis.toInt_lt
  have htoNat : millis.toUInt64.toNat = millis.toInt.toNat := by
    show millis.toBitVec.toNat = millis.toBitVec.toInt.toNat
    have hmsb : millis.toBitVec.msb = false := by
      rw [BitVec.msb_eq_toInt]
      exact decide_eq_false (not_lt.mpr hnonneg)
    rw [BitVec.toInt_eq_toNat_of_msb hmsb]
    rfl
  omega

theorem stamp_lt_physicalEnd {w : UInt64} (h : w.toNat < 2 ^ 63) (l : UInt64) : stamp w l < physicalEnd := by
  have hl := l.toNat_lt
  unfold stamp physicalEnd
  omega

namespace HLC

variable {h h' : HLC} {millis : Int64} {remote : Tag}

/-! ### How far a call goes -/

theorem now_le {t : Tag} (he : h.now millis = (h', .ok t)) : h'.stamp ≤ max h.stamp physicalEnd + 1 := by
  unfold now at he
  split at he
  · cases he
  rename_i physical hphysical
  have hlt := stamp_lt_physicalEnd (physicalMillis_lt hphysical) 0
  unfold advanceLocal at he
  split at he
  · cases he
    show Clock.stamp physical 0 ≤ _
    omega
  split at he
  · cases he
  rename_i s hs
  cases he
  have hnext : Clock.stamp s.1 s.2 = h.stamp + 1 := nextTimestamp_stamp hs
  rw [moveTo_stamp]
  omega

theorem witness_le (he : h.witness remote millis = (h', .ok ())) :
    h'.stamp ≤ max (max h.stamp (tagStamp remote)) physicalEnd + 1 := by
  unfold witness at he
  split at he
  · cases he
  split at he
  · cases he
  rename_i physical hphysical
  split at he
  · cases he
  rename_i s hs
  cases he
  rw [moveTo_stamp]
  have hlt := stamp_lt_physicalEnd (physicalMillis_lt hphysical) 0
  unfold witnessStamp at hs
  dsimp only at hs
  split at hs
  · rename_i hboth
    have hnext := nextTimestamp_stamp hs
    have hmax : Clock.stamp (max (max h.wallTime remote.wallTime) physical) (max h.logical remote.logical) ≤
        max h.stamp (tagStamp remote) := by
      cases le_total h.logical remote.logical with
      | inl hle =>
        rw [max_eq_right hle]
        nth_rewrite 1 [hboth.2]
        exact le_max_right ..
      | inr hle =>
        rw [max_eq_left hle]
        nth_rewrite 1 [hboth.1]
        exact le_max_left ..
    omega
  split at hs
  · have hnext : Clock.stamp s.1 s.2 = h.stamp + 1 := nextTimestamp_stamp hs
    omega
  split at hs
  · have hnext : Clock.stamp s.1 s.2 = tagStamp remote + 1 := nextTimestamp_stamp hs
    omega
  rename_i hlocal hremote
  have hphysicalMax : max (max h.wallTime remote.wallTime) physical = physical := by
    cases le_total (max h.wallTime remote.wallTime) physical with
    | inl hp => exact max_eq_right hp
    | inr hp =>
      rw [max_eq_left hp] at hlocal hremote
      cases le_total h.wallTime remote.wallTime with
      | inl hw => exact absurd (max_eq_right hw) hremote
      | inr hw => exact absurd (max_eq_left hw) hlocal
  rw [hphysicalMax] at hs
  cases hs
  show Clock.stamp physical 0 ≤ _
  omega

/-! ### When a call succeeds -/

theorem physicalMillis_of_nonneg (hm : 0 ≤ millis) : physicalMillis millis = .ok millis.toUInt64 :=
  if_neg (Int64.not_lt.mpr hm)

theorem exists_witness (hv : remote.valid = true) (hm : 0 ≤ millis) (hend : h.stamp < endStamp)
    (hremote : tagStamp remote < endStamp) : ∃ h', h.witness remote millis = (h', .ok ()) := by
  unfold witness
  rw [physicalMillis_of_nonneg hm, if_neg (by simp [hv])]
  dsimp only
  cases hs : h.witnessStamp remote millis.toUInt64 with
  | ok s => exact ⟨_, rfl⟩
  | error err =>
    exfalso
    unfold witnessStamp at hs
    dsimp only at hs
    split at hs
    · rename_i hboth
      have hlast := nextTimestamp_error hs
      cases le_total h.logical remote.logical with
      | inl hle =>
        rw [max_eq_right hle, hboth.2] at hlast
        exact hremote.ne hlast
      | inr hle =>
        rw [max_eq_left hle, hboth.1] at hlast
        exact hend.ne hlast
    split at hs
    · exact hend.ne (nextTimestamp_error hs)
    split at hs
    · exact hremote.ne (nextTimestamp_error hs)
    · cases hs

end HLC

end Crdt.Clock
