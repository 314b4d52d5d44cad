import Crdt.Tag

/-! The hybrid logical clock.

A clock holds the last timestamp it used, a wall time and a logical counter, and
moves it on two occasions: `now` issues a tag, `witness` takes in a remote one.
The physical clock is an input of both calls, one reading each, and may say
anything. Both return the clock beside the result, also on an error.

Everything a caller needs is said in terms of `stamp`, the two counters read as
one number. -/
namespace Crdt.Clock

inductive Err
  | invalidReplicaID
  | invalidRemoteTag
  | clockExhausted
deriving DecidableEq, Repr

/-- The persistable portion of a clock. -/
structure State where
  replicaID : List UInt8
  wallTime : UInt64
  logical : UInt64
deriving DecidableEq, Repr

structure HLC where
  replicaID : List UInt8
  wallTime : UInt64
  logical : UInt64
deriving DecidableEq, Repr

def maxUint64 : UInt64 := 0xFFFFFFFFFFFFFFFF

def newHLCFromState (state : State) : Except Err HLC :=
  if !(Tag.valid ⟨state.replicaID, 0, 0⟩) then .error .invalidReplicaID
  else .ok ⟨state.replicaID, state.wallTime, state.logical⟩

def HLC.snapshot (h : HLC) : State := ⟨h.replicaID, h.wallTime, h.logical⟩

/-- The physical reading, `UnixMilli()`, as the clock uses it. -/
def physicalMillis (millis : Int64) : Except Err UInt64 :=
  if millis < 0 then .error .clockExhausted else .ok millis.toUInt64

def nextTimestamp (wallTime logical : UInt64) : Except Err (UInt64 × UInt64) :=
  if logical ≠ maxUint64 then .ok (wallTime, logical + 1)
  else if wallTime = maxUint64 then .error .clockExhausted
  else .ok (wallTime + 1, 0)

namespace HLC

/-- The clock moved to a timestamp. -/
def moveTo (h : HLC) (stamp : UInt64 × UInt64) : HLC :=
  {h with wallTime := stamp.1, logical := stamp.2}

/-- The tag a clock has just issued. -/
def tag (h : HLC) : Tag := ⟨h.replicaID, h.wallTime, h.logical⟩

def advanceLocal (h : HLC) (physical : UInt64) : HLC × Except Err Tag :=
  if physical > h.wallTime then
    let h := h.moveTo (physical, 0)
    (h, .ok h.tag)
  else
    match nextTimestamp h.wallTime h.logical with
    | .error err => (h, .error err)
    | .ok stamp =>
      let h := h.moveTo stamp
      (h, .ok h.tag)

def now (h : HLC) (millis : Int64) : HLC × Except Err Tag :=
  match physicalMillis millis with
  | .error err => (h, .error err)
  | .ok physical => h.advanceLocal physical

/-- The timestamp `Witness` moves to: past the latest of the clock, the remote tag
and the physical time. -/
def witnessStamp (h : HLC) (remote : Tag) (physical : UInt64) : Except Err (UInt64 × UInt64) :=
  let maxWall := max (max h.wallTime remote.wallTime) physical
  if maxWall = h.wallTime ∧ maxWall = remote.wallTime then
    nextTimestamp maxWall (max h.logical remote.logical)
  else if maxWall = h.wallTime then nextTimestamp h.wallTime h.logical
  else if maxWall = remote.wallTime then nextTimestamp remote.wallTime remote.logical
  else .ok (maxWall, 0)

def witness (h : HLC) (remote : Tag) (millis : Int64) : HLC × Except Err Unit :=
  if !remote.valid then (h, .error .invalidRemoteTag) else
  match physicalMillis millis with
  | .error err => (h, .error err)
  | .ok physical =>
    match h.witnessStamp remote physical with
    | .error err => (h, .error err)
    | .ok stamp => (h.moveTo stamp, .ok ())

end HLC

/-! ### Timestamps as numbers -/

/-- Wall time and logical counter as one number, the wall time in the high word. -/
def stamp (wallTime logical : UInt64) : Nat := wallTime.toNat * 2 ^ 64 + logical.toNat

def HLC.stamp (h : HLC) : Nat := Clock.stamp h.wallTime h.logical

def State.stamp (s : State) : Nat := Clock.stamp s.wallTime s.logical

def tagStamp (t : Tag) : Nat := Clock.stamp t.wallTime t.logical

theorem stamp_lt_iff (w l w' l' : UInt64) : stamp w l < stamp w' l' ↔ w < w' ∨ w = w' ∧ l < l' := by
  have hl := l.toNat_lt
  have hl' := l'.toNat_lt
  simp only [stamp, UInt64.lt_iff_toNat_lt, ← UInt64.toNat_inj]
  omega

theorem stamp_lt_of_wall {w w' : UInt64} (l l' : UInt64) (h : w < w') : stamp w l < stamp w' l' :=
  (stamp_lt_iff w l w' l').mpr (.inl h)

theorem stamp_le_of_logical (w : UInt64) {l l' : UInt64} (h : l ≤ l') : stamp w l ≤ stamp w l' := by
  have := UInt64.le_iff_toNat_le.mp h
  simp only [stamp]
  omega

variable {t : Tag}

theorem lt_of_tagStamp_lt {u : Tag} (h : tagStamp t < tagStamp u) : t < u := by
  rw [Tag.lt_iff]
  rcases (stamp_lt_iff ..).mp h with hw | ⟨hw, hl⟩
  · exact .inl hw
  · exact .inr ⟨hw, .inl hl⟩

theorem tagStamp_mono {t u : Tag} (h : t ≤ u) : tagStamp t ≤ tagStamp u := by
  by_contra hlt
  exact absurd (lt_of_tagStamp_lt (not_le.mp hlt)) (not_lt.mpr h)

theorem toNat_maxUint64 : maxUint64.toNat = 2 ^ 64 - 1 := rfl

/-- The carry is exact: the next timestamp is one more, and neither addition wraps. -/
theorem nextTimestamp_stamp {w l w' l' : UInt64} (h : nextTimestamp w l = .ok (w', l')) :
    stamp w' l' = stamp w l + 1 := by
  have hmax := toNat_maxUint64
  have hl := l.toNat_lt
  have hw := w.toNat_lt
  unfold nextTimestamp at h
  split at h
  · rename_i hne
    cases h
    have : l.toNat ≠ maxUint64.toNat := fun he => hne (UInt64.toNat_inj.mp he)
    simp only [stamp, UInt64.toNat_add, UInt64.toNat_one]
    omega
  rename_i hne
  split at h
  · cases h
  rename_i hwne
  cases h
  have hlmax : l.toNat = maxUint64.toNat := by rw [Classical.not_not.mp hne]
  have : w.toNat ≠ maxUint64.toNat := fun he => hwne (UInt64.toNat_inj.mp he)
  simp only [stamp, UInt64.toNat_add, UInt64.toNat_one, UInt64.toNat_zero]
  omega

namespace HLC

@[simp] theorem moveTo_stamp (h : HLC) (s : UInt64 × UInt64) : (h.moveTo s).stamp = Clock.stamp s.1 s.2 := rfl

@[simp] theorem snapshot_stamp (h : HLC) : h.snapshot.stamp = h.stamp := rfl

@[simp] theorem tagStamp_tag (h : HLC) : tagStamp h.tag = h.stamp := rfl

variable {h : HLC}

theorem newHLCFromState_ok {s : State} (he : newHLCFromState s = .ok h) : h.snapshot = s := by
  unfold newHLCFromState at he
  split at he
  · cases he
  · obtain rfl := Except.ok.inj he
    rfl

variable {h' : HLC} {p : UInt64}

/-- A local step issues the tag it stands at, past the timestamp it stood at. -/
theorem advanceLocal_ok (he : h.advanceLocal p = (h', .ok t)) :
    t = h'.tag ∧ h'.replicaID = h.replicaID ∧ h.stamp < h'.stamp := by
  unfold advanceLocal at he
  split at he
  · rename_i hp
    cases he
    exact ⟨rfl, rfl, stamp_lt_of_wall h.logical 0 hp⟩
  split at he
  · cases he
  rename_i s hs
  cases he
  have := nextTimestamp_stamp hs
  exact ⟨rfl, rfl, by rw [moveTo_stamp, HLC.stamp]; omega⟩

variable {err : Err}

theorem advanceLocal_error (he : h.advanceLocal p = (h', .error err)) : h' = h := by
  unfold advanceLocal at he
  split at he
  · cases he
  split at he
  · exact (Prod.mk.inj he).1.symm
  · cases he

variable {millis : Int64}

theorem now_ok (he : h.now millis = (h', .ok t)) :
    t = h'.tag ∧ h'.replicaID = h.replicaID ∧ h.stamp < h'.stamp := by
  unfold now at he
  split at he
  · cases he
  · exact advanceLocal_ok he

theorem now_error (he : h.now millis = (h', .error err)) : h' = h := by
  unfold now at he
  split at he
  · exact (Prod.mk.inj he).1.symm
  · exact advanceLocal_error he

variable {remote : Tag}

/-- The four-way choice lands past both the clock and the remote tag. -/
theorem witnessStamp_ok {s : UInt64 × UInt64} (he : h.witnessStamp remote p = .ok s) :
    h.stamp < Clock.stamp s.1 s.2 ∧ tagStamp remote < Clock.stamp s.1 s.2 := by
  have hh : h.wallTime ≤ max (max h.wallTime remote.wallTime) p := (le_max_left _ _).trans (le_max_left _ _)
  have hr : remote.wallTime ≤ max (max h.wallTime remote.wallTime) p :=
    (le_max_right _ _).trans (le_max_left _ _)
  unfold witnessStamp at he
  simp only at he
  generalize max (max h.wallTime remote.wallTime) p = maxWall at hh hr he
  split at he
  · rename_i hc
    obtain ⟨rfl, hc⟩ := hc
    have hs := nextTimestamp_stamp he
    have h₁ : h.stamp ≤ Clock.stamp h.wallTime (max h.logical remote.logical) :=
      stamp_le_of_logical _ (le_max_left _ _)
    have h₂ : tagStamp remote ≤ Clock.stamp h.wallTime (max h.logical remote.logical) := by
      rw [hc]
      exact stamp_le_of_logical _ (le_max_right _ _)
    omega
  rename_i hboth
  split at he
  · rename_i hc
    subst hc
    have hs := nextTimestamp_stamp he
    have hlt : remote.wallTime < h.wallTime := lt_of_le_of_ne hr (fun hc => hboth ⟨rfl, hc.symm⟩)
    have h₁ : tagStamp remote < h.stamp := stamp_lt_of_wall _ _ hlt
    simp only [HLC.stamp] at h₁ ⊢
    omega
  rename_i hne
  split at he
  · rename_i hc
    subst hc
    have hs := nextTimestamp_stamp he
    have h₁ : h.stamp < tagStamp remote := stamp_lt_of_wall _ _ (lt_of_le_of_ne hh (fun hc => hne hc.symm))
    simp only [tagStamp] at h₁ ⊢
    omega
  rename_i hne'
  obtain rfl : (maxWall, 0) = s := Except.ok.inj he
  exact ⟨stamp_lt_of_wall _ _ (lt_of_le_of_ne hh (fun hc => hne hc.symm)),
    stamp_lt_of_wall _ _ (lt_of_le_of_ne hr (fun hc => hne' hc.symm))⟩

theorem witness_ok (he : h.witness remote millis = (h', .ok ())) :
    h'.replicaID = h.replicaID ∧ h.stamp < h'.stamp ∧ tagStamp remote < h'.stamp := by
  unfold witness at he
  split at he
  · cases he
  split at he
  · cases he
  split at he
  · cases he
  rename_i s hs
  obtain rfl := (Prod.mk.inj he).1
  exact ⟨rfl, witnessStamp_ok hs⟩

theorem witness_error (he : h.witness remote millis = (h', .error err)) : h' = h := by
  unfold witness at he
  split at he
  · exact (Prod.mk.inj he).1.symm
  split at he
  · exact (Prod.mk.inj he).1.symm
  split at he
  · exact (Prod.mk.inj he).1.symm
  · cases he

end HLC
end Crdt.Clock
