import Crdt.Text.Reach

/-! The clock of a replica is ahead of what the replica has seen.

`greatestTag` is the greatest tag of a delta, and a delta goes in only after the clock has
witnessed it; so in every reachable state the clock stands past every known node and every
tombstone (`Reachable.sound`), and the next tags it issues are greater than all of them. -/
namespace Crdt

namespace Text

open Clock Rga Sequence MapLoop Option

variable {r r' : RGA} {delta : Delta} {millis : Int64} {tags removed : List Position}

/-- The clock of one replica, and not further back. -/
def Onward (clock clock' : HLC) : Prop := clock'.replicaID = clock.replicaID ∧ clock.stamp ≤ clock'.stamp

/-- The clock is ahead, and everything known has passed the checks on a delta. -/
structure Sound (r : RGA) : Prop where
  ahead : ∀ x item, r.known x = some item → tagStamp x ≤ r.clock.stamp
  buried : ∀ x ∈ r.tombstones, tagStamp x ≤ r.clock.stamp
  runes : ∀ x item, r.known x = some item → validRune item.value = true
  replicaID : blank r.clock.replicaID = false

theorem Sound.tick {clock : HLC} (h : Sound r) (hclock : Onward r.clock clock) : Sound {r with clock} :=
  ⟨fun x item hx => (h.ahead x item hx).trans hclock.2, fun x hx => (h.buried x hx).trans hclock.2, h.runes,
    hclock.1 ▸ h.replicaID⟩

theorem witnessGreatest_ahead {clock : HLC}
    (h : r.witnessGreatest delta millis = ({r with clock}, .ok ())) :
    clock.replicaID = r.clock.replicaID ∧ r.clock.stamp ≤ clock.stamp ∧
      ∀ x, x ∈ delta.nodes ∨ x ∈ delta.tombstones ∨ x.valid = true ∧ (∃ y, parentOf delta.nodes y = some x) →
        tagStamp x ≤ clock.stamp := by
  unfold RGA.witnessGreatest at h
  cases hg : greatestTag delta.nodes delta.tombstones with
  | none =>
    simp only [hg, Prod.mk.injEq, and_true] at h
    have hc : r.clock = clock := congrArg RGA.clock h
    subst hc
    refine ⟨rfl, Nat.le_refl _, fun x hx => ?_⟩
    obtain ⟨g, hg', _⟩ := le_greatestTag hx
    simp [hg] at hg'
  | some g =>
    rw [hg] at h
    rcases hw : r.clock.witness g millis with ⟨clock', err | ⟨⟩⟩
    · simp [hw] at h
    simp only [hw, Prod.mk.injEq, and_true] at h
    have hc : clock' = clock := congrArg RGA.clock h
    subst hc
    obtain ⟨hid, hlt, hlt'⟩ := HLC.witness_ok hw
    refine ⟨hid, hlt.le, fun x hx => ?_⟩
    obtain ⟨g', hg', hle⟩ := le_greatestTag hx
    rw [hg] at hg'
    cases hg'
    exact (tagStamp_mono hle).trans hlt'.le

theorem finish_clock {state : Replica Rune} {changed : Bool} {res : Except Err Unit}
    (h : r.finish delta state changed = some (r', res)) : r'.clock = r.clock := by
  obtain ⟨⟨s₁, drained⟩, _, h⟩ := bind_eq_some_iff.mp h
  obtain ⟨⟨s₂, buried⟩, _, h⟩ := bind_eq_some_iff.mp h
  cases h
  rfl

/-- The two ways in, as far as the indexes: what the limits leave, and whether it counts as a
change. -/
inductive Takes (r : RGA) (delta : Delta) : Replica Rune → Bool → Prop
  | run {ids : List Position} {state : Replica Rune} :
      resolvedLinearRun r.toReplica delta = some ids →
      r.nodes.size + r.pending.size + ids.length ≤ r.options.maxNodes →
      integrateRun r.toReplica delta.nodes ids = some state → Takes r delta state (ids.length > 0)
  | plan {plan : DeltaPlan} {state : Replica Rune} {changed : Bool} :
      planDelta r.toReplica delta = some plan →
      r.nodes.size + r.pending.size + plan.nodes.size ≤ r.options.maxNodes →
      r.pending.size + plan.pendingNodes ≤ r.options.maxPendingNodes →
      r.pendingBytes + plan.pendingBytes ≤ r.options.maxPendingBytes →
      integratePlan r.toReplica plan = some (state, changed) → Takes r delta state changed

section
variable {millis : Int64} (h : r.applyDelta delta millis = some (r', .ok ()))
include h

/-- A call that succeeds had nothing to do, or the delta has gone in after the clock had
witnessed it. -/
theorem applyDelta_takes :
    r' = r ∨ ∃ clock state changed, r.witnessGreatest delta millis = ({r with clock}, .ok ()) ∧
      r.tombstones.size + newTombstones delta.tombstones r.tombstones ≤ r.options.maxTombstones ∧
      Takes r delta state changed ∧ RGA.finish {r with clock} delta state changed = some (r', .ok ()) := by
  unfold RGA.applyDelta at h
  split at h
  · simp at h
  unfold RGA.applyDeltaLocked at h
  by_cases hconf : r.conflicts delta.nodes = true
  · simp [hconf] at h
  by_cases hsub : r.subsumes delta.nodes delta.tombstones = true
  · rw [if_neg hconf, if_pos hsub] at h
    cases h
    exact .inl rfl
  rw [if_neg hconf, if_neg hsub] at h
  right
  rcases witnessGreatest_spec r delta millis with ⟨clock, hw⟩ | ⟨err, hw⟩
  · split at h
    · rename_i ids hrun
      unfold RGA.applyResolvedLinearRun at h
      rw [hw] at h
      split_ifs at h with hlimit
      · simp at h
      obtain ⟨state, hstate, hfin⟩ := bind_eq_some_iff.mp h
      simp only [not_or, not_lt] at hlimit
      exact ⟨clock, state, _, hw, hlimit.2, .run hrun hlimit.1 hstate, hfin⟩
    split_ifs at h
    · simp at h
    unfold RGA.applyPlannedDelta at h
    obtain ⟨plan, hplan, h⟩ := bind_eq_some_iff.mp h
    rw [hw] at h
    split_ifs at h with hlimit
    · simp at h
    obtain ⟨⟨state, changed⟩, hstate, hfin⟩ := bind_eq_some_iff.mp h
    simp only [not_or, not_lt] at hlimit
    exact ⟨clock, state, changed, hw, hlimit.2.2.2,
      .plan hplan hlimit.1 hlimit.2.1 hlimit.2.2.1 hstate, hfin⟩
  split at h
  · unfold RGA.applyResolvedLinearRun at h
    rw [hw] at h
    split_ifs at h <;> simp at h
  split_ifs at h
  · simp at h
  unfold RGA.applyPlannedDelta at h
  obtain ⟨plan, hplan, h⟩ := bind_eq_some_iff.mp h
  rw [hw] at h
  split_ifs at h <;> simp at h

theorem applyDelta_clock :
    r' = r ∨ ∃ clock, r.witnessGreatest delta millis = ({r with clock}, .ok ()) ∧ r'.clock = clock := by
  rcases applyDelta_takes h with rfl | ⟨clock, state, changed, hw, _, _, hfin⟩
  · exact .inl rfl
  · exact .inr ⟨clock, hw, finish_clock hfin⟩

end

theorem Sound.apply (h : Sound r) (ha : Applied r delta r')
    (happ : r.applyDelta delta millis = some (r', .ok ())) : Sound r' := by
  rcases applyDelta_clock happ with rfl | ⟨clock, hw, hc⟩
  · exact h
  obtain ⟨hid, hle, hnew⟩ := witnessGreatest_ahead hw
  refine ⟨fun x item hx => ?_, fun x hx => ?_, fun x item hx => ?_, ?_⟩
  · rw [hc]
    rcases (ha.joins.known_iff ha.agrees).mp hx with hx | hx
    · exact (h.ahead x item hx).trans hle
    · exact hnew x (.inl (mem_iff.mpr ⟨item, hx⟩))
  · rw [hc]
    rcases (ha.joins.tombstones x).mp hx with hx | hx
    · exact (h.buried x hx).trans hle
    · exact hnew x (.inr (.inl hx))
  · rcases (ha.joins.known_iff ha.agrees).mp hx with hx | hx
    · exact h.runes x item hx
    · exact (ha.valid.nodes.valid x item hx).2.1
  · rw [hc, hid]
    exact h.replicaID

theorem sound_new {state : Clock.State} {options : Options}
    (hnew : newFromClockWithOptions state options = some (.ok r)) : Sound r := by
  have hh := newFromClockWithOptions_spec hnew
  have hk : ∀ x item, r.known x ≠ some item := fun x item hx => by simpa using (hh.known x item).mp hx
  refine ⟨fun x item hx => (hk x item hx).elim, fun x hx => ?_, fun x item hx => (hk x item hx).elim, ?_⟩
  · simpa using (hh.tombstones x).mp hx
  unfold newFromClockWithOptions at hnew
  split_ifs at hnew with hid
  · simp at hnew
  · simp at hnew
  cases hc : newHLCFromState state with
  | error err => simp [hc] at hnew
  | ok clock =>
    obtain ⟨r₀, hr₀, _⟩ := newReplica_spec Rune
    simp only [hc, hr₀, bind_eq_bind, bind_some] at hnew
    cases hnew
    have hsnap := congrArg State.replicaID (HLC.newHLCFromState_ok hc)
    rw [show clock.replicaID = state.replicaID from hsnap]
    simpa [Tag.valid] using hid

theorem Sound.installState (h : Sound r) {nodes : TagMap (Node Rune)} {tombstones : TagSet}
    (hv : Delta.Valid {nodes, tombstones})
    (happ : r.installState nodes tombstones millis = some (r', .ok ())) : Sound r' := by
  obtain ⟨⟨_, herr⟩, -⟩ | ⟨-, -, -, clock, _, _, hw, rfl⟩ := installState_cases happ
  · cases herr
  obtain ⟨hid, -, hnew⟩ := witnessGreatest_ahead hw
  refine ⟨fun x item hx => ?_, fun x hx => hnew x (.inr (.inl hx)), fun x item hx => ?_, hid ▸ h.replicaID⟩
  · exact hnew x (.inl (mem_iff.mpr ⟨item, by simpa [Replica.known] using hx⟩))
  · exact (hv.nodes.valid x item (by simpa [Replica.known] using hx)).2.1

/-- A compaction adds nothing. -/
theorem Compacted.known (hc : Compacted r r' tags removed) (hinv : r.Inv)
    (x : Position) (item : Node Rune) (hx : r'.known x = some item) : r.known x = some item := by
  rw [Replica.known, hc.pruned.nodes, hc.pruned.pending] at hx
  split_ifs at hx with hr
  · exact known_of_pending hinv.queued (by simpa using hx)
  · exact hx

theorem Sound.compact (h : Sound r) (hinv : r.Inv) (hc : Compacted r r' tags removed) : Sound r' := by
  have hk := hc.known hinv
  refine ⟨fun x item hx => ?_, fun x hx => ?_, fun x item hx => h.runes x item (hk x item hx), ?_⟩
  · rw [hc.clock]
    exact h.ahead x item (hk x item hx)
  · rw [hc.clock]
    exact h.buried x ((hc.pruned.tombstones x).mp hx).2
  · rw [hc.clock]
    exact h.replicaID

theorem Reachable.sound (h : Reachable Onward r) : Sound r := by
  induction h with
  | new hnew => exact sound_new hnew
  | tick _ hclock ih => exact ih.tick hclock
  | applyDelta hr happ ih =>
    rcases ends_of_run (applyDelta_spec hr.inv.1 hr.inv.2 _ _) happ with ⟨rfl, ha⟩ | ⟨_, rfl⟩
    · exact ih.apply ha happ
    · exact ih
  | installState _ hv happ ih =>
    have hv := validateDelta_eq_ok.mp hv
    rcases ends_of_run (installState_spec _ hv _) happ with ⟨rfl, _⟩ | ⟨_, rfl⟩
    · exact ih.installState hv happ
    · exact ih
  | compactTombstones hr happ ih =>
    rcases ends_of_run (compactTombstones_spec hr.inv.1 _) happ with ⟨_, _, hc⟩ | ⟨_, rfl⟩
    · exact ih.compact hr.inv.1 hc
    · exact ih
  | compactEligibleTombstones hr happ ih =>
    rcases ends_of_run (compactEligibleTombstones_spec hr.inv.1 hr.inv.2 _) happ with ⟨_, _, hc⟩ | ⟨_, rfl⟩
    · exact ih.compact hr.inv.1 hc
    · exact ih

end Text

end Crdt
