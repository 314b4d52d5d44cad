import Crdt.Clock.Room
import Crdt.Text.Prepare

/-! What every call of a text keeps.

`Kept` puts together what holds of a text between calls: its indexes are one sequence, nothing pending
could be integrated, and its clock is ahead of everything it knows. Each call keeps it whether it succeeds
or not, and says how far it has moved the clock. -/
namespace Crdt.Text

open Clock Rga Sequence MapLoop Option

variable {r r' : RGA} {delta : Delta} {millis : Int64}

/-! ### The tags of a delta -/

/-- A tag that a delta has, of a node, of its parent or of a tombstone. -/
def Names (nodes : TagMap (Node Rune)) (tombstones : TagSet) (tag : Tag) : Prop :=
  tag ∈ nodes ∨ (∃ (x : Position) (item : Node Rune), nodes[x]? = some item ∧ item.parent = tag) ∨ tag ∈ tombstones

variable {nodes : TagMap (Node Rune)} {tombstones : TagSet}

theorem greatestTag_names {g : Tag} (h : greatestTag nodes tombstones = some g) : Names nodes tombstones g := by
  rw [greatestTag_eq_max?] at h
  rcases mem_shownTags.mp (List.max?_eq_some_iff.mp h).1 with hg | hg | ⟨-, x, hx⟩
  · exact .inl hg
  · exact .inr (.inr hg)
  · exact .inr (.inl ⟨x, parentOf_eq_some.mp hx⟩)

/-! ### How far the clock goes -/

variable {clock : HLC} {bound : Nat} {res : Except Err Unit}

section
variable (hb : ∀ tag, Names delta.nodes delta.tombstones tag → tagStamp tag ≤ bound)
  (hclock : r.clock.stamp ≤ bound) (hphysical : physicalEnd ≤ bound)
include hb hclock hphysical

/-- Past the clock, the tags of the delta and the physical clock, by one. -/
theorem witnessGreatest_le
    (h : r.witnessGreatest delta millis = ({r with clock}, .ok ())) : clock.stamp ≤ bound + 1 := by
  unfold RGA.witnessGreatest at h
  cases hg : greatestTag delta.nodes delta.tombstones with
  | none =>
    rw [hg] at h
    have heq : r.clock = clock := congrArg (fun p => p.1.clock) h
    rw [← heq]
    omega
  | some g =>
    rw [hg] at h
    dsimp only at h
    rcases hw : r.clock.witness g millis with ⟨clock', err | ⟨⟩⟩
    · rw [hw] at h
      cases congrArg Prod.snd h
    rw [hw] at h
    have heq : clock' = clock := congrArg (fun p => p.1.clock) h
    have hle := HLC.witness_le hw
    have hg' := hb g (greatestTag_names hg)
    rw [← heq]
    omega

theorem applyDelta_stamp_le
    (h : r.applyDelta delta millis = some (r', .ok ())) : r'.clock.stamp ≤ bound + 1 := by
  cases applyDelta_clock h with
  | inl heq =>
    rw [heq]
    omega
  | inr hw =>
    obtain ⟨clock, hw, hc⟩ := hw
    rw [hc]
    exact witnessGreatest_le hb hclock hphysical hw

end

theorem installState_stamp_le
    (hb : ∀ tag, Names nodes tombstones tag → tagStamp tag ≤ bound) (hclock : r.clock.stamp ≤ bound)
    (hphysical : physicalEnd ≤ bound) (h : r.installState nodes tombstones millis = some (r', .ok ())) :
    r'.clock.stamp ≤ bound + 1 := by
  obtain ⟨⟨_, herr⟩, -⟩ | ⟨-, -, -, clock, _, _, hw, rfl⟩ := installState_cases h
  · cases herr
  · exact witnessGreatest_le hb hclock hphysical hw

/-! ### The invariant -/

structure Kept (r : RGA) : Prop where
  inv : r.Inv
  settled : r.Settled
  sound : Sound r

theorem Kept.ready (h : Kept r) (hp : r.pending = ∅) : Ready r := ⟨h.inv, h.settled, hp, h.sound⟩

theorem kept_new {state : Clock.State} {options : Options}
    (h : newFromClockWithOptions state options = some (.ok r)) : Kept r ∧ r.clock.snapshot = state := by
  have hh := newFromClockWithOptions_spec h
  refine ⟨⟨hh.inv, hh.settled, sound_new h⟩, ?_⟩
  unfold newFromClockWithOptions at h
  split_ifs at h
  · cases h
  · cases h
  cases hc : newHLCFromState state with
  | error err =>
    rw [hc] at h
    cases h
  | ok clock =>
    rw [hc] at h
    cases h
    exact HLC.newHLCFromState_ok hc

theorem Kept.tick (h : Kept r) (hid : clock.replicaID = r.clock.replicaID)
    (hle : r.clock.stamp ≤ clock.stamp) : Kept {r with clock} where
  inv := h.inv
  settled := h.settled
  sound := h.sound.tick ⟨hid, hle⟩

/-- A call keeps the text, and changes nothing if it fails. -/
theorem Kept.applyDelta (h : Kept r) (happ : r.applyDelta delta millis = some (r', res)) :
    Kept r' ∧ ((∃ err, res = .error err) → r' = r) := by
  cases ends_of_run (applyDelta_spec h.inv h.settled delta millis) happ with
  | inr hfail =>
    obtain ⟨-, rfl⟩ := hfail
    exact ⟨h, fun _ => rfl⟩
  | inl hdone =>
    obtain ⟨rfl, ha⟩ := hdone
    exact ⟨⟨ha.joins.inv, ha.joins.settled, h.sound.apply ha happ⟩, nofun⟩

theorem Kept.installState (h : Kept r)
    (hvalid : Delta.Valid {nodes, tombstones}) (happ : r.installState nodes tombstones millis = some (r', res)) :
    Kept r' ∧ (res = .ok () ∧ Installed r r' nodes tombstones ∨ (∃ err, res = .error err) ∧ r' = r) := by
  have hends := ends_of_run (installState_spec r hvalid millis) happ
  refine ⟨?_, hends⟩
  rcases hends with ⟨rfl, hi⟩ | ⟨-, rfl⟩
  · exact ⟨hi.inv, settled_of_empty hi.pending, h.sound.installState hvalid happ⟩
  · exact h

variable {e : Wire.Env} {limits : Wire.Limits}

/-- A frame is installed as the state it stands for, and the clock moves on. -/
theorem Kept.unmarshalRunBinary (h : Kept r) {data : List UInt8} {res : Except WireErr Unit}
    (happ : r.unmarshalRunBinaryWithLimits e data limits millis = some (r', res)) :
    Kept r' ∧ ((∃ err, res = .error err) → r' = r) ∧ (res = .ok () →
      ∃ nodes tombstones, unmarshalRGARunState e data limits = .ok (nodes, tombstones) ∧
        r.installState nodes tombstones millis = some (r', .ok ()) ∧ Installed r r' nodes tombstones) := by
  unfold RGA.unmarshalRunBinaryWithLimits RGA.installDecoded at happ
  cases hu : unmarshalRGARunState e data limits with
  | broken =>
    rw [hu] at happ
    cases happ
  | error err =>
    rw [hu] at happ
    cases happ
    exact ⟨h, fun _ => rfl, nofun⟩
  | ok p =>
    rw [hu] at happ
    obtain ⟨nodes, tombstones⟩ := p
    obtain ⟨⟨r₁, res₁⟩, hinstall, happ⟩ := bind_eq_some_iff.mp happ
    cases happ
    have hvalid : Delta.Valid {nodes, tombstones} := by
      obtain ⟨⟨nodes', tombstones', ids⟩, hdecoded, hpair⟩ := Checked.bind_eq_ok_iff.mp hu
      cases hpair
      exact validateDelta_eq_ok.mp (validate_of_unmarshal hdecoded)
    obtain ⟨hkept, ⟨rfl, hi⟩ | ⟨⟨err, rfl⟩, rfl⟩⟩ := h.installState hvalid hinstall
    · exact ⟨hkept, nofun, fun _ => ⟨nodes, tombstones, rfl, hinstall, hi⟩⟩
    · exact ⟨h, fun _ => rfl, nofun⟩

variable {tags : List Position}

theorem Kept.compacted (h : Kept r) {removed : List Position} (hc : Compacted r r' tags removed) : Kept r' :=
  ⟨hc.inv, hc.settled, h.sound.compact h.inv hc⟩

theorem Kept.compactTombstones (h : Kept r) {res : Except Err Nat}
    (happ : r.compactTombstones tags = some (r', res)) : Kept r' := by
  cases ends_of_run (compactTombstones_spec h.inv tags) happ with
  | inl hdone =>
    obtain ⟨removed, -, hc⟩ := hdone
    exact h.compacted hc
  | inr hfail =>
    obtain ⟨-, rfl⟩ := hfail
    exact h

theorem Kept.compactEligibleTombstones (h : Kept r) {res : Except Err Nat}
    (happ : r.compactEligibleTombstones tags = some (r', res)) : Kept r' := by
  cases ends_of_run (compactEligibleTombstones_spec h.inv h.settled tags) happ with
  | inl hdone =>
    obtain ⟨removed, -, hc⟩ := hdone
    exact h.compacted hc
  | inr hfail =>
    obtain ⟨-, rfl⟩ := hfail
    exact h

/-! ### Calls that move nothing but the clock -/

/-- The clock of a text has moved on, and nothing else. -/
structure Ticked (r r' : RGA) : Prop where
  same : r' = {r with clock := r'.clock}
  replicaID : r'.clock.replicaID = r.clock.replicaID
  le : r.clock.stamp ≤ r'.clock.stamp

theorem Ticked.refl (r : RGA) : Ticked r r := ⟨rfl, rfl, Nat.le_refl _⟩

theorem Ticked.kept (ht : Ticked r r') (h : Kept r) : Kept r' := by
  rw [ht.same]
  exact h.tick ht.replicaID ht.le

theorem witnessTag_ticked {tag : Position} (h : r.witnessTag tag millis = (r', res)) :
    Ticked r r' ∧ ((∃ err, res = .error err) → r' = r) := by
  unfold RGA.witnessTag at h
  rcases hw : r.clock.witness tag millis with ⟨clock, err | ⟨⟩⟩
  · rw [hw] at h
    cases h
    rw [HLC.witness_error hw]
    exact ⟨.refl r, fun _ => rfl⟩
  rw [hw] at h
  cases h
  obtain ⟨hid, hlt, -⟩ := HLC.witness_ok hw
  exact ⟨⟨rfl, hid, hlt.le⟩, nofun⟩

theorem nextTag_ticked {res : Except Err Position} (h : r.nextTag millis = (r', res)) : Ticked r r' := by
  unfold RGA.nextTag at h
  rcases hn : r.clock.now millis with ⟨clock, err | tag⟩
  · rw [hn] at h
    cases h
    rw [HLC.now_error hn]
    exact .refl r
  rw [hn] at h
  cases h
  obtain ⟨-, hid, hlt⟩ := HLC.now_ok hn
  exact ⟨rfl, hid, hlt.le⟩

theorem nowChain_le {millis : Nat → Int64} {i : Nat} {clock' : HLC} {value : List Rune}
    {res : Except Err (List (Position × Rune))} (h : nowChain millis i clock value = (clock', res)) :
    clock'.replicaID = clock.replicaID ∧ clock.stamp ≤ clock'.stamp ∧
      clock'.stamp ≤ max clock.stamp physicalEnd + value.length := by
  induction value generalizing i clock clock' res with
  | nil =>
    cases h
    exact ⟨rfl, Nat.le_refl _, (le_max_left ..).trans (Nat.le_add_right _ _)⟩
  | cons v rest ih =>
    unfold nowChain at h
    rcases hnow : clock.now (millis i) with ⟨clock₁, err | id⟩
    · rw [hnow] at h
      cases h
      rw [HLC.now_error hnow]
      exact ⟨rfl, Nat.le_refl _, (le_max_left ..).trans (Nat.le_add_right _ _)⟩
    obtain ⟨-, hid, hlt⟩ := HLC.now_ok hnow
    have hle := HLC.now_le hnow
    rw [hnow] at h
    dsimp only at h
    rcases hrest : nowChain millis (i + 1) clock₁ rest with ⟨clock₂, res₂⟩
    obtain ⟨hid', hle', hbound⟩ := ih hrest
    have heq : clock' = clock₂ := by
      rw [hrest] at h
      cases res₂ <;> exact (congrArg Prod.fst h).symm
    rw [heq, List.length_cons]
    exact ⟨hid'.trans hid, hlt.le.trans hle', by omega⟩

section
variable {offset : Int} {value : List Rune} {millis : Nat → Int64}

theorem prepareInsertWithPredecessor_ticked {res : Except Err (Delta × Position)}
    (h : r.prepareInsertWithPredecessor offset value millis = some (r', res)) : Ticked r r' := by
  unfold RGA.prepareInsertWithPredecessor at h
  split_ifs at h
  · cases h
    exact .refl r
  · cases h
    exact .refl r
  all_goals obtain ⟨previous, -, h⟩ := bind_eq_some_iff.mp h
  · cases h
    exact .refl r
  · cases h
    exact .refl r
  rcases hch : nowChain millis 0 r.clock value with ⟨clock, err | chain⟩
  all_goals
    obtain ⟨hid, hle, -⟩ := nowChain_le hch
    rw [hch] at h
    cases h
    exact ⟨rfl, hid, hle⟩

theorem prepareInsert_ticked {res : Except WireErr (Delta × List UInt8)}
    (h : r.prepareInsertRunBinaryWithLimits e offset value limits millis = some (r', res)) : Ticked r r' := by
  have hencode : ∀ {r₁ : RGA} {d : Delta}, RGA.encodePrepared e r₁ d limits = some (r', res) → r' = r₁ := by
    intro r₁ d hd
    unfold RGA.encodePrepared at hd
    cases hm : d.marshalRunBinaryWithLimits e limits <;> rw [hm] at hd <;> cases hd <;> rfl
  obtain ⟨⟨r₁, res₁⟩, hprep, h⟩ := bind_eq_some_iff.mp h
  have hticked := prepareInsertWithPredecessor_ticked hprep
  cases res₁ with
  | error err =>
    cases h
    exact hticked
  | ok p =>
    rw [hencode h]
    exact hticked

end

theorem prepareDelete_same {offset count : Int} {res : Except WireErr (Delta × List UInt8)}
    (h : r.prepareDeleteRunBinaryWithLimits e offset count limits = some (r', res)) : r' = r := by
  unfold RGA.prepareDeleteRunBinaryWithLimits at h
  split_ifs at h
  · cases h
    rfl
  · cases h
    rfl
  obtain ⟨run, -, h⟩ := bind_eq_some_iff.mp h
  cases run with
  | none =>
    cases h
    rfl
  | some positions =>
    change RGA.encodePrepared e r _ limits = _ at h
    unfold RGA.encodePrepared at h
    split at h <;> cases h <;> rfl

end Crdt.Text
