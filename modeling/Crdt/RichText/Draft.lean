import Crdt.RichText.Reach
import Crdt.Text.Change

/-! The working copy of a transaction.

`Advances` is what one operation of an editor does to the state of a transaction. `Drafted` says how the
copy stands to the text it was made of: it is ready, its clock has seen every tag of the delta so far, and it
has gone no further than the readings it has taken. One operation keeps it, and so do all. -/
namespace Crdt.RichText

open Clock MapLoop Rga List
open Text (RGA Rune Changed Ready)
open Wire Checked

variable {e : Env} {limits : Limits} {millis : Nat → Int64} {base : RGA} {d : Document}
  {s s' : EditorState}
  {op : EditorOperation} {operations : List EditorOperation} {working : RGA}

theorem ofCall_eq_ok {ε α : Type} {wrap : ε → Err} {x : Option (RGA × Except ε α)} {p : RGA × α}
    (h : ofCall wrap x = .ok p) : x = some (p.1, .ok p.2) := by
  rcases x with _ | ⟨working, err | a⟩
  · cases h
  · cases h
  · cases h
    rfl

/-! ### The copy -/

theorem editorClone_spec (h : Text.Kept d.text) (hl : limits.Fit e.intSize) {now : Int64}
    (hc : d.editorClone e limits now = .ok working) :
    Ready working ∧ working.clock.stamp ≤ max d.text.clock.stamp physicalEnd + 1 := by
  obtain ⟨state, hstate, hc⟩ := bind_eq_ok_iff.mp hc
  rw [mapError_eq_ok_iff] at hstate
  obtain ⟨hpending, hdecoded⟩ := Text.unmarshalRunState_of_marshal hl h.inv hstate
  have hready := h.ready hpending
  cases hnew : Text.newFromClockWithOptions d.text.clock.snapshot d.options.text with
  | none =>
    rw [hnew] at hc
    cases hc
  | some res =>
    rw [hnew] at hc
    cases res with
    | error err => cases hc
    | ok fresh =>
      obtain ⟨⟨working', u⟩, hcall, hc⟩ := bind_eq_ok_iff.mp hc
      cases hc
      obtain ⟨hkept, hsnapshot⟩ := Text.kept_new hnew
      have hclock : fresh.clock.stamp = d.text.clock.stamp := by
        have hw := congrArg Clock.State.wallTime hsnapshot
        have hlog := congrArg Clock.State.logical hsnapshot
        simp only [HLC.snapshot] at hw hlog
        rw [HLC.stamp, HLC.stamp, hw, hlog]
      obtain ⟨hkept', -, hdone⟩ := hkept.unmarshalRunBinary (ofCall_eq_ok hcall)
      obtain ⟨nodes, tombstones, hdecoded', hinstall, hinstalled⟩ := hdone rfl
      rw [hdecoded] at hdecoded'
      cases hdecoded'
      have hbound : ∀ bound, d.text.clock.stamp ≤ bound → physicalEnd ≤ bound → working.clock.stamp ≤ bound + 1 := by
        intro bound hbase hphysical
        refine Text.installState_stamp_le (fun tag htag => ?_) (hclock.le.trans hbase) hphysical hinstall
        exact (hready.names_le htag).trans hbase
      exact ⟨hkept'.ready hinstalled.pending, hbound _ (le_max_left ..) (le_max_right ..)⟩

/-! ### One operation -/

/-- A delta for the text that has just been applied to the copy. -/
def EditorState.change (s : EditorState) (working : RGA) (combined : Text.Delta) (readings : Nat) : EditorState :=
  {s with
    working
    combined := some combined
    readings := s.readings + readings}

/-- What one operation does. -/
inductive Advances (e : Env) (limits : Limits) (millis : Nat → Int64) (s : EditorState) (op : EditorOperation) :
    EditorState → Prop
  | retain {positions : List Position} : 0 < op.retain → s.working.positions = some positions →
      s.offset ≤ positions.length → op.retain ≤ positions.length - s.offset →
      Advances e limits millis s op {s with
        plans := if op.changes.length > 0 then
          s.plans ++ [⟨sortTargets ((positions.drop s.offset.toNat).take op.retain.toNat), op.changes⟩] else s.plans
        offset := s.offset + op.retain}
  | delete {working working' : RGA} {change combined : Text.Delta} {encoded : List UInt8} : ¬ 0 < op.retain →
      0 < op.delete → s.working.prepareDeleteRunBinaryWithLimits e s.offset op.delete limits =
        some (working, .ok (change, encoded)) →
      working.applyDelta change (millis s.readings) = some (working', .ok ()) →
      combine s.combined change = .ok combined → Advances e limits millis s op (s.change working' combined 1)
  | insert {working working' : RGA} {change combined : Text.Delta} {encoded : List UInt8} : ¬ 0 < op.retain →
      ¬ 0 < op.delete → op.insert ≠ [] →
      s.working.prepareInsertRunBinaryWithLimits e s.offset op.insert limits (fun i => millis (s.readings + i)) =
        some (working, .ok (change, encoded)) →
      working.applyDelta change (millis (s.readings + op.insert.length)) = some (working', .ok ()) →
      combine s.combined change = .ok combined →
      Advances e limits millis s op {s.change working' combined (op.insert.length + 1) with
        plans := if op.changes.length > 0 ∧ change.nodePositions.length > 0 then
          s.plans ++ [⟨change.nodePositions, op.changes⟩] else s.plans
        offset := s.offset + change.nodePositions.length}
  | nothing : ¬ 0 < op.retain → ¬ 0 < op.delete → op.insert = [] → Advances e limits millis s op s

theorem applyEditorOperation_advances (h : applyEditorOperation e limits millis s op = .ok s') :
    Advances e limits millis s op s' := by
  unfold applyEditorOperation at h
  by_cases hretain : op.retain > 0
  · rw [if_pos hretain] at h
    obtain ⟨positions, hpositions, h⟩ := bind_eq_ok_iff.mp h
    obtain ⟨hrange, h⟩ := check_bind_eq_ok_iff.mp h
    rw [unbroken_eq_ok_iff] at hpositions
    simp only [decide_eq_true_eq, not_or, not_lt] at hrange
    cases h
    exact .retain hretain hpositions hrange.1 hrange.2
  rw [if_neg hretain] at h
  by_cases hdelete : op.delete > 0
  · rw [if_pos hdelete] at h
    obtain ⟨⟨working, change, encoded⟩, hprep, h⟩ := bind_eq_ok_iff.mp h
    obtain ⟨⟨working', u⟩, happ, h⟩ := bind_eq_ok_iff.mp h
    obtain ⟨combined, hcombine, h⟩ := bind_eq_ok_iff.mp h
    cases h
    exact .delete hretain hdelete (ofCall_eq_ok hprep) (ofCall_eq_ok happ) hcombine
  rw [if_neg hdelete] at h
  by_cases hinsert : op.insert ≠ []
  · rw [if_pos hinsert] at h
    obtain ⟨⟨working, change, encoded⟩, hprep, h⟩ := bind_eq_ok_iff.mp h
    obtain ⟨⟨working', u⟩, happ, h⟩ := bind_eq_ok_iff.mp h
    obtain ⟨combined, hcombine, h⟩ := bind_eq_ok_iff.mp h
    cases h
    exact .insert hretain hdelete hinsert (ofCall_eq_ok hprep) (ofCall_eq_ok happ) hcombine
  rw [if_neg hinsert] at h
  cases h
  exact .nothing hretain hdelete (not_not.mp hinsert)

/-! ### The copy and the delta -/

/-- What the delta of the transaction holds so far. -/
def EditorState.delta (s : EditorState) : Text.Delta := s.combined.getD {}

structure Drafted (base : RGA) (s : EditorState) : Prop where
  ready : Ready s.working
  limit : s.working.clock.stamp ≤ max base.clock.stamp physicalEnd + s.readings
  names : ∀ tag, Text.Names s.delta.nodes s.delta.tombstones tag → tagStamp tag ≤ s.working.clock.stamp

/-- A combined delta names nothing that neither of the two names. -/
theorem names_of_combine {combined : Option Text.Delta} {change c : Text.Delta} (h : combine combined change = .ok c)
    {tag : Tag} (htag : Text.Names c.nodes c.tombstones tag) :
    Text.Names (combined.getD {}).nodes (combined.getD {}).tombstones tag ∨
      Text.Names change.nodes change.tombstones tag := by
  unfold combine at h
  cases combined with
  | none =>
    cases h
    exact .inr htag
  | some combined =>
    dsimp only at h
    cases hm : combined.merge change with
    | error err =>
      rw [hm] at h
      cases h
    | ok f =>
      rw [hm] at h
      cases h
      obtain ⟨hnodes, htombs⟩ := Text.Delta.merge_spec hm
      rcases htag with hin | hparent | htomb
      · obtain ⟨item, hitem⟩ := mem_iff.mp hin
        exact ((hnodes tag item).mp hitem).imp (fun h => .inl (mem_iff.mpr ⟨item, h⟩))
          fun h => .inl (mem_iff.mpr ⟨item, h⟩)
      · obtain ⟨x, item, hx, hparent⟩ := hparent
        exact ((hnodes x item).mp hx).imp (fun h => .inr (.inl ⟨x, item, h, hparent⟩))
          fun h => .inr (.inl ⟨x, item, h, hparent⟩)
      · exact ((htombs tag).mp htomb).imp (fun h => .inr (.inr h)) fun h => .inr (.inr h)

theorem Drafted.changed (h : Drafted base s) {change combined : Text.Delta} {taken : Nat}
    (hc : Changed s.working working change taken) (hcombine : combine s.combined change = .ok combined) :
    Drafted base (s.change working combined (taken + 1)) where
  ready := hc.ready
  limit := by
    have hlimit := hc.limit
    have hbefore := h.limit
    show working.clock.stamp ≤ max base.clock.stamp physicalEnd + (s.readings + (taken + 1))
    omega
  names tag htag := by
    cases names_of_combine hcombine htag with
    | inl hold => exact (h.names tag hold).trans hc.le
    | inr hnew => exact hc.names tag hnew

theorem Drafted.advance (h : Drafted base s) (ha : Advances e limits millis s op s') : Drafted base s' := by
  cases ha with
  | retain => exact ⟨h.ready, h.limit, h.names⟩
  | delete _ _ hprep happ hcombine => exact h.changed (Text.prepareDelete_changed h.ready hprep happ) hcombine
  | insert _ _ hne hprep happ hcombine =>
    have hdrafted := h.changed (Text.prepareInsert_changed h.ready hne hprep happ) hcombine
    exact ⟨hdrafted.ready, hdrafted.limit, hdrafted.names⟩
  | nothing => exact h

theorem Drafted.run (h : Drafted base s) (hrun : applyEditorOperations e limits millis s operations = .ok s') :
    Drafted base s' := by
  induction operations generalizing s with
  | nil =>
    cases hrun
    exact h
  | cons op rest ih =>
    obtain ⟨s₁, hone, hrun⟩ := bind_eq_ok_iff.mp hrun
    exact ih (h.advance (applyEditorOperation_advances hone)) hrun

/-! ### How far the clock goes -/

/-- As many timestamps as operations may take. -/
def ticks (operations : List EditorOperation) : Nat := 2 + (operations.map fun op => op.insert.length + 3).sum

theorem Advances.readings_le (ha : Advances e limits millis s op s') :
    s'.readings ≤ s.readings + (op.insert.length + 1) ∧ s'.plans.length ≤ s.plans.length + 1 := by
  cases ha with
  | retain =>
    refine ⟨Nat.le_add_right _ _, ?_⟩
    split_ifs
    · rw [length_append, length_singleton]
    · exact Nat.le_succ _
  | delete =>
    refine ⟨?_, Nat.le_succ _⟩
    show s.readings + 1 ≤ _
    omega
  | insert =>
    refine ⟨Nat.le_refl _, ?_⟩
    split_ifs
    · rw [length_append, length_singleton]
    · exact Nat.le_succ _
  | nothing => exact ⟨Nat.le_add_right _ _, Nat.le_succ _⟩

theorem readings_of_run (hrun : applyEditorOperations e limits millis s operations = .ok s') :
    s'.readings + 2 * s'.plans.length ≤
      s.readings + 2 * s.plans.length + (operations.map fun op => op.insert.length + 3).sum := by
  induction operations generalizing s with
  | nil =>
    cases hrun
    exact Nat.le_refl _
  | cons op rest ih =>
    obtain ⟨s₁, hone, hrun⟩ := bind_eq_ok_iff.mp hrun
    obtain ⟨hreadings, hplans⟩ := (applyEditorOperation_advances hone).readings_le
    have hrest := ih hrun
    rw [map_cons, sum_cons]
    omega

theorem length_expandPlan (positions : List Position) (runes : List Rune) (plan : EditorFormatPlan) :
    (expandPlan positions runes plan).length ≤ 2 := by
  unfold expandPlan
  rw [length_append]
  split_ifs <;> simp

theorem length_expandEditorBlockPlans {source plans : List EditorFormatPlan}
    (h : expandEditorBlockPlans working source = .ok plans) : plans.length ≤ 2 * source.length := by
  unfold expandEditorBlockPlans at h
  split_ifs at h
  · cases h
    exact Nat.zero_le _
  obtain ⟨positions, -, h⟩ := bind_eq_ok_iff.mp h
  obtain ⟨runes, -, h⟩ := bind_eq_ok_iff.mp h
  split_ifs at h
  · cases h
    exact Nat.zero_le _
  cases h
  have hsum : ∀ l : List EditorFormatPlan, (l.flatMap (expandPlan positions runes)).length ≤ 2 * l.length := by
    intro l
    induction l with
    | nil => exact Nat.le_refl _
    | cons plan l ih =>
      have hone := length_expandPlan positions runes plan
      rw [flatMap_cons, length_append, length_cons]
      omega
  exact hsum source

/-- The order of changes is the only thing that is made canonical. -/
theorem canonicalEditorOperations_ticks {prepared : List EditorOperation}
    (h : canonicalEditorOperations operations = .ok prepared) : ticks prepared = ticks operations := by
  have hsame : List.Forall₂ (fun op op' : EditorOperation => op'.insert = op.insert) operations prepared := by
    refine (Except.forall₂_of_mapM h).imp fun op op' hop => ?_
    unfold canonicalEditorOperation at hop
    split_ifs at hop
    dsimp only at hop
    split at hop
    · cases hop
    split_ifs at hop
    cases hop
    rfl
  have hmap : (prepared.map fun op => op.insert.length + 3) = operations.map fun op => op.insert.length + 3 := by
    clear h
    induction hsame with
    | nil => rfl
    | cons hop _ ih => rw [map_cons, map_cons, hop, ih]
  rw [ticks, ticks, hmap]

/-! ### The transaction -/

theorem tagPlans_le {i : Nat} {plans : List EditorFormatPlan} {tagged : List FormatOperation}
    (h : tagPlans millis i working plans = .ok tagged) : ∀ op ∈ tagged,
      tagStamp op.tag ≤ max working.clock.stamp physicalEnd + plans.length := by
  induction plans generalizing i working tagged with
  | nil =>
    cases h
    exact nofun
  | cons plan rest ih =>
    unfold tagPlans at h
    rw [length_cons]
    by_cases hblank : plan.targets.length = 0 ∨ plan.changes.length = 0
    · rw [if_pos hblank] at h
      exact fun op hop => (ih h op hop).trans (by omega)
    rw [if_neg hblank] at h
    obtain ⟨⟨working₁, tag⟩, hcall, h⟩ := bind_eq_ok_iff.mp h
    obtain ⟨operations, hrest, h⟩ := bind_eq_ok_iff.mp h
    cases h
    have hnext : working.nextTag (millis i) = (working₁, .ok tag) := Option.some.inj (ofCall_eq_ok hcall)
    obtain ⟨htag, hle⟩ := Text.nextTag_le hnext
    have hstamp : tagStamp tag = working₁.clock.stamp := by rw [htag, HLC.tagStamp_tag]
    refine forall_mem_cons.mpr ⟨?_, fun op hop => (ih hrest op hop).trans (by omega)⟩
    show tagStamp tag ≤ _
    omega

/-- The tags of a transaction are not far from the clock of the text. -/
structure Prepared (base : RGA) (t : Transaction) (ticks : Nat) : Prop where
  text : ∀ text, t.textDelta = some text → ∀ tag, Text.Names text.nodes text.tombstones tag →
    tagStamp tag + 1 ≤ max base.clock.stamp physicalEnd + ticks
  marks : ∀ op ∈ t.delta.operations, tagStamp op.tag ≤ max base.clock.stamp physicalEnd + ticks

theorem prepareEditorDelta_spec (h : Text.Kept d.text) (hl : limits.Fit e.intSize) {t : Transaction}
    (ht : d.prepareEditorDelta e operations limits millis = .ok t) : Prepared d.text t (ticks operations) := by
  obtain ⟨prepared, hcanonical, ht⟩ := bind_eq_ok_iff.mp ht
  obtain ⟨working, hclone, ht⟩ := bind_eq_ok_iff.mp ht
  obtain ⟨s, hrun, ht⟩ := bind_eq_ok_iff.mp ht
  obtain ⟨plans, hexpanded, ht⟩ := bind_eq_ok_iff.mp ht
  obtain ⟨tagged, htagged, ht⟩ := bind_eq_ok_iff.mp ht
  obtain ⟨textDelta, -, ht⟩ := bind_eq_ok_iff.mp ht
  obtain ⟨b, -, ht⟩ := bind_eq_ok_iff.mp ht
  cases ht
  obtain ⟨hready, hlimit⟩ := editorClone_spec h hl hclone
  have hstart : Drafted d.text {working, readings := 1} :=
    ⟨hready, hlimit, fun tag htag => by simp [Text.Names, EditorState.delta] at htag⟩
  have hdrafted := hstart.run hrun
  have hclock := hdrafted.limit
  have hticks : s.readings + 1 + plans.length ≤ ticks operations := by
    have hreadings := readings_of_run hrun
    have hplans := length_expandEditorBlockPlans hexpanded
    rw [← canonicalEditorOperations_ticks (ofExcept_eq_ok_iff.mp hcanonical)]
    simp only [length_nil] at hreadings
    unfold ticks
    omega
  constructor
  · intro text htext tag htag
    have hdelta : s.delta = text := by
      rw [EditorState.delta, show s.combined = some text from htext]
      rfl
    rw [← hdelta] at htag
    have hle := hdrafted.names tag htag
    omega
  intro op hop
  have hle := tagPlans_le htagged op hop
  omega

end Crdt.RichText
