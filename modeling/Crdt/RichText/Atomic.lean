import Crdt.RichText.Draft
import Crdt.Wire.Read

/-! What a call that fails leaves behind.

A call applies its text before the clock has witnessed the tags of its marks, and the clock refuses a tag
at the end of the timestamps: then the text is there and its formatting is not (`text_without_formatting`).
`failed_calls_leave_content` says that this is the only way. A call that fails leaves the content of any
reachable document as it was if the clock has `Headroom`: the text does not bring it to its last timestamp,
no mark has that timestamp, and the physical clock is not before its epoch. -/
namespace Crdt.RichText

open Clock MapLoop List Option
open Text (RGA Rune)
open Wire Checked

variable {e : Env} {d : Document} {α : Type} {next : Document → Outcome α} {greatest : Option Tag}

/-- Everything but the clock is as before. -/
def Document.SameContent (d d' : Document) : Prop := d' = {d with text := {d.text with clock := d'.text.clock}}

/-- The clock can witness the tags of the marks after it has witnessed those of the text. -/
structure Headroom (clock : HLC) (text marks : Tag → Prop) (millis : Int64) : Prop where
  reading : 0 ≤ millis
  clock : clock.stamp + 1 < endStamp
  text : ∀ tag, text tag → tagStamp tag + 1 < endStamp
  marks : ∀ tag, marks tag → tagStamp tag < endStamp

/-- If there is an error, the content is the same. -/
def Atomic (d : Document) (o : Outcome α) : Prop :=
  Ensures o fun d' res => (∃ err, res = .error err) → d.SameContent d'

theorem Document.SameContent.refl (d : Document) : d.SameContent d := rfl

theorem Atomic.checked {β : Type} {x : Checked Err β} {next : β → Outcome α}
    (hok : ∀ a, x = .ok a → Atomic d (next a)) : Atomic d (d.checked x next) :=
  Ensures.checked (fun _ _ _ => .refl d) hok

theorem Atomic.done (d d' : Document) (a : α) : Atomic d (some (d', .ok a)) := Ensures.done fun herr => by
    obtain ⟨_, herr⟩ := herr
    cases herr

theorem Atomic.onText {ε β : Type} {wrap : ε → Err} {x : Option (RGA × Except ε β)} {next : Document → β → Outcome α}
    (herr : ∀ text err, x = some (text, .error err) → text = d.text)
    (hok : ∀ text a, x = some (text, .ok a) → Atomic d (next {d with text} a)) : Atomic d (d.onText wrap x next) := by
  apply Ensures.onText
  · intro text err hx _
    rw [herr text err hx]
    exact .refl d
  · exact hok

theorem Atomic.applyDelta {t : Text.Delta} {millis : Int64} {next : Document → Unit → Outcome α}
    (h : Text.Kept d.text) (hok : ∀ text, d.text.applyDelta t millis = some (text, .ok ()) →
      Atomic d (next {d with text} ())) : Atomic d (d.onText .text (d.text.applyDelta t millis) next) :=
  Atomic.onText (fun _ err happ => (h.applyDelta happ).2 ⟨err, rfl⟩) fun text _ happ => hok text happ

/-- Nothing has happened before the clock is asked. -/
theorem Atomic.witness_first {millis : Int64}
    (hnext : ∀ d', Atomic d (next d')) : Atomic d (d.witness greatest millis next) := by
  cases greatest with
  | none => exact hnext d
  | some tag =>
    unfold Document.witness
    apply Atomic.onText
    · exact fun text err hw => (Text.witnessTag_ticked (some.inj hw)).2 ⟨err, rfl⟩
    · exact fun text _ _ => hnext _

theorem Atomic.witness_room {d' : Document} {millis : Int64}
    (hroom : ∀ tag, greatest = some tag → tag.valid = true ∧ 0 ≤ millis ∧ d'.text.clock.stamp < endStamp ∧
      tagStamp tag < endStamp) (hnext : ∀ d', Atomic d (next d')) : Atomic d (d'.witness greatest millis next) := by
  cases greatest with
  | none => exact hnext d'
  | some tag =>
    obtain ⟨hvalid, hmillis, hclock, hend⟩ := hroom tag rfl
    obtain ⟨clock, hok⟩ := HLC.exists_witness hvalid hmillis hclock hend
    unfold Document.witness
    apply Ensures.onText
    · intro text err hw _
      rw [RGA.witnessTag, hok] at hw
      cases hw
    · exact fun text _ _ => hnext _

variable {operations : List FormatOperation} {textMillis tagMillis : Int64} {tag : Tag}

theorem valid_of_preflight (h : d.preflight operations = .ok ()) : ∀ op ∈ operations, op.tag.valid = true := by
  have hops : ∀ {previous : Option Tag} {operations : List FormatOperation},
      validOperations previous operations = true → ∀ op ∈ operations, op.tag.valid = true := by
    intro previous operations
    induction operations generalizing previous with
    | nil => exact fun _ => nofun
    | cons op operations ih =>
      intro h
      unfold validOperations at h
      split_ifs at h with hone htargets
      simp only [Bool.or_eq_true, Bool.not_eq_true', not_or, Bool.not_eq_false] at hone
      exact forall_mem_cons.mpr ⟨hone.1.1.1.1, ih h⟩
  unfold Document.preflight at h
  rw [ofExcept_eq_ok_iff] at h
  unfold Marks.preflightOperations validateOperations at h
  split_ifs at h with hnone hvalid
  · rw [length_eq_zero_iff] at hnone
    rw [hnone]
    exact nofun
  all_goals first | exact hops hvalid | cases h

theorem greatestOperationTag_mem
    (h : greatestOperationTag operations = some tag) : ∃ op ∈ operations, op.tag = tag := by
  obtain ⟨op, hop, htag⟩ := map_eq_some_iff.mp h
  exact ⟨op, mem_of_getLast? hop, htag⟩

theorem Atomic.join {textDelta : Option Text.Delta}
    {a : α} (h : Text.Kept d.text) (hok : d.preflight operations = .ok ())
    (hroom : operations ≠ [] → ∀ t, textDelta = some t → Headroom d.text.clock (Text.Names t.nodes t.tombstones)
      (fun tag => ∃ op ∈ operations, op.tag = tag) tagMillis) :
    Atomic d (d.applyText textDelta textMillis fun d => d.witness (greatestOperationTag operations) tagMillis fun d =>
      some (d.format operations, .ok a)) := by
  unfold Document.applyText
  cases textDelta with
  | none => exact Atomic.witness_first fun d' => .done d _ a
  | some t =>
    refine Atomic.applyDelta h fun text happ => Atomic.witness_room (fun tag htag => ?_) fun d' => .done d _ a
    obtain ⟨op, hop, rfl⟩ := greatestOperationTag_mem htag
    have hhead := hroom (ne_nil_of_mem hop) t rfl
    exact ⟨valid_of_preflight hok op hop, hhead.reading, Text.applyDelta_lt_end hhead.text hhead.clock happ,
      hhead.marks _ ⟨op, hop, rfl⟩⟩

/-! ### The four calls -/

variable {millis : Nat → Int64} {limits : Limits} {marks : TagMap MarkSet} {data : List UInt8}
  {other : Document} {m : Marks}

theorem applyDelta_atomic (h : Text.Kept d.text) {delta : Delta}
    (hroom : delta.operations ≠ [] → ∀ t, nestedDelta e delta.textDelta limits = .ok (some t) →
      Headroom d.text.clock (Text.Names t.nodes t.tombstones) (fun tag => ∃ op ∈ delta.operations, op.tag = tag)
        (millis 1)) : Atomic d (d.applyDeltaWithLimits e delta limits millis) := by
  unfold Document.applyDeltaWithLimits
  apply Atomic.checked
  intro _ _
  apply Atomic.checked
  intro textDelta hnested
  apply Atomic.checked
  intro _ hpreflight
  refine Atomic.join h hpreflight fun hne t ht => hroom hne t ?_
  rw [← ht]
  exact mapError_eq_ok_iff.mp hnested

theorem capturedText_spec (h : Text.Kept other.text) {millis : Int64} {otherText : RGA}
    (hc : Document.capturedText e other millis = .ok otherText) :
    otherText.asDelta.nodes = other.text.nodes ∧ otherText.asDelta.tombstones = other.text.tombstones := by
  unfold Document.capturedText at hc
  obtain ⟨state, hstate, hc⟩ := bind_eq_ok_iff.mp hc
  rw [mapError_eq_ok_iff] at hstate
  obtain ⟨-, hdecoded⟩ := Text.unmarshalRunState_of_marshal (Limits.default_fit _) h.inv hstate
  cases hnew : Text.newWithOptions Document.mergeID other.options.text with
  | none =>
    rw [hnew] at hc
    cases hc
  | some res =>
    rw [hnew] at hc
    cases res with
    | error err => cases hc
    | ok fresh =>
      dsimp only at hc
      rcases hcall : fresh.unmarshalRunBinaryWithLimits e state .default millis with _ | ⟨text, err | u⟩
      · rw [hcall] at hc
        cases hc
      · rw [hcall] at hc
        cases hc
      rw [hcall] at hc
      cases hc
      obtain ⟨-, -, hdone⟩ := (Text.kept_new hnew).1.unmarshalRunBinary hcall
      obtain ⟨nodes, tombstones, hdecoded', -, hinstalled⟩ := hdone rfl
      rw [hdecoded] at hdecoded'
      cases hdecoded'
      refine ⟨?_, hinstalled.tombstones⟩
      rw [RGA.asDelta, hinstalled.pending, hinstalled.nodes]
      rfl

/-! Marks are checked one by one, also those of another document. -/

theorem tag_valid_of_wellFormed {a : Assignment} (h : a.wellFormed = true) : a.value.tag.valid = true := by
  simp only [Assignment.wellFormed, Bool.not_eq_true', Bool.or_eq_false_iff, Bool.not_eq_false'] at h
  exact h.1.2

theorem wellFormed_of_countNewAt {position : Position} {values : List (Str × MarkValue)} {n r : Nat}
    (h : m.countNewAt position values n = .ok r) : ∀ a ∈ assignmentsAt position values, a.wellFormed = true := by
  induction values generalizing n with
  | nil => exact nofun
  | cons p values ih =>
    unfold Marks.countNewAt at h
    split_ifs at h with hform
    rw [Bool.not_eq_true', Bool.not_eq_false] at hform
    refine forall_mem_cons.mpr ⟨hform, ?_⟩
    split at h
    · exact ih h
    · split_ifs at h
      exact ih h

theorem wellFormed_of_preflightMarks {o : MarkOptions}
    (h : m.preflightMarks o marks = .ok ()) : ∀ a ∈ Marks.assignments marks, a.wellFormed = true := by
  have hall : ∀ {l : List (Position × MarkSet)} {n r : Nat}, m.countNewMarks l n = .ok r →
      ∀ a ∈ l.flatMap fun p => assignmentsAt p.1 p.2.rangeValues, a.wellFormed = true := by
    intro l
    induction l with
    | nil => exact fun _ => nofun
    | cons p l ih =>
      intro n r h
      unfold Marks.countNewMarks at h
      split_ifs at h
      cases hat : m.countNewAt p.1 p.2.rangeValues n with
      | error err =>
        rw [hat] at h
        cases h
      | ok n' =>
        rw [hat] at h
        rw [flatMap_cons]
        exact forall_mem_append.mpr ⟨wellFormed_of_countNewAt hat, ih h⟩
  unfold Marks.preflightMarks at h
  cases hcount : m.countNewMarks marks.toList 0 with
  | error err =>
    rw [hcount] at h
    cases h
  | ok n => exact hall hcount

theorem wellFormed_of_unmarshalState {state : RichState}
    (h : unmarshalState e data limits millis = .ok state) : ∀ a ∈ Marks.assignments state.marks, a.wellFormed = true := by
  unfold unmarshalState at h
  obtain ⟨decoded, -, h⟩ := bind_eq_ok_iff.mp h
  obtain ⟨-, h⟩ := check_bind_eq_ok_iff.mp h
  obtain ⟨state', -, h⟩ := bind_eq_ok_iff.mp h
  obtain ⟨canonical, hcanonical, h⟩ := bind_eq_ok_iff.mp h
  obtain ⟨_, -, h⟩ := bind_eq_ok_iff.mp h
  obtain ⟨-, h⟩ := check_bind_eq_ok_iff.mp h
  cases h
  rw [invalid, mapError_eq_ok_iff] at hcanonical
  unfold marshalState at hcanonical
  obtain ⟨-, hcanonical⟩ := check_bind_eq_ok_iff.mp hcanonical
  obtain ⟨_, -, hcanonical⟩ := bind_eq_ok_iff.mp hcanonical
  obtain ⟨-, hcanonical⟩ := check_bind_eq_ok_iff.mp hcanonical
  obtain ⟨hall, -⟩ := check_bind_eq_ok_iff.mp hcanonical
  intro a ha
  rw [List.all_eq_true] at hall
  have hone := hall a ((mergeSort_perm _ _).mem_iff.mpr ha)
  exact (Bool.and_eq_true _ _ ▸ hone).2

theorem greatestMarkTag_mem (h : greatestMarkTag marks = some tag) :
    ∃ a ∈ Marks.assignments marks, a.value.tag = tag := by
  revert h
  refine foldlRecOn (motive := fun acc => acc = some tag → ∃ a ∈ Marks.assignments marks, a.value.tag = tag) _ _ nofun
    fun acc hacc a ha heq => ?_
  cases acc with
  | none => exact ⟨a, ha, some.inj heq⟩
  | some g =>
    dsimp only at heq
    split_ifs at heq
    · exact ⟨a, ha, some.inj heq⟩
    · exact hacc heq

theorem merge_atomic (h : Text.Kept d.text) (hother : Text.Kept other.text)
    (hroom : Marks.assignments other.marks ≠ [] → Headroom d.text.clock
      (Text.Names other.text.nodes other.text.tombstones)
      (fun tag => ∃ a ∈ Marks.assignments other.marks, a.value.tag = tag) (millis 2)) :
    Atomic d (d.merge e other millis) := by
  unfold Document.merge
  apply Atomic.checked
  intro otherText hcaptured
  apply Atomic.checked
  intro _ hpreflight
  obtain ⟨hnodes, htombs⟩ := capturedText_spec hother hcaptured
  refine Atomic.applyDelta h fun text happ => Atomic.witness_room (fun tag htag => ?_) fun d' => .done d _ ()
  obtain ⟨a, ha, rfl⟩ := greatestMarkTag_mem htag
  have hhead := hroom (ne_nil_of_mem ha)
  rw [← hnodes, ← htombs] at hhead
  exact ⟨tag_valid_of_wellFormed (wellFormed_of_preflightMarks (ofExcept_eq_ok_iff.mp hpreflight) a ha), hhead.reading,
    Text.applyDelta_lt_end hhead.text hhead.clock happ, hhead.marks _ ⟨a, ha, rfl⟩⟩

theorem unmarshal_atomic (h : Text.Kept d.text)
    (hroom : ∀ state, unmarshalState e data limits millis = .ok state → Marks.assignments state.marks ≠ [] →
      ∀ nodes tombstones, Text.unmarshalRGARunState e state.textState limits = .ok (nodes, tombstones) →
      Headroom d.text.clock (Text.Names nodes tombstones)
        (fun tag => ∃ a ∈ Marks.assignments state.marks, a.value.tag = tag) (millis 3)) :
    Atomic d (d.unmarshalBinaryWithLimits e data limits millis) := by
  unfold Document.unmarshalBinaryWithLimits
  apply Atomic.checked
  intro state hstate
  apply Atomic.checked
  intro _ _
  apply Atomic.onText
  · exact fun text err happ => (h.unmarshalRunBinary happ).2.1 ⟨err, rfl⟩
  intro text _ happ
  obtain ⟨nodes, tombstones, hdecoded, hinstall, -⟩ := (h.unmarshalRunBinary happ).2.2 rfl
  refine Atomic.witness_room (fun tag htag => ?_) fun d' => .done d _ ()
  obtain ⟨a, ha, rfl⟩ := greatestMarkTag_mem htag
  have hhead := hroom state hstate (ne_nil_of_mem ha) nodes tombstones hdecoded
  exact ⟨tag_valid_of_wellFormed (wellFormed_of_unmarshalState hstate a ha), hhead.reading,
    Text.installState_lt_end hhead.text hhead.clock hinstall, hhead.marks _ ⟨a, ha, rfl⟩⟩

/-- The tags of a transaction are not far from the clock. -/
theorem edit_atomic (h : Text.Kept d.text) {operations : List EditorOperation} (hl : limits.Fit e.intSize)
    (hroom : ∀ t, d.prepareEditorDelta e operations limits millis = .ok t → t.textDelta ≠ none →
      t.delta.operations ≠ [] → 0 ≤ tagMillis ∧ max d.text.clock.stamp physicalEnd + ticks operations < endStamp) :
    Atomic d (d.applyEditorDeltaWithLimits e operations limits millis textMillis tagMillis) := by
  unfold Document.applyEditorDeltaWithLimits
  apply Atomic.checked
  intro t ht
  apply Atomic.checked
  intro _ hpreflight
  have hprepared := prepareEditorDelta_spec h hl ht
  refine Atomic.join h hpreflight fun hne text htext => ?_
  obtain ⟨hmillis, hroom⟩ := hroom t ht (by simp [htext]) hne
  refine ⟨hmillis, ?_, fun tag htag => ?_, fun tag htag => ?_⟩
  · unfold ticks at hroom
    omega
  · have hle := hprepared.text text htext tag htag
    omega
  obtain ⟨op, hop, rfl⟩ := htag
  have hle := hprepared.marks op hop
  omega

/-- A call that fails leaves the content of a reachable document as it was: whatever it was given, if the
clock has room for the tags of the text and, after them, for those of the marks. -/
theorem failed_calls_leave_content (h : Reachable e d) :
    (∀ delta limits millis d' err, (delta.operations ≠ [] → ∀ t, nestedDelta e delta.textDelta limits = .ok (some t) →
        Headroom d.text.clock (Text.Names t.nodes t.tombstones) (fun tag => ∃ op ∈ delta.operations, op.tag = tag)
          (millis 1)) →
      d.applyDeltaWithLimits e delta limits millis = some (d', .error err) → d.SameContent d') ∧
    (∀ other millis d' err, Reachable e other → (Marks.assignments other.marks ≠ [] →
        Headroom d.text.clock (Text.Names other.text.nodes other.text.tombstones)
          (fun tag => ∃ a ∈ Marks.assignments other.marks, a.value.tag = tag) (millis 2)) →
      d.merge e other millis = some (d', .error err) → d.SameContent d') ∧
    (∀ data limits millis d' err, (∀ state, unmarshalState e data limits millis = .ok state →
        Marks.assignments state.marks ≠ [] → ∀ nodes tombstones,
        Text.unmarshalRGARunState e state.textState limits = .ok (nodes, tombstones) →
        Headroom d.text.clock (Text.Names nodes tombstones)
          (fun tag => ∃ a ∈ Marks.assignments state.marks, a.value.tag = tag) (millis 3)) →
      d.unmarshalBinaryWithLimits e data limits millis = some (d', .error err) → d.SameContent d') ∧
    ∀ operations limits millis textMillis tagMillis d' err, limits.Fit e.intSize →
      (∀ t, d.prepareEditorDelta e operations limits millis = .ok t → t.textDelta ≠ none → t.delta.operations ≠ [] →
        0 ≤ tagMillis ∧ max d.text.clock.stamp physicalEnd + ticks operations < endStamp) →
      d.applyEditorDeltaWithLimits e operations limits millis textMillis tagMillis = some (d', .error err) →
      d.SameContent d' := by
  have hkept := h.kept
  refine ⟨fun delta limits millis d' err hroom hcall => ?_, fun other millis d' err hother hroom hcall => ?_,
    fun data limits millis d' err hroom hcall => ?_,
    fun operations limits millis textMillis tagMillis d' err hl hroom hcall => ?_⟩
  · exact applyDelta_atomic hkept hroom _ _ hcall ⟨err, rfl⟩
  · exact merge_atomic hkept hother.kept hroom _ _ hcall ⟨err, rfl⟩
  · exact unmarshal_atomic hkept hroom _ _ hcall ⟨err, rfl⟩
  · exact edit_atomic hkept hl hroom _ _ hcall ⟨err, rfl⟩

/-- Whether text and marks keep clear of the end of the timestamps. -/
def clear (nodes : TagMap (Rga.Node Rune)) (tombstones : TagSet) (tags : List Tag) : Bool :=
  (nodes.toList.all fun p => tagStamp p.1 + 1 < endStamp && tagStamp p.2.parent + 1 < endStamp) &&
    (tombstones.toList.all fun tag => tagStamp tag + 1 < endStamp) && tags.all fun tag => tagStamp tag < endStamp

theorem headroom_of_clear {β : Type} {clock : HLC} {nodes : TagMap (Rga.Node Rune)} {tombstones : TagSet} {l : List β}
    {f : β → Tag} {millis : Int64} (h : clear nodes tombstones (l.map f) = true) (hclock : clock.stamp + 1 < endStamp)
    (hmillis : 0 ≤ millis) : Headroom clock (Text.Names nodes tombstones) (fun tag => ∃ a ∈ l, f a = tag) millis := by
  simp only [clear, Bool.and_eq_true, List.all_eq_true, decide_eq_true_eq] at h
  refine ⟨hmillis, hclock, fun tag htag => ?_, fun tag htag => h.2 tag (mem_map.mpr htag)⟩
  rcases htag with hin | hparent | htomb
  · obtain ⟨item, hitem⟩ := mem_iff.mp hin
    have hin : (tag, item) ∈ nodes.toList := mem_toList.mpr hitem
    exact (h.1.1 (tag, item) hin).1
  · obtain ⟨x, item, hx, hparent⟩ := hparent
    have hin : (x, item) ∈ nodes.toList := mem_toList.mpr hx
    rw [← hparent]
    exact (h.1.1 (x, item) hin).2
  · exact h.1.2 tag (Std.ExtTreeSet.mem_toList.mpr htomb)

/-- Whether there is a result, and it passes. -/
def passes {ε β : Type} (p : β → Bool) : Checked ε β → Bool
  | .ok a => p a
  | _ => false

theorem of_passes {ε β : Type} {p : β → Bool} {x : Checked ε β} (h : passes p x = true) {a : β} (hx : x = .ok a) :
    p a = true := by
  rw [hx] at h
  exact h

theorem exists_error {o : Option (Document × Except Err α)} (h : o.map (·.2.toOption.isNone) = some true) :
    ∃ d err, o = some (d, .error err) := by
  obtain ⟨⟨d, err | a⟩, ho, hres⟩ := map_eq_some_iff.mp h
  · exact ⟨d, err, ho⟩
  · cases hres

theorem eq_some_get {o : Outcome Unit} (h : o.isSome = true) (hres : (o.get h).2 = .ok ()) :
    o = some ((o.get h).1, .ok ()) := by
  rw [← hres]
  exact (some_get h).symm

/-- A document that is full with a letter and its mark, and another one with two letters and a mark: the first
does not take the delta of the second, nor its state, nor itself, nor an insertion. -/
theorem failed_calls_leave_content_full : let e := plainEnv .bits64
    let options (nodes : Int) : Options := ⟨⟨10, 4⟩, ⟨nodes, 1, 1, 1000⟩⟩
    let bold : AttributeChange := {key := [98], value := [49]}
    let mark : List FormatOperation := [⟨⟨[66], 3, 0⟩, [⟨[66], 1, 0⟩], [bold]⟩]
    let one : Delta := ⟨[67, 82, 68, 84, 1, 20, 0, 9, 1, 0, 1, 66, 1, 0, 0, 97, 0, 0, 0, 0, 0], mark⟩
    let two : Delta :=
      ⟨[67, 82, 68, 84, 1, 20, 0, 13, 1, 1, 2, 1, 66, 0, 1, 0, 97, 1, 1, 98, 0, 0, 0, 0, 0], mark⟩
    let edit : List EditorOperation := [{retain := 1}, {insert := [99], changes := [bold]}]
    ∃ d₀ d other₀ other : Document, ∃ data, newWithOptions [65] (options 1) = some (.ok d₀) ∧
      d₀.applyDeltaWithLimits e one .default (fun _ => 5) = some (d, .ok ()) ∧
      newWithOptions [67] (options 2) = some (.ok other₀) ∧
      other₀.applyDeltaWithLimits e two .default (fun _ => 5) = some (other, .ok ()) ∧
      other.marshalBinaryWithLimits e .default 5 = .ok data ∧
      (∃ d' err, d.applyDeltaWithLimits e two .default (fun _ => 5) = some (d', .error err) ∧ d.SameContent d') ∧
      (∃ d' err, d.merge e other (fun _ => 5) = some (d', .error err) ∧ d.SameContent d') ∧
      (∃ d' err, d.unmarshalBinaryWithLimits e data .default (fun _ => 5) = some (d', .error err) ∧
        d.SameContent d') ∧
      ∃ d' err, d.applyEditorDeltaWithLimits e edit .default (fun _ => 5) 5 5 = some (d', .error err) ∧
        d.SameContent d' := by
  intro e options bold mark one two edit
  let d₀ := ((newWithOptions [65] (options 1)).bind Except.toOption).get (by decide +kernel)
  let other₀ := ((newWithOptions [67] (options 2)).bind Except.toOption).get (by decide +kernel)
  let d := ((d₀.applyDeltaWithLimits e one .default fun _ => 5).get (by decide +kernel)).1
  let other := ((other₀.applyDeltaWithLimits e two .default fun _ => 5).get (by decide +kernel)).1
  let data : List UInt8 := [67, 82, 68, 84, 1, 23, 0, 40, 25, 67, 82, 68, 84, 1, 19, 0, 13, 1, 1, 2, 1, 66, 0, 1, 0, 97,
    1, 1, 98, 0, 0, 0, 0, 0, 1, 1, 66, 1, 0, 1, 98, 1, 66, 3, 0, 0, 1, 49, 0, 0, 0, 0]
  have hnew : newWithOptions [65] (options 1) = some (.ok d₀) := rfl
  have hother₀ : newWithOptions [67] (options 2) = some (.ok other₀) := rfl
  have hd : d₀.applyDeltaWithLimits e one .default (fun _ => 5) = some (d, .ok ()) := eq_some_get _ (by decide +kernel)
  have hother : other₀.applyDeltaWithLimits e two .default (fun _ => 5) = some (other, .ok ()) :=
    eq_some_get _ (by decide +kernel)
  have hdata : other.marshalBinaryWithLimits e .default 5 = .ok data := by decide +kernel
  have hclock : d.text.clock.stamp + 1 < endStamp := by decide +kernel
  obtain ⟨hdelta, hmerge, hstate, hedit⟩ := failed_calls_leave_content (.applyDelta (.new hnew) hd : Reachable e d)
  obtain ⟨d₁, err₁, h₁⟩ := exists_error (o := d.applyDeltaWithLimits e two .default fun _ => 5) (by decide +kernel)
  obtain ⟨d₂, err₂, h₂⟩ := exists_error (o := d.merge e other fun _ => 5) (by decide +kernel)
  obtain ⟨d₃, err₃, h₃⟩ :=
    exists_error (o := d.unmarshalBinaryWithLimits e data .default fun _ => 5) (by decide +kernel)
  obtain ⟨d₄, err₄, h₄⟩ :=
    exists_error (o := d.applyEditorDeltaWithLimits e edit .default (fun _ => 5) 5 5) (by decide +kernel)
  refine ⟨d₀, d, other₀, other, data, hnew, hd, hother₀, hother, hdata, ⟨d₁, err₁, h₁, ?_⟩, ⟨d₂, err₂, h₂, ?_⟩,
    ⟨d₃, err₃, h₃, ?_⟩, d₄, err₄, h₄, ?_⟩
  · refine hdelta two .default _ d₁ err₁ (fun _ t ht => headroom_of_clear ?_ hclock (by decide)) h₁
    have hpass : passes (Option.any fun t => clear t.nodes t.tombstones (two.operations.map (·.tag)))
        (nestedDelta e two.textDelta .default) = true := by decide +kernel
    exact of_passes hpass ht
  · refine hmerge other _ d₂ err₂ (.applyDelta (.new hother₀) hother) (fun _ => ?_) h₂
    exact headroom_of_clear (by decide +kernel) hclock (by decide)
  · refine hstate data .default _ d₃ err₃ (fun state hs _ nodes tombstones hdecoded => ?_) h₃
    have hpass : passes (fun state : RichState => passes
        (fun p => clear p.1 p.2 ((Marks.assignments state.marks).map (·.value.tag)))
        (Text.unmarshalRGARunState e state.textState .default))
        (unmarshalState e data .default fun _ => 5) = true := by decide +kernel
    exact headroom_of_clear (of_passes (of_passes hpass hs) hdecoded) hclock (by decide)
  · refine hedit edit .default _ _ _ d₄ err₄ (Limits.default_fit _) (fun _ _ _ _ => ?_) h₄
    exact ⟨by decide, by decide +kernel⟩

/-- A letter with a mark that has the last timestamp of all: the decoder accepts the frame, and the document
takes the letter and refuses the mark. -/
theorem text_without_formatting : let e := plainEnv .bits64
    let options : Options := ⟨⟨10, 4⟩, Text.defaultOptions⟩
    let last : Tag := ⟨[66], 0xFFFFFFFFFFFFFFFF, 0xFFFFFFFFFFFFFFFF⟩
    let textDelta := [67, 82, 68, 84, 1, 20, 0, 9, 1, 0, 1, 66, 1, 0, 0, 97, 0, 0, 0, 0, 0]
    let delta : Delta := ⟨textDelta, [⟨last, [⟨[66], 1, 0⟩], [{key := [98], value := [49]}]⟩]⟩
    (marshalDelta e delta .default >>= fun b => unmarshalDeltaWithLimits e b .default) = .ok delta ∧
      ∃ d d' : Document, ∃ err, newWithOptions [65] options = some (.ok d) ∧ Reachable e d ∧
        d.applyDeltaWithLimits e delta .default (fun _ => 5) = some (d', .error err) ∧
        d.text.nodes.size = 0 ∧ d'.text.nodes.size = 1 ∧ d'.markCount = 0 ∧ ¬ d.SameContent d' := by
  intro e options last textDelta delta
  let d := ((newWithOptions [65] options).bind Except.toOption).get (by decide +kernel)
  have hnew : newWithOptions [65] options = some (.ok d) := rfl
  have hbefore : d.text.nodes.size = 0 := by decide +kernel
  obtain ⟨d', err, happ⟩ := exists_error (o := d.applyDeltaWithLimits e delta .default fun _ => 5) (by decide +kernel)
  have hafter : (d.applyDeltaWithLimits e delta .default fun _ => 5).map (fun p => (p.1.text.nodes.size, p.1.markCount)) =
      some (1, 0) := by decide +kernel
  rw [happ] at hafter
  obtain ⟨hafter, hcount⟩ := Prod.mk.inj (some.inj hafter)
  refine ⟨by decide +kernel, d, d', err, hnew, .new hnew, happ, hbefore, hafter, hcount, fun hsame => ?_⟩
  have hnodes : d'.text.nodes = d.text.nodes := congrArg (fun d => d.text.nodes) hsame
  rw [hnodes, hbefore] at hafter
  cases hafter

end Crdt.RichText
