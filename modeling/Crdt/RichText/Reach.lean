import Crdt.RichText.Editor
import Crdt.Text.Kept

/-! What every call of a document keeps.

`Reachable` are the documents that any calls lead to, whether they succeed or fail. The text of each of them
is kept (`Reachable.kept`): its indexes are one sequence, and its clock is ahead of everything it knows. The
marks are only ever read after they have been checked, so nothing about them has to be carried along. -/
namespace Crdt.RichText

open Clock MapLoop
open Text (RGA Rune)
open Wire Checked

/-! ### Steps -/

section Steps

variable {α β : Type}

/-- What holds of the document and the result, if the call does not break. -/
def Ensures (o : Outcome α) (P : Document → Except Err α → Prop) : Prop := ∀ d res, o = some (d, res) → P d res

variable {d : Document} {P : Document → Except Err β → Prop}

theorem Ensures.done {res : Except Err β} (h : P d res) : Ensures (some (d, res)) P := by
  intro d' res' heq
  cases heq
  exact h

theorem Ensures.checked {x : Checked Err α} {next : α → Outcome β} (herr : ∀ err, x = .error err → P d (.error err))
    (hok : ∀ a, x = .ok a → Ensures (next a) P) : Ensures (d.checked x next) P := by
  intro d' res heq
  cases hx : x with
  | broken =>
    rw [hx] at heq
    cases heq
  | error err =>
    rw [hx] at heq
    cases heq
    exact herr err hx
  | ok a =>
    rw [hx] at heq
    exact hok a hx d' res heq

theorem Ensures.onText {ε : Type} {wrap : ε → Err} {x : Option (RGA × Except ε α)}
    {next : Document → α → Outcome β} (herr : ∀ text err, x = some (text, .error err) →
      P {d with text} (.error (wrap err)))
    (hok : ∀ text a, x = some (text, .ok a) → Ensures (next {d with text} a) P) :
    Ensures (d.onText wrap x next) P := by
  intro d' res heq
  rcases hx : x with _ | ⟨text, err | a⟩
  · rw [hx] at heq
    cases heq
  · rw [hx] at heq
    cases heq
    exact herr text err hx
  · rw [hx] at heq
    exact hok text a hx d' res heq

end Steps

/-! ### Calls that keep the text -/

section Calls

variable {e : Env} {d : Document} {α β : Type} {res : Except Err α}

/-- The text is kept, whether the call succeeds or not. -/
def Keeps (o : Outcome α) : Prop := Ensures o fun d' _ => Text.Kept d'.text

theorem Keeps.done (h : Text.Kept d.text) : Keeps (some (d, res)) := Ensures.done h

theorem Keeps.checked {x : Checked Err β} {next : β → Outcome α} (h : Text.Kept d.text)
    (hok : ∀ a, Keeps (next a)) : Keeps (d.checked x next) :=
  Ensures.checked (fun _ _ => h) fun a _ => hok a

theorem Keeps.onText {ε : Type} {wrap : ε → Err} {x : Option (RGA × Except ε β)} {next : Document → β → Outcome α}
    (hx : ∀ text res, x = some (text, res) → Text.Kept text)
    (hok : ∀ d a, Text.Kept d.text → Keeps (next d a)) : Keeps (d.onText wrap x next) :=
  Ensures.onText (fun text _ heq => hx text _ heq) fun text a heq => hok {d with text} a (hx text _ heq)

variable (h : Text.Kept d.text) {millis : Int64}
include h

theorem Keeps.applyDelta {t : Text.Delta} {next : Document → Unit → Outcome α}
    (hok : ∀ d a, Text.Kept d.text → Keeps (next d a)) :
    Keeps (d.onText .text (d.text.applyDelta t millis) next) :=
  Keeps.onText (fun _ _ happ => (h.applyDelta happ).1) hok

theorem Keeps.witness {greatest : Option Tag} {next : Document → Outcome α}
    (hok : ∀ d, Text.Kept d.text → Keeps (next d)) : Keeps (d.witness greatest millis next) := by
  cases greatest with
  | none => exact hok d h
  | some tag => exact Keeps.onText (fun _ _ hx => (Text.witnessTag_ticked (Option.some.inj hx)).1.kept h) fun d _ => hok d

theorem Keeps.tagFormat {targets : List Position} {changes : List AttributeChange}
    {next : Document → List FormatOperation → Outcome α}
    (hok : ∀ d operations, Text.Kept d.text → Keeps (next d operations)) :
    Keeps (d.tagFormat targets changes millis next) := by
  unfold Document.tagFormat
  split_ifs
  · exact .done h
  · exact Keeps.onText (fun _ _ hx => (Text.nextTag_ticked (Option.some.inj hx)).kept h) fun d tag => hok d _
  · exact hok d [] h

theorem Keeps.join {textDelta : Option Text.Delta} {operations : List FormatOperation}
    {textMillis tagMillis : Int64} :
    Keeps (d.applyText textDelta textMillis fun d => d.witness (greatestOperationTag operations) tagMillis fun d =>
      some (d.format operations, res)) := by
  have hlast : ∀ d : Document, Text.Kept d.text → Keeps (d.witness (greatestOperationTag operations) tagMillis fun d =>
      some (d.format operations, res)) := fun d h => .witness h fun d h => .done h
  cases textDelta with
  | none => exact hlast d h
  | some t => exact .applyDelta h fun d _ => hlast d

theorem keeps_applyDelta (delta : Delta) (limits : Limits) (millis : Nat → Int64) :
    Keeps (d.applyDeltaWithLimits e delta limits millis) := by
  exact .checked h fun _ => .checked h fun _ => .checked h fun _ => .join h

theorem keeps_edit (operations : List EditorOperation) (limits : Limits)
    (millis : Nat → Int64) (textMillis tagMillis : Int64) :
    Keeps (d.applyEditorDeltaWithLimits e operations limits millis textMillis tagMillis) := by
  exact .checked h fun _ => .checked h fun _ => .join h

theorem keeps_insert (offset : Int) (value : List Rune) (attributes : ByteMap Str)
    (limits : Limits) (millis : Nat → Int64) :
    Keeps (d.insertWithAttributesWithLimits e offset value attributes limits millis) := by
  apply Keeps.checked h
  intro changes
  apply Keeps.onText
  · exact fun _ _ hx => (Text.prepareInsert_ticked hx).kept h
  intro d prepared h
  apply Keeps.tagFormat h
  intro d operations h
  exact .checked h fun _ => .checked h fun _ => .applyDelta h fun d _ h => .done h

theorem keeps_delete (offset count : Int) (limits : Limits) (millis : Int64) :
    Keeps (d.deleteWithLimits e offset count limits millis) := by
  apply Keeps.onText
  · exact fun _ _ hx => Text.prepareDelete_same hx ▸ h
  · exact fun d prepared h => .checked h fun _ => .applyDelta h fun d _ h => .done h

theorem keeps_format (offset count : Int) (changes : List AttributeChange) (limits : Limits)
    (millis : Int64) : Keeps (d.formatWithLimits e offset count changes limits millis) := by
  refine .checked h fun _ => .checked h fun positions => ?_
  split_ifs
  · exact .done h
  unfold Document.formatPositions
  split_ifs
  · exact .checked h fun _ => .done h
  · exact .tagFormat h fun d operations h => .checked h fun _ => .checked h fun _ => .done h

theorem keeps_compact (tags : List Tag) (eligible : Bool) : Keeps (d.compactTombstones tags eligible) := by
  apply Keeps.checked h
  intro _
  apply Keeps.onText
  · intro text res happ
    cases eligible with
    | true => exact h.compactEligibleTombstones happ
    | false => exact h.compactTombstones happ
  · exact fun d _ h => .done h

theorem keeps_merge (other : Document) (millis : Nat → Int64) : Keeps (d.merge e other millis) := by
  exact .checked h fun _ => .checked h fun _ => .applyDelta h fun d _ h => .witness h fun d h => .done h

theorem keeps_unmarshal (data : List UInt8) (limits : Limits) (millis : Nat → Int64) :
    Keeps (d.unmarshalBinaryWithLimits e data limits millis) := by
  refine .checked h fun state => .checked h fun _ => ?_
  apply Keeps.onText
  · exact fun _ _ happ => (h.unmarshalRunBinary happ).1
  · exact fun d _ h => .witness h fun d h => .done h

end Calls

/-! ### Reachable documents -/

inductive Reachable (e : Env) : Document → Prop
  | new {state : Clock.State} {options : Options} {d : Document} :
      newFromClockWithOptions state options = some (.ok d) → Reachable e d
  | applyDelta {d d' : Document} {delta : Delta} {limits : Limits} {millis : Nat → Int64} {res : Except Err Unit} :
      Reachable e d → d.applyDeltaWithLimits e delta limits millis = some (d', res) → Reachable e d'
  | merge {d d' other : Document} {millis : Nat → Int64} {res : Except Err Unit} :
      Reachable e d → Reachable e other → d.merge e other millis = some (d', res) → Reachable e d'
  | unmarshal {d d' : Document} {data : List UInt8} {limits : Limits} {millis : Nat → Int64} {res : Except Err Unit} :
      Reachable e d → d.unmarshalBinaryWithLimits e data limits millis = some (d', res) → Reachable e d'
  | insert {d d' : Document} {offset : Int} {value : List Rune} {attributes : ByteMap Str} {limits : Limits}
      {millis : Nat → Int64} {res : Except Err Delta} : Reachable e d →
      d.insertWithAttributesWithLimits e offset value attributes limits millis = some (d', res) → Reachable e d'
  | delete {d d' : Document} {offset count : Int} {limits : Limits} {millis : Int64} {res : Except Err Delta} :
      Reachable e d → d.deleteWithLimits e offset count limits millis = some (d', res) → Reachable e d'
  | format {d d' : Document} {offset count : Int} {changes : List AttributeChange} {limits : Limits} {millis : Int64}
      {res : Except Err Delta} : Reachable e d →
      d.formatWithLimits e offset count changes limits millis = some (d', res) → Reachable e d'
  | edit {d d' : Document} {operations : List EditorOperation} {limits : Limits} {millis : Nat → Int64}
      {textMillis tagMillis : Int64} {res : Except Err Delta} : Reachable e d →
      d.applyEditorDeltaWithLimits e operations limits millis textMillis tagMillis = some (d', res) → Reachable e d'
  | compact {d d' : Document} {tags : List Tag} {eligible : Bool} {res : Except Err Nat} :
      Reachable e d → d.compactTombstones tags eligible = some (d', res) → Reachable e d'

theorem Reachable.kept {e : Env} {d : Document} (h : Reachable e d) : Text.Kept d.text := by
  induction h with
  | new hnew =>
    unfold newFromClockWithOptions at hnew
    split_ifs at hnew
    · cases hnew
    obtain ⟨res, htext, hnew⟩ := Option.bind_eq_some_iff.mp hnew
    cases res with
    | error err => cases hnew
    | ok text =>
      cases hnew
      exact (Text.kept_new htext).1
  | applyDelta _ hcall ih => exact keeps_applyDelta ih _ _ _ _ _ hcall
  | merge _ _ hcall ih _ => exact keeps_merge ih _ _ _ _ hcall
  | unmarshal _ hcall ih => exact keeps_unmarshal ih _ _ _ _ _ hcall
  | insert _ hcall ih => exact keeps_insert ih _ _ _ _ _ _ _ hcall
  | delete _ hcall ih => exact keeps_delete ih _ _ _ _ _ _ hcall
  | format _ hcall ih => exact keeps_format ih _ _ _ _ _ _ _ hcall
  | edit _ hcall ih => exact keeps_edit ih _ _ _ _ _ _ _ hcall
  | compact _ hcall ih => exact keeps_compact ih _ _ _ _ hcall

end Crdt.RichText
