import Crdt.Text.Kept
import Crdt.Text.PackedState

/-! Local edits, and calls that are rejected.

Every `Insert`, `Delete` and `Replace` call prepares a delta, encodes it if the caller has set limits for the output,
and applies it. In any state of a text, a call that is rejected leaves everything as it was, but for the clock, from
which a local edit has taken tags (`rejected_changes_nothing`). -/
namespace Crdt.Text

open Clock Rga Wire Option

/-- How a call ends; `none` is a panic. -/
abbrev Outcome (ε α : Type) := Option (RGA × Except ε α)

variable {α β : Type}

/-- What follows if a call has succeeded. -/
def Outcome.next (call : Outcome WireErr α) (f : RGA → α → Outcome WireErr β) :
    Option (RGA × Except WireErr β) := do
  match ← call with
  | (r, .error err) => return (r, .error err)
  | (r, .ok a) => f r a

def Outcome.wire (call : Outcome Err α) : Outcome WireErr α := call.map fun (r, res) => (r, res.mapError .text)

namespace RGA

abbrev Encoder := Delta → Except WireErr (List UInt8)

variable (r : RGA) (offset count : Int) (value : List Rune) (encode : Option Encoder) (millis : Nat → Int64)

/-- The output of an edit, where the caller has set limits for it. -/
def encodeWithin (delta : Delta) : Outcome WireErr (Delta × List UInt8) :=
  some (r, match encode with
    | none => .ok (delta, [])
    | some encode => (encode delta).map (delta, ·))

def prepareInsert : Outcome WireErr (Delta × List UInt8) :=
  (Outcome.wire (r.prepareInsertWithPredecessor offset value millis)).next fun r (delta, _) => r.encodeWithin encode delta

def prepareDelete : Outcome WireErr (Delta × List UInt8) :=
  if offset < 0 ∨ count < 0 then some (r, .error (.text .range))
  else if offset > r.len ∨ count > r.len - offset then some (r, .error (.text .range))
  else (r.visibleRun offset count.toNat).bind fun
    | none => some (r, .error (.text .range))
    | some positions => r.encodeWithin encode {tombstones := positions.foldl (fun s id => s.insert id) ∅}

/-- The end of an edit: a prepared delta is applied. -/
def applyPrepared (millis : Int64) (edit : Delta × List UInt8) : Outcome WireErr (Delta × List UInt8) :=
  (Outcome.wire (r.applyDelta edit.1 millis)).next fun r _ =>
    some (r, .ok ({edit.1 with canonicalNodeIDs := []}, edit.2))

/-- All the `Insert` calls share it: they differ in the encoder. -/
def insert : Outcome WireErr (Delta × List UInt8) :=
  (r.prepareInsert offset value encode millis).next fun r => r.applyPrepared (millis value.length)

def delete (millis : Int64) : Outcome WireErr (Delta × List UInt8) :=
  (r.prepareDelete offset count encode).next fun r => r.applyPrepared millis

/-- One delta that deletes and inserts. -/
def replace (encode : Encoder) : Outcome WireErr (Delta × List UInt8) :=
  if !value.all validRune then some (r, .error (.text .invalidText)) else
  (r.prepareDelete offset count none).next fun r (deleted, _) =>
    (r.prepareInsert offset value none millis).next fun r (inserted, _) =>
      (r.encodeWithin (some encode) {inserted with tombstones := deleted.tombstones}).next fun r =>
        r.applyPrepared (millis value.length)

/-- The scalar frames, with their decoder `unmarshalRGA` as a parameter: it reads no text. -/
def unmarshalBinaryWithLimits (unmarshalRGA : List UInt8 → Limits → Checked Wire.Err (TagMap (Node Rune) × TagSet))
    (data : List UInt8) (limits : Limits) (millis : Int64) : Outcome WireErr Unit :=
  r.installDecoded (unmarshalRGA data limits) millis

end RGA

variable {r r' : RGA} {offset count : Int} {value : List Rune} {encode : Option RGA.Encoder} {millis : Nat → Int64}

/-! ### Rejected calls -/

/-- If a call is rejected, nothing has changed. -/
def Untouched {ε : Type} (r : RGA) (call : Outcome ε α) : Prop := ∀ r' err, call = some (r', .error err) → r' = r

/-- If a call is rejected, nothing but the clock has changed. -/
def OnlyTicks (r : RGA) (call : Outcome WireErr α) : Prop :=
  ∀ r' err, call = some (r', .error err) → r' = {r with clock := r'.clock}

/-- However a call ends, only the clock has moved. -/
def Prepares (r : RGA) (call : Outcome WireErr α) : Prop :=
  ∀ r' res, call = some (r', res) → r' = {r with clock := r'.clock}

theorem Prepares.next {call : Outcome WireErr α} {f : RGA → α → Outcome WireErr β} (h : Prepares r call)
    (hf : ∀ clock a, OnlyTicks {r with clock} (f {r with clock} a)) : OnlyTicks r (call.next f) := by
  intro r₂ err hrun
  obtain ⟨⟨r₁, res⟩, hcall, hrun⟩ := bind_eq_some_iff.mp hrun
  have ht := h r₁ res hcall
  cases res with
  | error err =>
    cases hrun
    exact ht
  | ok a =>
    rw [ht] at hrun
    exact hf r₁.clock a r₂ err hrun

theorem encodeWithin_prepares (r : RGA) {delta : Delta} : Prepares r (r.encodeWithin encode delta) := by
  intro r' res h
  cases h
  rfl

theorem prepareInsert_prepares (r : RGA) : Prepares r (r.prepareInsert offset value encode millis) := by
  intro r' res h
  obtain ⟨⟨r₁, res₁⟩, hcall, h⟩ := bind_eq_some_iff.mp h
  obtain ⟨⟨r₂, res₂⟩, hprepare, heq⟩ := map_eq_some_iff.mp hcall
  have ht := (prepareInsertWithPredecessor_ticked hprepare).same
  cases heq
  cases res₂
  all_goals
    cases h
    exact ht

theorem prepareDelete_prepares (r : RGA) : Prepares r (r.prepareDelete offset count encode) := by
  intro r' res h
  unfold RGA.prepareDelete at h
  split_ifs at h
  · cases h
    rfl
  · cases h
    rfl
  obtain ⟨run, -, h⟩ := bind_eq_some_iff.mp h
  cases run with
  | none =>
    cases h
    rfl
  | some positions => exact encodeWithin_prepares r r' res h

section
variable (h : r.Inv ∧ r.Settled)
include h

theorem applyDelta_rejected (delta : Delta) (millis : Int64) : Untouched r (r.applyDelta delta millis) := by
  intro r' err hrun
  rcases ends_of_run (applyDelta_spec h.1 h.2 delta millis) hrun with ⟨hok, -⟩ | ⟨-, heq⟩
  · cases hok
  · exact heq

theorem applyPrepared_rejected {millis : Int64} {edit : Delta × List UInt8} :
    OnlyTicks r (r.applyPrepared millis edit) := by
  intro r' err hrun
  obtain ⟨⟨r₁, res⟩, hcall, hrun⟩ := bind_eq_some_iff.mp hrun
  obtain ⟨⟨r₂, res⟩, happ, heq⟩ := map_eq_some_iff.mp hcall
  cases heq
  cases res with
  | error err =>
    cases hrun
    rw [applyDelta_rejected h edit.1 millis _ err happ]
  | ok u => cases hrun

theorem replace_rejected {encode : RGA.Encoder} : OnlyTicks r (r.replace offset count value millis encode) := by
  unfold RGA.replace
  split_ifs
  · intro r' err hrun
    cases hrun
    rfl
  · exact (prepareDelete_prepares r).next fun _ _ => (prepareInsert_prepares _).next fun _ _ =>
      (encodeWithin_prepares _).next fun clock _ => applyPrepared_rejected (r := {r with clock}) h

end

theorem installDecoded_rejected (r : RGA) (decoded : Checked Wire.Err (TagMap (Node Rune) × TagSet)) (millis : Int64) :
    Untouched r (r.installDecoded decoded millis) := by
  intro r' err h
  cases decoded with
  | broken => cases h
  | error e =>
    cases h
    rfl
  | ok p =>
    obtain ⟨⟨r₁, res⟩, hinstall, h⟩ := bind_eq_some_iff.mp h
    cases res with
    | ok u => cases h
    | error e =>
      cases h
      obtain ⟨-, rfl⟩ | ⟨hok, -⟩ := installState_cases hinstall
      · rfl
      · cases hok

theorem compaction_rejected {tags : List Position} {call : Outcome Err Nat}
    (h : ∃ r' res, call = some (r', res) ∧ CompactionEnds r tags r' res) : Untouched r call := by
  intro r' err hrun
  rcases ends_of_run h hrun with ⟨_, hres, _⟩ | ⟨_, heq⟩
  · cases hres
  · exact heq

/-- In every state of a text, a delta, a merge, a compaction or a state that is refused leaves the text as it was, and a
local edit that is refused has at most moved the clock. -/
theorem rejected_changes_nothing (h : Live r) :
    (∀ delta millis, Untouched r (r.applyDelta delta millis)) ∧
    (∀ other millis, Untouched r (r.merge other millis)) ∧
    (∀ tags, Untouched r (r.compactTombstones tags)) ∧
    (∀ tags, Untouched r (r.compactEligibleTombstones tags)) ∧
    (∀ decoder data limits millis, Untouched r (r.unmarshalBinaryWithLimits decoder data limits millis)) ∧
    (∀ e data limits millis, Untouched r (r.unmarshalRunBinaryWithLimits e data limits millis)) ∧
    (∀ e data limits millis, Untouched r (r.unmarshalPackedBinaryWithLimits e data limits millis)) ∧
    (∀ offset value encode millis, OnlyTicks r (r.insert offset value encode millis)) ∧
    (∀ offset count encode millis, OnlyTicks r (r.delete offset count encode millis)) ∧
    ∀ offset count value millis encode, OnlyTicks r (r.replace offset count value millis encode) := by
  have happly := applyDelta_rejected h.inv
  refine ⟨happly, fun other => happly other.asDelta, fun tags => ?_, fun tags => ?_, ?_, ?_, ?_, ?_, ?_, ?_⟩
  · exact compaction_rejected (compactTombstones_spec h.inv.1 tags)
  · exact compaction_rejected (compactEligibleTombstones_spec h.inv.1 h.inv.2 tags)
  · exact fun decoder data limits => installDecoded_rejected r _
  · exact fun e data limits => installDecoded_rejected r _
  · exact fun e data limits => installDecoded_rejected r _
  · exact fun offset value encode millis => (prepareInsert_prepares r).next fun clock _ =>
      applyPrepared_rejected (r := {r with clock}) h.inv
  · exact fun offset count encode millis => (prepareDelete_prepares r).next fun clock _ =>
      applyPrepared_rejected (r := {r with clock}) h.inv
  · exact fun offset count value millis encode => replace_rejected h.inv

/-- The encoder of a relay that takes frames up to a limit. -/
def frameWithin (limits : Limits) : RGA.Encoder := fun delta =>
  match delta.marshalRunBinaryWithLimits (plainEnv .bits64) limits with
  | .ok b => .ok b
  | .error err => .error err
  | .broken => .ok []

/-- A replica with a letter and a node that waits. It refuses another letter under the tag of the first, and an
insertion whose frame is too large has taken a tag and nothing else. -/
theorem rejected_changes_nothing_oversized : let a : Tag := ⟨[1], 5, 0⟩
    let letter (rune : Rune) : TagMap (Node Rune) := (∅ : TagMap (Node Rune)).insert a ⟨.zero, rune⟩
    let d : Delta := {nodes := (letter 97).insert ⟨[1], 7, 0⟩ ⟨⟨[1], 6, 0⟩, 98⟩}
    ∃ r r₁ r₂ err₁ err₂, newWith [7] [d] = some r ∧ r.nodes.size = 1 ∧ r.pending.size = 1 ∧
      r.applyDelta {nodes := letter 99} 200 = some (r₁, .error err₁) ∧ r₁ = r ∧
      r.insert 1 [120] (some (frameWithin {Limits.default with maxFrameBytes := 20})) (fun _ => 200) =
        some (r₂, .error err₂) ∧ r₂.clock ≠ r.clock ∧ r₂ = {r with clock := r₂.clock} := by
  intro a letter d
  let r := (newWith [7] [d]).get (by decide +kernel)
  have hnew : newWith [7] [d] = some r := (some_get _).symm
  have happ : (r.applyDelta {nodes := letter 99} 200).map (·.2.toOption.isNone) = some true := by decide +kernel
  have hins : (r.insert 1 [120] (some (frameWithin {Limits.default with maxFrameBytes := 20})) (fun _ => 200)).map
      (fun p => (decide (p.1.clock = r.clock), p.2.toOption.isNone)) = some (false, true) := by decide +kernel
  obtain ⟨⟨r₁, err₁ | u⟩, happ, hres₁⟩ := map_eq_some_iff.mp happ
  swap
  · cases hres₁
  obtain ⟨⟨r₂, err₂ | edit⟩, hins, hres₂⟩ := map_eq_some_iff.mp hins
  swap
  · cases congrArg Prod.snd hres₂
  have hclock := of_decide_eq_false (congrArg Prod.fst hres₂)
  obtain ⟨hdelta, -, -, -, -, -, -, hinsert, -⟩ := rejected_changes_nothing (reachable_newWith hnew)
  exact ⟨r, r₁, r₂, err₁, err₂, hnew, by decide +kernel, by decide +kernel, happ, hdelta _ _ r₁ err₁ happ, hins,
    hclock, hinsert _ _ _ _ r₂ err₂ hins⟩

end Crdt.Text
