import Crdt.Tag

/-! The multi-value register.

A register holds the values that no write it knows of has overwritten, each under the dot of its
write, and a version vector of the writes it knows of. Deltas have the same form. A join keeps a
value that both sides have, and one that only one side has if the other side's version vector does
not cover its dot. -/
namespace Crdt.Register

open MapLoop

inductive Err
  | invalidReplicaID
  | invalidMVRegister
  | overflow
  | tagConflict
deriving DecidableEq, Repr

structure MVDot where
  replicaID : List UInt8
  counter : UInt64
deriving DecidableEq, Repr

def compareMVDot (left right : MVDot) : Ordering :=
  if left.replicaID < right.replicaID then .lt
  else if right.replicaID < left.replicaID then .gt
  else if left.counter < right.counter then .lt
  else if right.counter < left.counter then .gt
  else .eq

namespace MVDot

def key (d : MVDot) : List UInt8 ×ₗ UInt64 := toLex (d.replicaID, d.counter)

theorem key_injective : Function.Injective key := by
  rintro ⟨r, c⟩ ⟨r', c'⟩ h
  cases h
  rfl

end MVDot

theorem compareMVDot_eq_key (left right : MVDot) : compareMVDot left right =
    if left.key < right.key then .lt else if right.key < left.key then .gt else .eq := by
  simp only [compareMVDot, MVDot.key, Prod.Lex.toLex_lt_toLex]
  rcases lt_trichotomy left.replicaID right.replicaID with h | h | h
  · simp [h]
  · simp [h]
  · simp [h, h.not_gt, h.ne']

instance : Std.TransCmp compareMVDot := transCmp_of_key compareMVDot_eq_key

instance : Std.LawfulEqCmp compareMVDot := lawfulEqCmp_of_key MVDot.key_injective compareMVDot_eq_key

/-- Version vectors; a replica that is not listed has no writes. -/
abbrev Context := ByteMap UInt64

abbrev Values := Std.ExtTreeMap MVDot (List UInt8) compareMVDot

def Context.counter (context : Context) (replicaID : List UInt8) : UInt64 := context[replicaID]?.getD 0

structure MVRegisterDelta where
  context : Context
  values : Values

structure MVRegister where
  replicaID : List UInt8
  context : Context := ∅
  values : Values := ∅

def newMVRegister (replicaID : List UInt8) : Except Err MVRegister :=
  if !(Tag.valid ⟨replicaID, 0, 0⟩) then .error .invalidReplicaID else .ok {replicaID}

/-- What a snapshot restores: the state with its causal context, under a replica ID. -/
def newMVRegisterFromSnapshot (replicaID : List UInt8) (saved : MVRegisterDelta) :
    Except Err MVRegister :=
  match newMVRegister replicaID with
  | .error err => .error err
  | .ok r => .ok {r with context := saved.context, values := saved.values}

def validMVDot (dot : MVDot) : Bool := !blank dot.replicaID && dot.counter ≠ 0

def mvContextCovers (context : Context) (dot : MVDot) : Bool :=
  context.counter dot.replicaID ≥ dot.counter

def validateMVState (context : Context) (values : Values) : Except Err Unit :=
  if context.toList.any fun p => !(Tag.valid ⟨p.1, 0, 0⟩) || p.2 = 0 then .error .invalidMVRegister
  else if values.toList.any fun p => !validMVDot p.1 || !mvContextCovers context p.1 then
    .error .invalidMVRegister
  else .ok ()

/-! ### Joins -/

/-- The first loop of `joinMVState`. -/
def joinLeft (rightContext : Context) (rightValues : Values) :
    List (MVDot × List UInt8) → Values → Except Err Values
  | [], merged => .ok merged
  | (dot, left) :: rest, merged =>
    match rightValues[dot]? with
    | some right =>
      if left ≠ right then .error .tagConflict
      else joinLeft rightContext rightValues rest (merged.insert dot left)
    | none =>
      joinLeft rightContext rightValues rest
        (if mvContextCovers rightContext dot then merged else merged.insert dot left)

/-- The second loop: what only the right side has. -/
def joinRight (leftContext : Context) (leftValues : Values) (merged : Values)
    (p : MVDot × List UInt8) : Values :=
  if leftValues.contains p.1 || mvContextCovers leftContext p.1 then merged
  else merged.insert p.1 p.2

def joinContext (merged : Context) (p : List UInt8 × UInt64) : Context :=
  if p.2 > merged.counter p.1 then merged.insert p.1 p.2 else merged

def joinMVState (leftContext : Context) (leftValues : Values) (rightContext : Context)
    (rightValues : Values) : Except Err (Context × Values) :=
  match joinLeft rightContext rightValues leftValues.toList ∅ with
  | .error err => .error err
  | .ok merged =>
    .ok (rightContext.toList.foldl joinContext leftContext,
      rightValues.toList.foldl (joinRight leftContext leftValues) merged)

/-- `MVRegisterDelta.Merge` -/
def MVRegisterDelta.merge (d other : MVRegisterDelta) : Except Err MVRegisterDelta :=
  match validateMVState d.context d.values with
  | .error err => .error err
  | .ok () =>
  match validateMVState other.context other.values with
  | .error err => .error err
  | .ok () =>
  match joinMVState d.context d.values other.context other.values with
  | .error err => .error err
  | .ok (context, values) => .ok {context, values}

namespace MVRegister

variable (r : MVRegister)

def state : MVRegisterDelta := ⟨r.context, r.values⟩

/-- `Set`: the write takes the next dot and overwrites all that is visible. -/
def set (value : List UInt8) : MVRegister × Except Err MVRegisterDelta :=
  let current := r.context.counter r.replicaID
  if current = 0xFFFFFFFFFFFFFFFF then (r, .error .overflow)
  else
    let next := current + 1
    let r := {r with
      context := r.context.insert r.replicaID next
      values := (∅ : Values).insert ⟨r.replicaID, next⟩ value}
    (r, .ok r.state)

def join (context : Context) (values : Values) : MVRegister × Except Err Unit :=
  match validateMVState r.context r.values with
  | .error err => (r, .error err)
  | .ok () =>
    match joinMVState r.context r.values context values with
    | .error err => (r, .error err)
    | .ok (context, values) => ({r with context, values}, .ok ())

def subsumes (context : Context) (values : Values) : Except Err Bool :=
  if values.toList.any fun p => (r.values[p.1]?).any (· ≠ p.2) then .error .tagConflict
  else .ok (context.toList.all fun p => !(r.context.counter p.1 < p.2))

/-- `Merge` with another register. -/
def merge (r other : MVRegister) : MVRegister × Except Err Unit :=
  match validateMVState other.context other.values with
  | .error err => (r, .error err)
  | .ok () => r.join other.context other.values

def applyDelta (delta : MVRegisterDelta) : MVRegister × Except Err Unit :=
  match validateMVState delta.context delta.values with
  | .error err => (r, .error err)
  | .ok () =>
    match r.subsumes delta.context delta.values with
    | .error err => (r, .error err)
    | .ok true => (r, .ok ())
    | .ok false => r.join delta.context delta.values

/-- `Values`, in the order of the dots. -/
def visible : List (MVDot × List UInt8) := r.values.toList

end MVRegister

end Crdt.Register
