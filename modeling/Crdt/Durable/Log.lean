import Crdt.Durable.Relay

/-! A durable log by its contract.

A log numbers its events from one, binds each dot to one of them, and never drops any. `replay` and `catchUp`
return all that is missing or an error. What else an implementation refuses (its bounds, a closed or a broken
store) is left open: each call takes the error that it is refused with, if it is. -/
namespace Crdt.Durable

open Replica List

structure AppendResult where
  event : Event
  duplicate : Bool

abbrev Log := List Event

/-- Where a subscriber resumes. -/
inductive Request
  | cursor (resume : UInt64)
  | stateVector (vector : Frontier)
  /-- The identities that the snapshot has and the subscriber lacks. -/
  | merkle (identities : List Tag)

namespace Request

def protocol : Request → Subprotocol
  | cursor _ => .cursor
  | stateVector _ => .stateVector
  | merkle _ => .merkle

/-- The event is above the point of resumption. -/
def wants : Request → Event → Bool
  | cursor resume, event => resume < event.sequence
  | stateVector vector, event => vector.counter event.change.dot.actor < event.change.dot.counter
  | merkle identities, event => identities.contains event.hlc

/-- The event as the log returns it: only the Merkle protocol is given its tag. -/
def view : Request → Event → Event
  | merkle _, event => event
  | _, event => {event with hlc := Tag.zero}

end Request

namespace Log

def highWater (log : Log) : UInt64 := .ofNat log.length

/-- `tag` is the next one of the store's clock, if it has one. -/
def append (log : Log) (merkle : Bool) (change : Change) (tag : Tag) (refuses : Option Err) :
    Log × Except Err AppendResult :=
  match refuses, log.find? (·.change.dot = change.dot) with
  | some err, _ => (log, .error err)
  | none, some event =>
    if event.change.delta = change.delta then (log, .ok ⟨{event with change}, true⟩) else (log, .error .conflictingDot)
  | none, none =>
    if log.length + 1 = UInt64.size then (log, .error .storeFull)
    else if merkle && !log.all (·.hlc < tag) then (log, .error .corruptStore)
    else
      let event : Event := {sequence := .ofNat (log.length + 1), hlc := if merkle then tag else .zero, change}
      (log ++ [event], .ok ⟨event, false⟩)

def replay (log : Log) (after : UInt64) (refuses : Option Err) : Except Err (List Event × UInt64) :=
  match refuses with
  | some err => .error err
  | none =>
    if after > log.highWater then .error .replayUnavailable
    else .ok ((log.drop after.toNat).map (Request.cursor after).view, log.highWater)

/-- A vector that is ahead of the log is refused. -/
def catchUp (log : Log) (vector : Frontier) (refuses : Option Err) : Except Err (List Event × UInt64) :=
  match refuses with
  | some err => .error err
  | none =>
    if !vector.toList.all fun (actor, counter) =>
        log.any fun event => event.change.dot.actor = actor && counter ≤ event.change.dot.counter then
      .error .replayUnavailable
    else .ok ((log.filter (Request.stateVector vector).wants).map (Request.stateVector vector).view, log.highWater)

/-- `MerkleEvents`: all that were asked for, in the order of their tags. -/
def merkleEvents (log : Log) (identities : List Tag) (refuses : Option Err) : Except Err (List Event) :=
  match refuses with
  | some err => .error err
  | none =>
    if !identities.all fun identity => log.any fun event => event.hlc = identity then .error .antiEntropyUnavailable
    else .ok (log.filter (Request.merkle identities).wants)

/-- The events are numbered from one, and their tags ascend if there are any. -/
structure Exact (merkle : Bool) (log : Log) : Prop where
  numbered : log.map (·.sequence.toNat) = List.range' 1 log.length
  size : log.length < UInt64.size
  ascending : merkle = true → log.Pairwise (·.hlc < ·.hlc)

section Exact
variable {merkle : Bool} {log : Log}

theorem Exact.empty (merkle : Bool) : Exact merkle ([] : Log) := ⟨rfl, by decide, fun _ => .nil⟩

variable (h : Exact merkle log)
include h

theorem Exact.toNat_highWater : log.highWater.toNat = log.length := by
  rw [highWater, UInt64.toNat_ofNat', Nat.mod_eq_of_lt h.size]

theorem Exact.concat (hsize : log.length + 1 < UInt64.size) {event : Event}
    (hsequence : event.sequence = .ofNat (log.length + 1))
    (htag : merkle = true → ∀ earlier ∈ log, earlier.hlc < event.hlc) : Exact merkle (log ++ [event]) where
  numbered := by
    have htoNat : event.sequence.toNat = 1 + log.length := by
      rw [hsequence, UInt64.toNat_ofNat', Nat.mod_eq_of_lt hsize, Nat.add_comm]
    rw [map_append, h.numbered, map_singleton, htoNat, length_append, length_singleton, range'_1_concat]
  size := by rwa [length_append, length_singleton]
  ascending hmerkle := by
    refine pairwise_append.mpr ⟨h.ascending hmerkle, pairwise_singleton .., fun a ha b hb => ?_⟩
    rw [mem_singleton.mp hb]
    exact htag hmerkle a ha

/-- A call adds one event, which is not a duplicate, or changes nothing. -/
theorem Exact.append_cases (change : Change) (tag : Tag) (refuses : Option Err) :
    (∃ event, log.append merkle change tag refuses = (log ++ [event], .ok ⟨event, false⟩) ∧
      Exact merkle (log ++ [event])) ∨
    ∃ res, log.append merkle change tag refuses = (log, res) ∧ ∀ event, res ≠ .ok ⟨event, false⟩ := by
  unfold append
  split
  · exact .inr ⟨_, rfl, nofun⟩
  · split_ifs
    · exact .inr ⟨_, rfl, fun event heq => by cases heq⟩
    · exact .inr ⟨_, rfl, nofun⟩
  by_cases hfull : log.length + 1 = UInt64.size
  · rw [if_pos hfull]
    exact .inr ⟨_, rfl, nofun⟩
  rw [if_neg hfull]
  by_cases hbehind : (merkle && !log.all (·.hlc < tag)) = true
  · rw [if_pos hbehind]
    exact .inr ⟨_, rfl, nofun⟩
  rw [if_neg hbehind]
  refine .inl ⟨_, rfl, h.concat (Nat.lt_of_le_of_ne h.size hfull) rfl fun hmerkle => ?_⟩
  simpa [hmerkle] using hbehind

/-- What stands behind the first `k` events are those numbered from `k + 1` on. -/
theorem Exact.map_drop (k : Nat) :
    (log.drop k).map (·.sequence.toNat) = List.range' (k + 1) (log.length - k) := by
  rw [List.map_drop, h.numbered, drop_range', Nat.add_comm, Nat.mul_one]

theorem Exact.drop_eq_filter (resume : UInt64) :
    log.drop resume.toNat = log.filter (Request.cursor resume).wants := by
  have hbefore : (log.take resume.toNat).filter (Request.cursor resume).wants = [] := by
    refine filter_eq_nil_iff.mpr fun event hevent => ?_
    obtain ⟨i, hi, rfl⟩ := mem_take_iff_getElem.mp hevent
    have hsequence : (log.map (·.sequence.toNat))[i]? = (List.range' 1 log.length)[i]? := by rw [h.numbered]
    rw [getElem?_map, getElem?_eq_getElem (by omega), getElem?_range' (by omega)] at hsequence
    have hnumber : log[i].sequence.toNat = 1 + 1 * i := Option.some.inj hsequence
    rw [Request.wants, decide_eq_true_eq, UInt64.lt_iff_toNat_lt]
    omega
  have hbehind : (log.drop resume.toNat).filter (Request.cursor resume).wants = log.drop resume.toNat := by
    refine filter_eq_self.mpr fun event hevent => ?_
    have hin : event.sequence.toNat ∈ (log.drop resume.toNat).map (·.sequence.toNat) := mem_map_of_mem hevent
    rw [h.map_drop, mem_range'_1] at hin
    rw [Request.wants, decide_eq_true_eq, UInt64.lt_iff_toNat_lt]
    omega
  rw [← hbehind, ← nil_append (List.filter _ _), ← hbefore, ← filter_append, take_append_drop]

end Exact

end Log

end Crdt.Durable
