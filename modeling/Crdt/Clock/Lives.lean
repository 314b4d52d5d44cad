import Crdt.Clock.Hlc

/-! A clock over all its lives.

A run is any sequence of `Now`, `Witness` and `Snapshot` calls and restarts, with
any physical readings. A restart loads, through `newHLCFromState`, the last
snapshot taken at or after the last issued tag, so a run keeps the snapshot
beside the clock and forgets it when a tag is issued. It also keeps, for every
issued tag, what the clock had witnessed by then in that life.
So the issued tags rise strictly (`lives_monotone`). -/
namespace Crdt.Clock

open List

/-- An issued tag and the remote tags witnessed before it in its life. -/
structure Issue where
  tag : Tag
  witnessed : List Tag

structure Run where
  clock : HLC
  /-- The last snapshot, if one was taken at or after the last issued tag. -/
  saved : Option State := none
  /-- Witnessed in this life. -/
  witnessed : List Tag := []
  /-- Issued in all lives, in order. -/
  issued : List Issue := []

inductive Event
  | now (millis : Int64)
  | witness (remote : Tag) (millis : Int64)
  | snapshot
  | restart

namespace Run

/-- One event, and the error its call returned. Without a snapshot to restart from
there is no restart. -/
def step (r : Run) : Event → Run × Option Err
  | .now millis =>
    match r.clock.now millis with
    | (h, .error err) => ({r with clock := h}, some err)
    | (h, .ok t) =>
      ({r with clock := h, saved := none, issued := r.issued ++ [⟨t, r.witnessed⟩]}, none)
  | .witness remote millis =>
    match r.clock.witness remote millis with
    | (h, .error err) => ({r with clock := h}, some err)
    | (h, .ok _) => ({r with clock := h, witnessed := remote :: r.witnessed}, none)
  | .snapshot => ({r with saved := some r.clock.snapshot}, none)
  | .restart =>
    match r.saved with
    | none => (r, none)
    | some state =>
      match newHLCFromState state with
      | .error err => (r, some err)
      | .ok h => ({r with clock := h, witnessed := []}, none)

def after (r : Run) : List Event → Run
  | [] => r
  | e :: rest => ((r.step e).1).after rest

def tags (r : Run) : List Tag := r.issued.map Issue.tag

/-- What holds between calls: the clock stands at or past every issued tag and past
everything witnessed in this life, and so does a snapshot for the issued tags. -/
structure Inv (r : Run) : Prop where
  issued_le : ∀ t ∈ r.tags, tagStamp t ≤ r.clock.stamp
  witnessed_lt : ∀ t ∈ r.witnessed, tagStamp t < r.clock.stamp
  saved_ge : ∀ s ∈ r.saved, ∀ t ∈ r.tags, tagStamp t ≤ s.stamp
  sorted : r.tags.Pairwise (fun t u => tagStamp t < tagStamp u)
  past : ∀ i ∈ r.issued, ∀ t ∈ i.witnessed, tagStamp t < tagStamp i.tag

theorem inv_start (h : HLC) : Inv {clock := h} := by
  constructor <;> simp [tags]

section
variable {r : Run} (hr : Inv r)
include hr

/-- A clock that only moves up keeps the invariant. -/
theorem Inv.advance {h : HLC} (hle : r.clock.stamp ≤ h.stamp) : Inv {r with clock := h} :=
  ⟨fun t ht => (hr.issued_le t ht).trans hle, fun t ht => (hr.witnessed_lt t ht).trans_le hle,
    hr.saved_ge, hr.sorted, hr.past⟩

theorem Inv.issue {h : HLC} (hlt : r.clock.stamp < h.stamp) :
    Inv {r with clock := h, saved := none, issued := r.issued ++ [⟨h.tag, r.witnessed⟩]} where
  issued_le := by
    intro t ht
    simp only [tags, map_append, map_cons, map_nil, mem_append, mem_singleton] at ht
    rcases ht with ht | rfl
    · exact (hr.issued_le t ht).trans hlt.le
    · exact le_rfl
  witnessed_lt := fun t ht => (hr.witnessed_lt t ht).trans hlt
  saved_ge := by simp
  sorted := by
    simp only [tags, map_append, map_cons, map_nil, pairwise_append,
      pairwise_singleton, mem_singleton, true_and]
    refine ⟨hr.sorted, ?_⟩
    rintro t ht _ rfl
    exact (hr.issued_le t ht).trans_lt hlt
  past := by
    refine forall_mem_append.mpr ⟨hr.past, forall_mem_singleton.mpr fun t ht => ?_⟩
    exact (hr.witnessed_lt t ht).trans hlt

theorem inv_step (e : Event) : Inv (r.step e).1 := by
  cases e with
  | now millis =>
    rcases hn : r.clock.now millis with ⟨h, err | t⟩
    · simp only [step, hn]
      exact hr.advance (by rw [HLC.now_error hn])
    obtain ⟨rfl, _, hlt⟩ := HLC.now_ok hn
    simp only [step, hn]
    exact hr.issue hlt
  | witness remote millis =>
    rcases hw : r.clock.witness remote millis with ⟨h, err | u⟩
    · simp only [step, hw]
      exact hr.advance (by rw [HLC.witness_error hw])
    obtain ⟨_, hlt, hremote⟩ := HLC.witness_ok hw
    simp only [step, hw]
    refine {hr.advance hlt.le with witnessed_lt := ?_}
    intro t ht
    rcases mem_cons.mp ht with rfl | ht
    · exact hremote
    · exact (hr.witnessed_lt t ht).trans hlt
  | snapshot =>
    refine {hr with saved_ge := ?_}
    rintro s hs t ht
    obtain rfl := Option.mem_some_iff.mp hs
    exact hr.issued_le t ht
  | restart =>
    rcases hs : r.saved with _ | s
    · simp only [step, hs]
      exact hr
    rcases hn : newHLCFromState s with err | h
    · simp only [step, hs, hn]
      exact hr
    have hstamp : s.stamp = h.stamp := by
      rw [← HLC.newHLCFromState_ok hn, HLC.snapshot_stamp]
    have hsaved := hr.saved_ge s hs
    simp only [step, hs, hn]
    refine {hr with issued_le := fun t ht => ?_, witnessed_lt := by simp, saved_ge := ?_}
    · exact (hsaved t ht).trans_eq hstamp
    rintro s' hs' t ht
    obtain rfl := Option.mem_some_iff.mp hs'
    exact hsaved t ht

theorem inv_after (events : List Event) : Inv (r.after events) := by
  induction events generalizing r with
  | nil => exact hr
  | cons e rest ih => exact ih (inv_step hr e)

end

theorem step_error (r : Run) (e : Event) (h : (r.step e).2 ≠ none) : (r.step e).1.clock = r.clock := by
  cases e with
  | now millis =>
    rcases hn : r.clock.now millis with ⟨h', err | t⟩
    · simp only [step, hn]
      exact HLC.now_error hn
    · simp [step, hn] at h
  | witness remote millis =>
    rcases hw : r.clock.witness remote millis with ⟨h', err | u⟩
    · simp only [step, hw]
      exact HLC.witness_error hw
    · simp [step, hw] at h
  | snapshot => simp [step] at h
  | restart =>
    rcases hs : r.saved with _ | s
    · simp [step, hs] at h
    rcases hn : newHLCFromState s with err | h'
    · simp [step, hs, hn]
    · simp [step, hs, hn] at h

end Run

/-- Over every run of a clock, whatever the physical readings: the issued tags are
strictly increasing, hence distinct; each is past every tag witnessed before it in
its life; the timestamp arithmetic is that of the natural numbers; and a call that
fails leaves both counters alone. -/
theorem lives_monotone (clock : HLC) (events : List Event) : let r := Run.after {clock} events
    r.tags.Pairwise (· < ·) ∧ r.tags.Nodup ∧ (∀ i ∈ r.issued, ∀ t ∈ i.witnessed,
        t.wallTime < i.tag.wallTime ∨ t.wallTime = i.tag.wallTime ∧ t.logical < i.tag.logical) ∧
      (∀ w l w' l', nextTimestamp w l = .ok (w', l') → stamp w' l' = stamp w l + 1) ∧
      ∀ e, (r.step e).2 ≠ none → (r.step e).1.clock.wallTime = r.clock.wallTime ∧
        (r.step e).1.clock.logical = r.clock.logical := by
  intro r
  have hr : Run.Inv r := Run.inv_after (Run.inv_start clock) events
  have hsorted : r.tags.Pairwise (· < ·) := hr.sorted.imp lt_of_tagStamp_lt
  refine ⟨hsorted, hsorted.imp ne_of_lt, ?_, fun _ _ _ _ => nextTimestamp_stamp, ?_⟩
  · intro i hi t ht
    exact (stamp_lt_iff ..).mp (hr.past i hi t ht)
  intro e he
  rw [Run.step_error r e he]
  exact ⟨rfl, rfl⟩

end Crdt.Clock
