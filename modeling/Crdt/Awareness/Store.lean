import Crdt.Lib.Utf8
import Crdt.Tag

/-! The awareness store and its mutex.

The store has one record for each actor: the last update, when it was seen, and whether it has expired. Every
method takes the mutex of the store and gives it back on each of its ways out. The mutex is a part of the
state here, so a way out that forgets it is seen: a call on a store whose mutex is taken never returns.

`Set` and `Remove` have such a way: an update that is not accepted (`Store.next`). It is the only one
(`store_survives`). -/
namespace Crdt.Awareness

open MapLoop

inductive Err
  | invalidOptions
  | invalidActor
  | invalidState
  | invalidUpdate
  | resourceLimit
  | stateConflict
  | clockExhausted
  | offlineActor
deriving DecidableEq, Repr

abbrev Actor := List UInt8

/-- Nanoseconds; the zero time stands for no time at all. -/
abbrev Time := Int

structure Options where
  maxActors : Int
  maxActorBytes : Int
  maxStateBytes : Int
  maxSubscribers : Int
  timeout : Int
deriving DecidableEq, Repr

def defaultOptions : Options where
  maxActors := 16384
  maxActorBytes := 128
  maxStateBytes := 16384
  maxSubscribers := 1024
  timeout := 30000000000

def Options.valid (o : Options) : Bool :=
  o.maxActors > 0 && o.maxActorBytes > 0 && o.maxStateBytes > 0 && o.maxSubscribers > 0 && o.timeout > 0

def normalizeOptions (o : Options) : Options :=
  if o.maxSubscribers = 0 then {o with maxSubscribers := defaultOptions.maxSubscribers} else o

/-- Without a state an update is a removal. -/
structure Update where
  actor : Actor
  clock : UInt64
  state : Option (List UInt8) := none
deriving DecidableEq, Repr

def Update.online (u : Update) : Bool := u.state.isSome

def sameUpdate (left right : Update) : Bool :=
  left.actor = right.actor && left.clock = right.clock && left.state.getD [] = right.state.getD []

/-- JSON: the canonical form of the bytes of one object, and of nothing else. -/
abbrev Json := List UInt8 → Option (List UInt8)

variable (canonicalState : Json)

def normalize (update : Update) (options : Options) : Except Err Update :=
  let options := normalizeOptions options
  if !options.valid then .error .invalidOptions
  else if blank update.actor || !Utf8.valid update.actor || update.actor.length > options.maxActorBytes then
    .error .invalidActor
  else if update.clock = 0 then .error .invalidUpdate
  else
    match update.state with
    | none => .ok {actor := update.actor, clock := update.clock}
    | some raw =>
      if raw.length = 0 || raw.length > options.maxStateBytes then .error .resourceLimit
      else
        match canonicalState raw with
        | none => .error .invalidState
        | some state =>
          if state.length > options.maxStateBytes then .error .resourceLimit
          else .ok {actor := update.actor, clock := update.clock, state := some state}

structure Record where
  update : Update
  lastSeen : Time
  expired : Bool := false

structure Store where
  /-- `mu` is held. -/
  locked : Bool := false
  options : Options
  records : ByteMap Record := ∅
  version : UInt64 := 0

def newStore (options : Options) : Except Err Store :=
  let options := normalizeOptions options
  if options.valid then .ok {options} else .error .invalidOptions

/-- The time of a call: what was passed, or the wall clock if that is no time. -/
def normalizeTime (value wall : Time) : Time := if value = 0 then wall else value

/-- `left.Sub(right)`, which is a `Duration`. -/
def sub (left right : Time) : Int := max (-9223372036854775808) (min 9223372036854775807 (left - right))

def maxUint64 : UInt64 := 18446744073709551615

namespace Store

variable (s : Store) (canonicalState : Json)

/-- Taking the mutex; a call that finds it taken waits for ever. -/
def lock : Option Store := if s.locked then none else some {s with locked := true}

def unlock : Store := {s with locked := false}

/-- The version goes up; observers are left out. -/
def publishLocked : Store := {s with version := s.version + 1}

def put (record : Record) : Store := {s with records := s.records.insert record.update.actor record}

def heartbeatLocked (actor : Actor) (current : Record) (now : Time) : Store × Update :=
  let update := {current.update with clock := current.update.clock + 1}
  ({s with records := s.records.insert actor {update, lastSeen := now}}.publishLocked, update)

/-- The end of `next`. If the update is not accepted the mutex stays taken. -/
def install (s : Store) (actor : Actor) (clock : UInt64) (state : Option (List UInt8))
    (now : Time) : Store × Except Err Update :=
  match normalize canonicalState {actor, clock, state} s.options with
  | .error err => (s, .error err)
  | .ok update =>
    if !s.records.contains actor && s.records.size ≥ s.options.maxActors then (s.unlock, .error .resourceLimit)
    else ({s with records := s.records.insert actor {update, lastSeen := now}}.publishLocked.unlock, .ok update)

def next (s : Store) (actor : Actor) (state : Option (List UInt8)) (now : Time) :
    Option (Store × Except Err Update) := do
  let s ← s.lock
  match s.records[actor]? with
  | some current =>
    if current.update.clock = maxUint64 then return (s.unlock, .error .clockExhausted)
    else if current.update.online && state.getD [] = current.update.state.getD [] then
      let (s, update) := s.heartbeatLocked actor current now
      return (s.unlock, .ok update)
    else return s.install canonicalState actor (current.update.clock + 1) state now
  | none => return s.install canonicalState actor 1 state now

def heartbeat (s : Store) (actor : Actor) (now : Time) : Option (Store × Except Err Update) :=
  match normalize canonicalState {actor, clock := 1} s.options with
  | .error err => some (s, .error err)
  | .ok _ => do
    let s ← s.lock
    match s.records[actor]? with
    | none => return (s.unlock, .error .offlineActor)
    | some current =>
      if !current.update.online then return (s.unlock, .error .offlineActor)
      else if current.update.clock = maxUint64 then return (s.unlock, .error .clockExhausted)
      else
        let (s, update) := s.heartbeatLocked actor current now
        return (s.unlock, .ok update)

def apply (s : Store) (update : Update) (now : Time) : Option (Store × Except Err Bool) :=
  match normalize canonicalState update s.options with
  | .error err => some (s, .error err)
  | .ok normalized => do
    let s ← s.lock
    match s.records[normalized.actor]? with
    | none =>
      if s.records.size ≥ s.options.maxActors then return (s.unlock, .error .resourceLimit)
      else return ((s.put {update := normalized, lastSeen := now}).publishLocked.unlock, .ok true)
    | some current =>
      if normalized.clock < current.update.clock then return (s.unlock, .ok false)
      else if normalized.clock = current.update.clock then
        if !sameUpdate normalized current.update then return (s.unlock, .error .stateConflict)
        else return (s.unlock, .ok false)
      else return ((s.put {update := normalized, lastSeen := now}).publishLocked.unlock, .ok true)

/-- One round of the loop of `Expire`. -/
def expireRecord (timeout : Int) (now : Time) (s : ByteMap Record × Bool) (p : Actor × Record) : ByteMap Record × Bool :=
  if p.2.update.online && !p.2.expired && sub now p.2.lastSeen > timeout then
    (s.1.insert p.1 {p.2 with expired := true}, true)
  else s

def expire (now : Time) : Option (Store × Bool) := do
  let s ← s.lock
  let (records, changed) := s.records.toList.foldl (expireRecord s.options.timeout now) (s.records, false)
  let s := {s with records}
  let s := if changed then s.publishLocked else s
  return (s.unlock, changed)

/-- The records come in the order of their actors. -/
def activeAtLocked (now : Time) : List Update :=
  s.records.toList.filterMap fun p =>
    if p.2.update.online && !p.2.expired && sub now p.2.lastSeen ≤ s.options.timeout then some p.2.update else none

def activeAt (now : Time) : Option (Store × List Update) := do
  let s ← s.lock
  let updates := s.activeAtLocked now
  return (s.unlock, updates)

end Store

/-! ### Calls -/

/-- A call with its arguments, and with the reading of the wall clock that it takes if it was passed no time. -/
inductive Call
  | set (actor : Actor) (state : Option (List UInt8)) (now wall : Time)
  | remove (actor : Actor) (now wall : Time)
  | heartbeat (actor : Actor) (now wall : Time)
  | apply (update : Update) (now wall : Time)
  | expire (now wall : Time)
  | activeAt (now wall : Time)

inductive Answer
  | update (u : Update)
  | changed (b : Bool)
  | active (updates : List Update)

/-- What a call does to the store and answers; nothing, if it never returns. -/
def Call.run (s : Store) : Call → Option (Store × Except Err Answer)
  | .set actor state now wall =>
    (s.next canonicalState actor state (normalizeTime now wall)).map fun p => (p.1, p.2.map .update)
  | .remove actor now wall =>
    (s.next canonicalState actor none (normalizeTime now wall)).map fun p => (p.1, p.2.map .update)
  | .heartbeat actor now wall =>
    (s.heartbeat canonicalState actor (normalizeTime now wall)).map fun p => (p.1, p.2.map .update)
  | .apply update now wall =>
    (s.apply canonicalState update (normalizeTime now wall)).map fun p => (p.1, p.2.map .changed)
  | .expire now wall => (s.expire (normalizeTime now wall)).map fun p => (p.1, .ok (.changed p.2))
  | .activeAt now wall => (s.activeAt (normalizeTime now wall)).map fun p => (p.1, .ok (.active p.2))

section Release
variable {α : Type} {canonicalState : Json} {s : Store} {r : Option (Store × Except Err α)} {s' : Store}

/-- The call returns with the mutex released, and if it fails the records and the version are as before. -/
def Released (s : Store) (r : Option (Store × Except Err α)) : Prop :=
  ∃ s' answer, r = some (s', answer) ∧ s'.locked = false ∧
    ∀ err, answer = .error err → s'.records = s.records ∧ s'.version = s.version

theorem Released.ok {a : α} (h : s'.locked = false) : Released s (some (s', .ok a)) :=
  ⟨s', _, rfl, h, nofun⟩

theorem Released.error {err : Err} (h : s'.locked = false) (hrecords : s'.records = s.records)
    (hversion : s'.version = s.version) : Released s (some (s', (.error err : Except Err α))) :=
  ⟨s', _, rfl, h, fun _ _ => ⟨hrecords, hversion⟩⟩

theorem released_map {β : Type} (f : α → β) : Released s (r.map fun p => (p.1, p.2.map f)) ↔ Released s r := by
  cases r with
  | none => exact iff_of_false (fun ⟨_, _, h, _⟩ => nomatch h) fun ⟨_, _, h, _⟩ => nomatch h
  | some p =>
    obtain ⟨s', answer⟩ := p
    cases answer with
    | ok a =>
      constructor
      · intro ⟨_, _, h, hlocked, _⟩
        cases h
        exact .ok hlocked
      intro ⟨_, _, h, hlocked, _⟩
      cases h
      exact .ok hlocked
    | error err =>
      constructor
      · intro ⟨_, _, h, hlocked, herr⟩
        cases h
        exact .error hlocked (herr err rfl).1 (herr err rfl).2
      intro ⟨_, _, h, hlocked, herr⟩
      cases h
      exact .error hlocked (herr err rfl).1 (herr err rfl).2

/-- The update passes `Normalize`. -/
def Normalizes (canonicalState : Json) (options : Options) (update : Update) : Prop :=
  ∃ normalized, normalize canonicalState update options = .ok normalized

/-- `Set` of a state, or `Remove`: the actor's clock has come to its end, or it is online with this very state,
or the update with its next clock is accepted. -/
def Store.Admits (canonicalState : Json) (s : Store) (actor : Actor) (state : Option (List UInt8)) : Prop :=
  match s.records[actor]? with
  | some current => current.update.clock = maxUint64 ∨
      (current.update.online = true ∧ state.getD [] = current.update.state.getD []) ∨
      Normalizes canonicalState s.options {actor, clock := current.update.clock + 1, state}
  | none => Normalizes canonicalState s.options {actor, clock := 1, state}

theorem released_install {actor : Actor} {clock : UInt64} {state : Option (List UInt8)} {now : Time}
    (hlocked : s'.locked = true) (hrecords : s'.records = s.records) (hversion : s'.version = s.version) :
    Released s (some (s'.install canonicalState actor clock state now)) ↔
      Normalizes canonicalState s'.options {actor, clock, state} := by
  unfold Store.install Normalizes
  cases hn : normalize canonicalState {actor, clock, state} s'.options with
  | error err =>
    refine iff_of_false (fun ⟨_, _, h, hl, _⟩ => ?_) fun ⟨_, h⟩ => nomatch h
    cases h
    rw [hlocked] at hl
    cases hl
  | ok update =>
    refine iff_of_true ?_ ⟨update, rfl⟩
    split_ifs
    · exact .error rfl hrecords hversion
    · exact .ok rfl

section
variable (hs : s.locked = false)
include hs

theorem released_next (actor : Actor) (state : Option (List UInt8)) (now : Time) :
    Released s (s.next canonicalState actor state now) ↔ s.Admits canonicalState actor state := by
  unfold Store.next Store.Admits Store.lock
  rw [if_neg (by simp [hs])]
  show Released s (match s.records[actor]? with | some current => _ | none => _) ↔ _
  cases s.records[actor]? with
  | none => exact released_install rfl rfl rfl
  | some current =>
    dsimp only
    split_ifs with hclock hsame
    · exact iff_of_true (.error rfl rfl rfl) (.inl hclock)
    · refine iff_of_true (.ok rfl) (.inr (.inl ?_))
      simpa using hsame
    have hdiffers : ¬ (current.update.online = true ∧ state.getD [] = current.update.state.getD []) := by
      simpa using hsame
    rw [or_iff_right hclock, or_iff_right hdiffers]
    exact released_install rfl rfl rfl

theorem released_heartbeat (actor : Actor) (now : Time) :
    Released s (s.heartbeat canonicalState actor now) := by
  unfold Store.heartbeat Store.lock
  cases normalize canonicalState {actor, clock := 1} s.options with
  | error err => exact .error hs rfl rfl
  | ok _ =>
    rw [if_neg (by simp [hs])]
    show Released s (match s.records[actor]? with | none => _ | some current => _)
    cases s.records[actor]? with
    | none => exact .error rfl rfl rfl
    | some current =>
      dsimp only
      split_ifs
      · exact .error rfl rfl rfl
      · exact .error rfl rfl rfl
      · exact .ok rfl

theorem released_apply (update : Update) (now : Time) : Released s (s.apply canonicalState update now) := by
  unfold Store.apply Store.lock
  cases normalize canonicalState update s.options with
  | error err => exact .error hs rfl rfl
  | ok normalized =>
    rw [if_neg (by simp [hs])]
    show Released s (match s.records[normalized.actor]? with | none => _ | some current => _)
    cases s.records[normalized.actor]? with
    | none =>
      split_ifs
      · exact .error rfl rfl rfl
      · exact .ok rfl
    | some current =>
      dsimp only
      split_ifs
      · exact .ok rfl
      · exact .error rfl rfl rfl
      · exact .ok rfl
      · exact .ok rfl

theorem released_expire (now : Time) :
    Released s ((s.expire now).map fun p => (p.1, (.ok (.changed p.2) : Except Err Answer))) := by
  unfold Store.expire Store.lock
  rw [if_neg (by simp [hs])]
  exact .ok rfl

theorem released_activeAt (now : Time) :
    Released s ((s.activeAt now).map fun p => (p.1, (.ok (.active p.2) : Except Err Answer))) := by
  unfold Store.activeAt Store.lock
  rw [if_neg (by simp [hs])]
  exact .ok rfl

end

/-- A `Set` or `Remove` is admitted; the other calls need nothing. -/
def Call.Met (canonicalState : Json) (s : Store) : Call → Prop
  | .set actor state _ _ => s.Admits canonicalState actor state
  | .remove actor _ _ => s.Admits canonicalState actor none
  | _ => True

theorem released_run (hs : s.locked = false) (call : Call) :
    Released s (call.run canonicalState s) ↔ call.Met canonicalState s := by
  cases call with
  | set actor state now wall => exact (released_map _).trans (released_next hs actor state _)
  | remove actor now wall => exact (released_map _).trans (released_next hs actor none _)
  | heartbeat actor now wall => exact iff_of_true ((released_map _).2 (released_heartbeat hs actor _)) trivial
  | apply update now wall => exact iff_of_true ((released_map _).2 (released_apply hs update _)) trivial
  | expire now wall => exact iff_of_true (released_expire hs _) trivial
  | activeAt now wall => exact iff_of_true (released_activeAt hs _) trivial

end Release

/-! ### Runs -/

/-- Each call of the run returns with the mutex released, and if it fails records and version are unchanged. -/
def Survives (canonicalState : Json) : Store → List Call → Prop
  | _, [] => True
  | s, call :: calls => Released s (call.run canonicalState s) ∧
      ∀ s' answer, call.run canonicalState s = some (s', answer) → Survives canonicalState s' calls

/-- Each `Set` and `Remove` of the run is admitted by the store it is called on. -/
def Met (canonicalState : Json) : Store → List Call → Prop
  | _, [] => True
  | s, call :: calls => call.Met canonicalState s ∧
      ∀ s' answer, call.run canonicalState s = some (s', answer) → Met canonicalState s' calls

instance {canonicalState : Json} {options : Options} {update : Update} :
    Decidable (Normalizes canonicalState options update) :=
  match h : normalize canonicalState update options with
  | .ok normalized => .isTrue ⟨normalized, h⟩
  | .error _ => .isFalse fun ⟨_, hn⟩ => nomatch h.symm.trans hn

instance {canonicalState : Json} {s : Store} {actor : Actor} {state : Option (List UInt8)} :
    Decidable (s.Admits canonicalState actor state) :=
  match h : s.records[actor]? with
  | some current => decidable_of_iff (current.update.clock = maxUint64 ∨
      (current.update.online = true ∧ state.getD [] = current.update.state.getD []) ∨
      Normalizes canonicalState s.options {actor, clock := current.update.clock + 1, state})
      (by simp only [Store.Admits, h])
  | none => decidable_of_iff (Normalizes canonicalState s.options {actor, clock := 1, state})
      (by simp only [Store.Admits, h])

instance {canonicalState : Json} {s : Store} : (call : Call) → Decidable (call.Met canonicalState s)
  | .set _ _ _ _ | .remove _ _ _ => inferInstanceAs (Decidable (s.Admits _ _ _))
  | .heartbeat _ _ _ | .apply _ _ _ | .expire _ _ | .activeAt _ _ => .isTrue trivial

instance decidableMet (canonicalState : Json) (s : Store) :
    (calls : List Call) → Decidable (Met canonicalState s calls)
  | [] => .isTrue trivial
  | call :: calls =>
    match h : call.run canonicalState s with
    | none => decidable_of_iff (call.Met canonicalState s) (by simp [Met, h])
    | some (s', _) =>
      have := decidableMet canonicalState s' calls
      decidable_of_iff (call.Met canonicalState s ∧ Met canonicalState s' calls) (by simp [Met, h])

theorem survives_iff {canonicalState : Json} {s : Store} (hs : s.locked = false) (calls : List Call) :
    Survives canonicalState s calls ↔ Met canonicalState s calls := by
  induction calls generalizing s with
  | nil => exact Iff.rfl
  | cons call calls ih =>
    have hcall : Released s (call.run canonicalState s) ↔ _ := released_run hs call
    rw [Met, ← hcall]
    refine and_congr_right fun hreleased => ?_
    obtain ⟨s', answer, hrun, hlocked, _⟩ := hreleased
    simp [hrun, ih hlocked]

theorem newStore_locked {options : Options} {s : Store} (h : newStore options = .ok s) : s.locked = false := by
  unfold newStore at h
  dsimp only at h
  split_ifs at h
  cases h
  rfl

/-- Every call returns with the mutex released, and a failed one changes nothing, exactly in the runs in which
each `Set` and `Remove` is for an actor at the end of its clock, or repeats its state, or is accepted. -/
theorem store_survives (options : Options) (s : Store) (calls : List Call)
    (h : newStore options = .ok s) : Survives canonicalState s calls ↔ Met canonicalState s calls :=
  survives_iff (newStore_locked h) calls

/-- A JSON decoder that knows the empty object only. -/
def emptyObject : Json := fun raw => if raw = [0x7b, 0x7d] then some raw else none

/-- `A` comes, repeats its state, is seen, and goes. -/
theorem store_survives_visit : Survives emptyObject {options := defaultOptions}
      [.set [65] (some [0x7b, 0x7d]) 1 0, .set [65] (some [0x7b, 0x7d]) 2 0, .activeAt 3 0, .remove [65] 4 0] :=
  (store_survives emptyObject defaultOptions _ _ rfl).2 (by decide +kernel)

/-- `Set` for a blank actor fails and keeps the mutex: after it `ActiveAt` does not return. -/
theorem set_blank_actor_blocks : ∃ s s', newStore defaultOptions = .ok s ∧
      (Call.set [0x20] (some [0x7b, 0x7d]) 1 0).run emptyObject s = some (s', .error .invalidActor) ∧
      (Call.activeAt 2 0).run emptyObject s' = none :=
  ⟨_, _, rfl, rfl, rfl⟩

end Crdt.Awareness
