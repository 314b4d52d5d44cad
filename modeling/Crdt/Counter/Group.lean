import Crdt.Counter.Frame
import Crdt.Lib.Cumulative

/-! Counters that talk to each other.

A group has any number of counters with different replica IDs. They add, send deltas and states, as values or
as frames, merge deltas that are on their way, and receive any message at any time and as often as they like.
A ghost says what was added to which component, and how much of it is in a counter or in a message. The two
kinds of counters differ in the halves they have; a run is the same for both (`Kind`).

In every run a component is the total of the amounts that were received (`Inv.sees`). -/
namespace Crdt.Counter

open Wire MapLoop Function GCounter

/-! ### Joins, component by component -/

section Join
variable {target source counts : Counts} {id : ReplicaID} {value : UInt64} {amount next : UInt64}

theorem getElem?_joinCounts (target source : Counts) (id : ReplicaID) : (joinCounts target source)[id]? =
      source[id]?.elim target[id]? fun v => if v > count target id then some v else target[id]? := by
  have hfst : ∀ (entries : List (ReplicaID × UInt64)) (s : Counts × Bool), (entries.foldl joinCount s).1 =
      entries.foldl (fun acc p => if p.2 > count acc p.1 then acc.insert p.1 p.2 else acc) s.1 := by
    intro entries
    induction entries with
    | nil => exact fun _ => rfl
    | cons p entries ih =>
      intro s
      rw [List.foldl_cons, ih, List.foldl_cons, joinCount]
      split_ifs <;> rfl
  rw [joinCounts, joinCountsChanged, hfst]
  exact getElem?_foldl_insertIf (fun _ v current => v > current.getD 0) (fun v => v) source target id

theorem count_joinCounts (target source : Counts) (id : ReplicaID) :
    (count (joinCounts target source) id).toNat = (count target id).toNat ⊔ (count source id).toNat := by
  rw [count, getElem?_joinCounts]
  cases hs : source[id]? with
  | none => simp [count, hs]
  | some v =>
    have hcount : count source id = v := by rw [count, hs]; rfl
    rw [hcount, Option.elim_some]
    split_ifs with hlt
    · exact (sup_eq_right.mpr (UInt64.le_iff_toNat_le.mp hlt.le)).symm
    · exact (sup_eq_left.mpr (UInt64.le_iff_toNat_le.mp (not_lt.mp hlt))).symm

theorem mem_of_mem_joinCounts (h : id ∈ joinCounts target source) : id ∈ target ∨ id ∈ source := by
  rw [mem_iff, getElem?_joinCounts] at h
  obtain ⟨v, h⟩ := h
  cases hs : source[id]? with
  | none => exact .inl (mem_iff.mpr ⟨v, by rwa [hs] at h⟩)
  | some w => exact .inr (mem_iff.mpr ⟨w, hs⟩)

theorem count_insert (counts : Counts) (id id' : ReplicaID) (value : UInt64) :
    count (counts.insert id value) id' = if id = id' then value else count counts id' := by
  rw [count, get?_insert]
  split_ifs <;> rfl

theorem count_eq_zero (h : id ∉ counts) : count counts id = 0 := by
  rw [count, not_mem_iff.mp h]
  rfl

/-- Every component that is stored counts. -/
def Positive (counts : Counts) : Prop := ∀ (id : ReplicaID) (value : UInt64), counts[id]? = some value → value ≠ 0

theorem Positive.join (h : Positive target) : Positive (joinCounts target source) := by
  intro id v hv
  rw [getElem?_joinCounts] at hv
  cases hs : source[id]? with
  | none => exact h id v (by rwa [hs] at hv)
  | some w =>
    rw [hs, Option.elim_some] at hv
    split_ifs at hv with hlt
    · cases hv
      intro hzero
      rw [hzero] at hlt
      exact Nat.not_lt_zero _ (UInt64.lt_iff_toNat_lt.mp hlt)
    · exact h id v hv

theorem Positive.insert (h : Positive counts) (hvalue : value ≠ 0) : Positive (counts.insert id value) := by
  intro id' v hv
  rw [get?_insert] at hv
  split_ifs at hv with hid
  · cases hv
    exact hvalue
  · exact h id' v hv

theorem Positive.ext (h : Positive target) (h' : Positive source) (heq : ∀ id, count target id = count source id) :
    target = source :=
  ext_getD h h' heq

theorem addCount_eq_ok_iff : addCount counts id amount = .ok next ↔
    (count counts id).toNat + amount.toNat < 2 ^ 64 ∧ next = count counts id + amount := by
  have hlt := (count counts id).toNat_lt
  unfold addCount headroom
  split_ifs with hover
  · exact iff_of_false nofun fun h => by omega
  · rw [Except.ok.injEq]
    exact ⟨fun h => ⟨by omega, h.symm⟩, fun h => h.2.symm⟩

theorem toNat_addCount (h : addCount counts id amount = .ok next) :
    next.toNat = (count counts id).toNat + amount.toNat := by
  obtain ⟨hlt, rfl⟩ := addCount_eq_ok_iff.mp h
  rw [UInt64.toNat_add, Nat.mod_eq_of_lt hlt]

end Join

/-! ### Two kinds of counters -/

/-- A kind of counters with its calls. Its halves tell apart what is added and what is taken away. -/
structure Kind where
  Half : Type
  decideHalf : DecidableEq Half
  State : Type
  Delta : Type
  replicaID : State → ReplicaID
  counts : State → Half → Counts
  deltaCounts : Delta → Half → Counts
  new : ReplicaID → Except Err State
  add : State → UInt64 → Half → State × Except Err Delta
  merge : State → State → State
  applyDeltaChanged : State → Delta → State × Except Err Bool
  mergeDeltas : Delta → Delta → Except Err Delta
  marshalState : Env → State → Checked Err (List UInt8)
  unmarshalState : Env → State → List UInt8 → Checked Wire.Err State
  marshalDelta : Env → Delta → Checked Err (List UInt8)
  unmarshalDelta : Env → List UInt8 → Checked Wire.Err Delta

instance (k : Kind) : DecidableEq k.Half := k.decideHalf

def gCounter : Kind where
  Half := Unit
  decideHalf := inferInstance
  State := GCounter
  Delta := GCounterDelta
  replicaID := replicaID
  counts c _ := c.counts
  deltaCounts d _ := d.counts
  new := new
  add c amount _ := c.increment amount
  merge := merge
  applyDeltaChanged := applyDeltaChanged
  mergeDeltas := GCounterDelta.merge
  marshalState := marshalBinary
  unmarshalState := unmarshalBinary
  marshalDelta := GCounterDelta.marshalBinary
  unmarshalDelta := unmarshalGCounterDelta

def pnCounter : Kind where
  Half := Bool
  decideHalf := inferInstance
  State := PNCounter
  Delta := PNCounterDelta
  replicaID := PNCounter.replicaID
  counts c positive := if positive then c.positive else c.negative
  deltaCounts d positive := if positive then d.positive else d.negative
  new := PNCounter.new
  add := PNCounter.add
  merge := PNCounter.merge
  applyDeltaChanged := PNCounter.applyDeltaChanged
  mergeDeltas := PNCounterDelta.merge
  marshalState := PNCounter.marshalBinary
  unmarshalState := PNCounter.unmarshalBinary
  marshalDelta := PNCounterDelta.marshalBinary
  unmarshalDelta := unmarshalPNCounterDelta

/-- What the calls of a kind do to its components. -/
structure Kind.Lawful (k : Kind) : Prop where
  new : ∀ {id c}, k.new id = .ok c → blank id = false ∧ k.replicaID c = id ∧ ∀ half, k.counts c half = ∅
  add : ∀ {c amount half c' d}, k.add c amount half = (c', .ok d) → k.replicaID c' = k.replicaID c ∧
    ∃ next, addCount (k.counts c half) (k.replicaID c) amount = .ok next ∧
      (∀ h, k.counts c' h = if h = half then (k.counts c half).insert (k.replicaID c) next else k.counts c h) ∧
      ∀ h, k.deltaCounts d h = if h = half then (∅ : Counts).insert (k.replicaID c) next else ∅
  add_error : ∀ {c amount half c' err}, k.add c amount half = (c', .error err) → c' = c
  merge : ∀ c other, k.replicaID (k.merge c other) = k.replicaID c ∧
    ∀ half, k.counts (k.merge c other) half = joinCounts (k.counts c half) (k.counts other half)
  apply : ∀ {c d c' changed}, k.applyDeltaChanged c d = (c', .ok changed) → k.replicaID c' = k.replicaID c ∧
    ∀ half, k.counts c' half = joinCounts (k.counts c half) (k.deltaCounts d half)
  apply_error : ∀ {c d c' err}, k.applyDeltaChanged c d = (c', .error err) → c' = c
  combine : ∀ {d other merged}, k.mergeDeltas d other = .ok merged →
    ∀ half, k.deltaCounts merged half = joinCounts (k.deltaCounts d half) (k.deltaCounts other half)
  delta_travels : ∀ {e d b d'}, k.marshalDelta e d = .ok b → k.unmarshalDelta e b = .ok d' →
    ∀ half, k.deltaCounts d' half = k.deltaCounts d half
  state_travels : ∀ {e c b scratch c'}, (∀ half, validateCounts (k.counts c half) = true) →
    k.marshalState e c = .ok b → k.unmarshalState e scratch b = .ok c' → ∀ half, k.counts c' half = k.counts c half

theorem gCounter_lawful : gCounter.Lawful where
  new {id c} h := by
    change new id = .ok c at h
    unfold new at h
    split_ifs at h with hblank
    cases h
    exact ⟨by simpa using hblank, rfl, fun _ => rfl⟩
  add {c amount half c' d} h := by
    change c.increment amount = (c', .ok d) at h
    unfold increment at h
    split at h
    · cases h
    · rename_i next hadd
      cases h
      exact ⟨rfl, next, hadd, fun _ => rfl, fun _ => rfl⟩
  add_error {c amount half c' err} h := by
    change c.increment amount = (c', .error err) at h
    unfold increment at h
    split at h
    · cases h; rfl
    · cases h
  merge c other := ⟨rfl, fun _ => rfl⟩
  apply {c d c' changed} h := by
    change c.applyDeltaChanged d = (c', .ok changed) at h
    unfold applyDeltaChanged at h
    split_ifs at h
    · cases h
      exact ⟨rfl, fun _ => rfl⟩
    · cases h
  apply_error {c d c' err} h := by
    change c.applyDeltaChanged d = (c', .error err) at h
    unfold applyDeltaChanged at h
    split_ifs at h
    · cases h
    · cases h
      rfl
  combine {d other merged} h half := by
    change d.merge other = .ok merged at h
    unfold GCounterDelta.merge at h
    split_ifs at h
    cases h
    rfl
  delta_travels {e d b d'} h h' half := by
    obtain ⟨hvalid, h⟩ := Checked.check_bind_eq_ok_iff.mp h
    obtain ⟨counts, hcounts, h'⟩ := Checked.bind_eq_ok_iff.mp h'
    rw [unmarshalCounts_of_marshal hvalid h] at hcounts
    cases hcounts
    cases h'
    rfl
  state_travels {e c b scratch c'} hvalid h h' half := by
    obtain ⟨counts, hcounts, h'⟩ := Checked.bind_eq_ok_iff.mp h'
    rw [unmarshalCounts_of_marshal (hvalid ()) h] at hcounts
    cases hcounts
    cases h'
    rfl

theorem PNCounter.add_eq (c : PNCounter) (amount : UInt64) (half : Bool) :
    pnCounter.add c amount half = match addCount (pnCounter.counts c half) c.replicaID amount with
      | .error err => (c, .error err)
      | .ok next => (if half then {c with positive := c.positive.insert c.replicaID next}
          else {c with negative := c.negative.insert c.replicaID next},
          .ok (if half then {positive := (∅ : Counts).insert c.replicaID next}
            else {negative := (∅ : Counts).insert c.replicaID next})) := by
  cases half <;> rfl

theorem pnCounter_lawful : pnCounter.Lawful where
  new {id c} h := by
    change PNCounter.new id = .ok c at h
    unfold PNCounter.new at h
    split_ifs at h with hblank
    cases h
    refine ⟨by simpa using hblank, rfl, fun half => ?_⟩
    cases half <;> rfl
  add {c amount half c' d} h := by
    have h := (PNCounter.add_eq c amount half).symm.trans h
    split at h
    · cases h
    · rename_i next hadd
      cases h
      refine ⟨?_, next, hadd, fun other => ?_, fun other => ?_⟩
      · cases half <;> rfl
      · cases half <;> cases other <;> rfl
      · cases half <;> cases other <;> rfl
  add_error {c amount half c' err} h := by
    have h := (PNCounter.add_eq c amount half).symm.trans h
    split at h
    · cases h; rfl
    · cases h
  merge c other := ⟨rfl, fun half => by cases half <;> rfl⟩
  apply {c d c' changed} h := by
    change c.applyDeltaChanged d = (c', .ok changed) at h
    unfold PNCounter.applyDeltaChanged at h
    split_ifs at h
    · cases h
      exact ⟨rfl, fun half => by cases half <;> rfl⟩
    · cases h
  apply_error {c d c' err} h := by
    change c.applyDeltaChanged d = (c', .error err) at h
    unfold PNCounter.applyDeltaChanged at h
    split_ifs at h
    · cases h
    · cases h
      rfl
  combine {d other merged} h half := by
    change d.merge other = .ok merged at h
    unfold PNCounterDelta.merge at h
    split_ifs at h
    cases h
    cases half <;> rfl
  delta_travels {e d b d'} h h' half := by
    obtain ⟨-, h⟩ := Checked.check_bind_eq_ok_iff.mp h
    obtain ⟨counts, hcounts, h'⟩ := Checked.bind_eq_ok_iff.mp h'
    rw [unmarshalPNCounts_of_marshal h] at hcounts
    cases hcounts
    cases h'
    cases half <;> rfl
  state_travels {e c b scratch c'} _ h h' half := by
    obtain ⟨counts, hcounts, h'⟩ := Checked.bind_eq_ok_iff.mp h'
    rw [unmarshalPNCounts_of_marshal h] at hcounts
    cases hcounts
    cases h'
    cases half <;> rfl

/-! ### Runs -/

inductive Message (k : Kind)
  | delta (d : k.Delta)
  | state (c : k.State)

section Run
variable {k : Kind}

def Message.counts : Message k → k.Half → Counts
  | .delta d => k.deltaCounts d
  | .state c => k.counts c

/-- A message as a frame, and what is decoded from it; a state is decoded into any counter. -/
inductive Travels (e : Env) : Message k → Message k → Prop
  | delta {d d' b} (h : k.marshalDelta e d = .ok b) (h' : k.unmarshalDelta e b = .ok d') :
    Travels e (.delta d) (.delta d')
  | state {c scratch c' b} (h : k.marshalState e c = .ok b) (h' : k.unmarshalState e scratch b = .ok c') :
    Travels e (.state c) (.state c')

/-- A counter takes in a message. -/
def Kind.receive (k : Kind) (c : k.State) : Message k → k.State × Except Err Unit
  | .delta d =>
    match k.applyDeltaChanged c d with
    | (c', .ok _) => (c', .ok ())
    | (c', .error err) => (c', .error err)
  | .state other => (k.merge c other, .ok ())

variable {c c' : k.State} {m : Message k}

theorem Kind.Lawful.receive (hk : k.Lawful) (h : k.receive c m = (c', .ok ())) :
    k.replicaID c' = k.replicaID c ∧ ∀ half, k.counts c' half = joinCounts (k.counts c half) (m.counts half) := by
  cases m with
  | delta d =>
    rw [Kind.receive] at h
    split at h
    · rename_i happly
      cases h
      exact hk.apply happly
    · cases h
  | state other =>
    cases h
    exact hk.merge c other

theorem Kind.Lawful.receive_error {err : Err} (hk : k.Lawful)
    (h : k.receive c m = (c', .error err)) : c' = c := by
  cases m with
  | delta d =>
    rw [Kind.receive] at h
    split at h
    · cases h
    rename_i happly
    cases h
    exact hk.apply_error happly
  | state other => cases h

/-- A component: one half of what one replica has. -/
abbrev Component (k : Kind) := k.Half × ReplicaID

/-- The counters of a group and the messages that are on their way. `log` has the amounts that were added to a
component, `seen` says how many of them a counter has received, and every message goes with how many of them
are in it. -/
structure Group (k : Kind) where
  counters : ByteMap k.State := ∅
  messages : List (Message k × (Component k → ℕ)) := []
  log : Component k → List ℕ := fun _ => []
  seen : ReplicaID → Component k → ℕ := fun _ _ => 0

namespace Group

/-- A counter has added an amount and sends a delta. -/
def add (g : Group k) (id : ReplicaID) (c : k.State) (half : k.Half) (amount : UInt64) (d : k.Delta) : Group k where
  counters := g.counters.insert id c
  log := Cumulative.grow g.log (half, id) amount.toNat
  seen := update g.seen id (update (g.seen id) (half, id) ((g.log (half, id)).length + 1))
  messages := (.delta d, update (fun _ => 0) (half, id) ((g.log (half, id)).length + 1)) :: g.messages

/-- A counter has taken in a message. -/
def receive (g : Group k) (id : ReplicaID) (c : k.State) (seen : Component k → ℕ) : Group k :=
  { g with
    counters := g.counters.insert id c
    seen := update g.seen id fun x => g.seen id x ⊔ seen x }

def send (g : Group k) (m : Message k) (seen : Component k → ℕ) : Group k :=
  {g with messages := (m, seen) :: g.messages}

/-- What a group can become when its counters add only what is allowed. A call that fails leaves the counter
that it returns. -/
inductive Reachable (e : Env) (allowed : k.State → UInt64 → k.Half → Prop) : Group k → Prop
  | start : Reachable e allowed {}
  | create {g : Group k} {id : ReplicaID} {c : k.State} (h : Reachable e allowed g) (hid : id ∉ g.counters)
      (hc : k.new id = .ok c) :
      Reachable e allowed {g with counters := g.counters.insert id c, seen := update g.seen id fun _ => 0}
  | add {g : Group k} {id : ReplicaID} {c c' : k.State} {half : k.Half} {amount : UInt64} {d : k.Delta}
      (h : Reachable e allowed g) (hc : g.counters[id]? = some c) (ha : allowed c amount half)
      (hadd : k.add c amount half = (c', .ok d)) : Reachable e allowed (g.add id c' half amount d)
  | add_error {g : Group k} {id : ReplicaID} {c c' : k.State} {half : k.Half} {amount : UInt64} {err : Err}
      (h : Reachable e allowed g) (hc : g.counters[id]? = some c) (ha : allowed c amount half)
      (hadd : k.add c amount half = (c', .error err)) :
      Reachable e allowed {g with counters := g.counters.insert id c'}
  | combine {g : Group k} {d d' merged : k.Delta} {seen seen' : Component k → ℕ} (h : Reachable e allowed g)
      (hd : (.delta d, seen) ∈ g.messages) (hd' : (.delta d', seen') ∈ g.messages)
      (hm : k.mergeDeltas d d' = .ok merged) :
      Reachable e allowed (g.send (.delta merged) fun x => seen x ⊔ seen' x)
  | share {g : Group k} {id : ReplicaID} {c : k.State} (h : Reachable e allowed g) (hc : g.counters[id]? = some c) :
      Reachable e allowed (g.send (.state c) (g.seen id))
  | travel {g : Group k} {m m' : Message k} {seen : Component k → ℕ} (h : Reachable e allowed g)
      (hm : (m, seen) ∈ g.messages) (ht : Travels e m m') : Reachable e allowed (g.send m' seen)
  | receive {g : Group k} {id : ReplicaID} {c c' : k.State} {m : Message k} {seen : Component k → ℕ}
      (h : Reachable e allowed g) (hm : (m, seen) ∈ g.messages) (hc : g.counters[id]? = some c)
      (hr : k.receive c m = (c', .ok ())) : Reachable e allowed (g.receive id c' seen)
  | receive_error {g : Group k} {id : ReplicaID} {c c' : k.State} {m : Message k} {seen : Component k → ℕ} {err : Err}
      (h : Reachable e allowed g) (hm : (m, seen) ∈ g.messages) (hc : g.counters[id]? = some c)
      (hr : k.receive c m = (c', .error err)) : Reachable e allowed {g with counters := g.counters.insert id c'}

/-! ### What every run keeps -/

def values (counts : k.Half → Counts) : Component k → ℕ := fun x => (count (counts x.1) x.2).toNat

variable {id : ReplicaID} {half : k.Half}

theorem values_insert {counts base : k.Half → Counts} {value : UInt64}
    (h : ∀ half', counts half' = if half' = half then (base half).insert id value else base half') :
    values counts = update (values base) (half, id) value.toNat := by
  funext x
  rw [update_apply]
  unfold values
  rw [h]
  by_cases hhalf : x.1 = half
  · rw [if_pos hhalf, count_insert]
    by_cases hid : id = x.2
    · rw [if_pos hid, if_pos (Prod.ext hhalf hid.symm)]
    · rw [if_neg hid, if_neg fun he => hid (congrArg Prod.snd he).symm, hhalf]
  · rw [if_neg hhalf, if_neg fun he => hhalf (congrArg Prod.fst he)]

/-- Components that are totals of what was added in the group. -/
structure Holds (g : Group k) (counts : k.Half → Counts) (seen : Component k → ℕ) : Prop where
  sees : Cumulative.Sees g.log (values counts) seen
  known : ∀ half, ∀ id ∈ counts half, id ∈ g.counters

structure Inv (g : Group k) : Prop where
  named : ∀ {id c}, g.counters[id]? = some c → k.replicaID c = id ∧ blank id = false
  holds : ∀ {id c}, g.counters[id]? = some c → g.Holds (k.counts c) (g.seen id)
  /-- A replica has seen all that it has added. -/
  own : ∀ {id c}, g.counters[id]? = some c → ∀ half, g.seen id (half, id) = (g.log (half, id)).length
  messages : ∀ p ∈ g.messages, g.Holds p.1.counts p.2
  silent : ∀ {id}, id ∉ g.counters → ∀ half, g.log (half, id) = []

variable {g : Group k} {counts counts' : k.Half → Counts} {seen seen' : Component k → ℕ} {g' : Group k}

theorem values_empty : values (fun _ : k.Half => (∅ : Counts)) = fun _ => 0 := by
  funext x
  simp [values, count]

theorem mem_of_mem_insert {b : k.Half → Counts} {value : UInt64} {half' : k.Half} {id' : ReplicaID}
    (h : ∀ half', counts half' = if half' = half then (b half).insert id value else b half')
    (hid : id' ∈ counts half') : id = id' ∨ id' ∈ b half' := by
  rw [h] at hid
  split_ifs at hid with he
  · exact he ▸ mem_insert.mp hid
  · exact .inr hid

theorem Holds.congr (h : g.Holds counts seen) (heq : ∀ half, counts' half = counts half) : g.Holds counts' seen :=
  funext heq ▸ h

theorem Holds.join (h : g.Holds counts seen) (h' : g.Holds counts' seen') :
    g.Holds (fun half => joinCounts (counts half) (counts' half)) fun x => seen x ⊔ seen' x := by
  constructor
  · have hvalues : values (fun half => joinCounts (counts half) (counts' half)) = fun x => values counts x ⊔ values counts' x :=
      funext fun x => count_joinCounts _ _ _
    rw [hvalues]
    exact h.sees.sup h'.sees
  intro half id hid
  cases mem_of_mem_joinCounts hid with
  | inl hid => exact h.known half id hid
  | inr hid => exact h'.known half id hid

/-- What is known does not change while the group grows. -/
theorem Holds.mono (h : g.Holds counts seen) (hc : ∀ id ∈ g.counters, id ∈ g'.counters)
    (hlog : g'.log = g.log ∨ ∃ x a, g'.log = Cumulative.grow g.log x a) : g'.Holds counts seen := by
  constructor
  · cases hlog with
    | inl hlog => rw [hlog]; exact h.sees
    | inr hlog =>
      obtain ⟨x, a, hlog⟩ := hlog
      rw [hlog]
      exact h.sees.grow
  · exact fun half id hid => hc id (h.known half id hid)

theorem Inv.valid (h : g.Inv) (hh : g.Holds counts seen) (half : k.Half) : validateCounts (counts half) = true := by
  refine validateCounts_iff.mpr fun p hp => ?_
  obtain ⟨c, hc⟩ := mem_iff.mp (hh.known half p.1 (mem_iff.mpr ⟨p.2, mem_toList.mp hp⟩))
  exact (h.named hc).2

/-- A counter is put in its place, after it has added at most one amount. -/
theorem Inv.put (h : g.Inv) (hlog : g'.log = g.log ∨ ∃ half a, g'.log = Cumulative.grow g.log (half, id) a)
    (hcounters : g'.counters = g.counters.insert id c) (hseen : g'.seen = update g.seen id seen)
    (hmessages : ∀ p ∈ g'.messages, p ∈ g.messages ∨ g'.Holds p.1.counts p.2) (hname : k.replicaID c = id)
    (hblank : blank id = false) (hholds : g'.Holds (k.counts c) seen)
    (hown : ∀ half, seen (half, id) = (g'.log (half, id)).length) : g'.Inv := by
  have hgrow : ∀ id' ∈ g.counters, id' ∈ g'.counters := by
    intro id' hid
    rw [hcounters]
    exact mem_insert.mpr (.inr hid)
  have hlog' : g'.log = g.log ∨ ∃ x a, g'.log = Cumulative.grow g.log x a :=
    hlog.imp (fun he => he) fun ⟨half, a, he⟩ => ⟨(half, id), a, he⟩
  have hother : ∀ {id'}, id' ≠ id → ∀ half, g'.log (half, id') = g.log (half, id') := by
    intro id' hne half
    cases hlog with
    | inl hlog => rw [hlog]
    | inr hlog =>
      obtain ⟨half', a, hlog⟩ := hlog
      rw [hlog, Cumulative.grow, update_of_ne fun he => hne (Prod.mk.inj he).2]
  constructor
  · intro id' d hd
    rw [hcounters, get?_insert] at hd
    split_ifs at hd with hid
    · cases hd
      exact hid ▸ ⟨hname, hblank⟩
    · exact h.named hd
  · intro id' d hd
    rw [hcounters, get?_insert] at hd
    rw [hseen]
    split_ifs at hd with hid
    · cases hd
      rwa [← hid, update_self]
    · rw [update_of_ne (Ne.symm hid)]
      exact (h.holds hd).mono hgrow hlog'
  · intro id' d hd half
    rw [hcounters, get?_insert] at hd
    rw [hseen]
    split_ifs at hd with hid
    · rw [← hid, update_self]
      exact hown half
    · rw [update_of_ne (Ne.symm hid), hother (Ne.symm hid)]
      exact h.own hd half
  · intro p hp
    cases hmessages p hp with
    | inl hp => exact (h.messages p hp).mono hgrow hlog'
    | inr hp => exact hp
  intro id' hid half
  have hne : id' ≠ id := fun he => hid (by rw [hcounters, he]; exact mem_insert.mpr (.inl rfl))
  rw [hother hne]
  exact h.silent (fun hm => hid (hgrow id' hm)) half

theorem Inv.send (h : g.Inv) (hm : g.Holds m.counts seen) : (g.send m seen).Inv := by
  refine ⟨h.named, fun hc => (h.holds hc).mono (fun _ => id) (.inl rfl), h.own, fun p hp => ?_, h.silent⟩
  cases List.mem_cons.mp hp with
  | inl he => rw [he]; exact hm.mono (fun _ => id) (.inl rfl)
  | inr hp => exact (h.messages p hp).mono (fun _ => id) (.inl rfl)

theorem Inv.same (h : g.Inv) (hc : g.counters[id]? = some c) :
    Inv {g with counters := g.counters.insert id c} := by
  have heq : g.counters.insert id c = g.counters := by
    refine Std.ExtTreeMap.ext_getElem? fun a => ?_
    rw [get?_insert]
    split_ifs with ha
    · rw [← ha, hc]
    · rfl
  rw [heq]
  exact h

variable (hk : k.Lawful)
include hk

theorem Inv.create (h : g.Inv) (hid : id ∉ g.counters) (hc : k.new id = .ok c) :
    Inv {g with counters := g.counters.insert id c, seen := update g.seen id fun _ => 0} := by
  obtain ⟨hblank, hname, hempty⟩ := hk.new hc
  refine h.put (.inl rfl) rfl rfl (fun p hp => .inl hp) hname hblank ?_ fun half => by rw [h.silent hid]; rfl
  constructor
  · rw [funext hempty, values_empty]
    exact .zero
  · intro half id' hid'
    simp [hempty] at hid'

theorem Inv.receive (h : g.Inv)
    (hm : (m, seen) ∈ g.messages) (hc : g.counters[id]? = some c) (hr : k.receive c m = (c', .ok ())) :
    (g.receive id c' seen).Inv := by
  obtain ⟨hname, hcounts⟩ := hk.receive hr
  have hholds := ((h.holds hc).join (h.messages _ hm)).congr hcounts
  have hgrow : ∀ id' ∈ g.counters, id' ∈ g.counters.insert id c' := fun id' hid => mem_insert.mpr (.inr hid)
  refine h.put (.inl rfl) rfl rfl (fun p hp => .inl hp) (hname.trans (h.named hc).1) (h.named hc).2
    (hholds.mono hgrow (.inl rfl)) fun half => ?_
  -- no message has more of a replica's amounts than the replica itself
  have hle := (h.messages _ hm).sees.le (half, id)
  rw [h.own hc half]
  exact sup_eq_left.mpr hle

theorem Inv.add {amount : UInt64} {d : k.Delta}
    (h : g.Inv) (hc : g.counters[id]? = some c) (hadd : k.add c amount half = (c', .ok d)) :
    (g.add id c' half amount d).Inv := by
  obtain ⟨hname, next, hnext, hcounts, hdelta⟩ := hk.add hadd
  obtain ⟨hid, hblank⟩ := h.named hc
  rw [hid] at hname hnext hcounts hdelta
  have hvalues := values_insert hcounts
  have hsees := (h.holds hc).sees.add (h.own hc half) (a := amount.toNat)
  rw [show values (k.counts c) (half, id) + amount.toNat = next.toNat from (toNat_addCount hnext).symm,
    ← hvalues] at hsees
  have hin : id ∈ g.counters.insert id c' := mem_insert.mpr (.inl rfl)
  have hgrow : ∀ id' ∈ g.counters, id' ∈ g.counters.insert id c' := fun id' hid => mem_insert.mpr (.inr hid)
  have hholds : (g.add id c' half amount d).Holds (k.counts c')
      (update (g.seen id) (half, id) ((g.log (half, id)).length + 1)) := by
    refine ⟨hsees, fun half' id' hid' => ?_⟩
    cases mem_of_mem_insert hcounts hid' with
    | inl he => exact he ▸ hin
    | inr hid' => exact hgrow id' ((h.holds hc).known half' id' hid')
  refine h.put (.inr ⟨half, amount.toNat, rfl⟩) rfl rfl (fun p hp => ?_) hname hblank hholds fun half' => ?_
  · -- the delta is the new component alone
    cases List.mem_cons.mp hp with
    | inr hp => exact .inl hp
    | inl he =>
      rw [he]
      have hsingle := hholds.sees.single (half, id)
      refine .inr ⟨?_, fun half' id' hid' => ?_⟩
      · have hdeltas : values (k.deltaCounts d) = update (values fun _ => ∅) (half, id) next.toNat :=
          values_insert hdelta
        rw [hvalues, update_self, update_self, ← values_empty, ← hdeltas] at hsingle
        exact hsingle
      cases mem_of_mem_insert (b := fun _ => ∅) hdelta hid' with
      | inl he => exact he ▸ hin
      | inr hid' => simp at hid'
  show update (g.seen id) (half, id) ((g.log (half, id)).length + 1) (half', id) =
    (Cumulative.grow g.log (half, id) amount.toNat (half', id)).length
  unfold Cumulative.grow update
  split_ifs with hx
  · obtain ⟨rfl, -⟩ := Prod.mk.inj hx
    simp
  · exact h.own hc half'

theorem Reachable.inv {e : Env} {allowed : k.State → UInt64 → k.Half → Prop}
    (h : g.Reachable e allowed) : g.Inv := by
  induction h with
  | start => exact ⟨by simp, by simp, by simp, by simp, fun _ _ => rfl⟩
  | create _ hid hc ih => exact ih.create hk hid hc
  | add _ hc _ hadd ih => exact ih.add hk hc hadd
  | add_error _ hc _ hadd ih => exact hk.add_error hadd ▸ ih.same hc
  | combine _ hd hd' hm ih =>
    refine ih.send ?_
    exact ((ih.messages _ hd).join (ih.messages _ hd')).congr (hk.combine hm)
  | share _ hc ih => exact ih.send (ih.holds hc)
  | travel _ hm ht ih =>
    refine ih.send ?_
    have hholds := ih.messages _ hm
    cases ht with
    | delta h h' => exact hholds.congr (hk.delta_travels h h')
    | state h h' => exact hholds.congr (hk.state_travels (ih.valid hholds) h h')
  | receive _ hm hc hr ih => exact ih.receive hk hm hc hr
  | receive_error _ _ hc hr ih => exact hk.receive_error hr ▸ ih.same hc

end Group

end Run

end Crdt.Counter
