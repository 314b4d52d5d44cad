import Crdt.Lib.Map

/-! Awareness in a Yjs room.

A client publishes its state under an ID that it chose, with a clock, and clears it with the state `null`. The room
binds the ID to the connection that published it. When a connection goes its states go with it, and for each the room
retains a tombstone with the clock and the owner, so that no delayed message brings the state back.

A client that comes back has a larger clock than the tombstone, but on a new connection, which is not the owner. The
room refuses it for as long as it retains the tombstone (`client_comes_back`). -/
namespace Crdt.Extensions.Yjs

open MapLoop List

/-- A map keyed by client IDs. -/
abbrev ClientMap (V : Type) := Std.ExtTreeMap UInt64 V compare

structure AwarenessEntry where
  clientID : UInt64
  clock : UInt64
  state : List UInt8

/-- The JSON text `null`. -/
def null : List UInt8 := [110, 117, 108, 108]

/-- A connection, or only a peer. -/
structure AwarenessOwner where
  subscriber : Option Nat
  peer : List UInt8

def AwarenessOwner.matches (owner : AwarenessOwner) (subscriber : Option Nat) (peer : List UInt8) : Bool :=
  if owner.subscriber.isSome then owner.subscriber = subscriber else owner.peer = peer

structure AwarenessState where
  clock : UInt64
  state : List UInt8
  owner : AwarenessOwner

structure AwarenessTombstone where
  clock : UInt64
  owner : AwarenessOwner
  removedAt : Int

structure Room where
  maxAwarenessTombstones : Int
  awareness : ClientMap AwarenessState := ∅
  awarenessTombstones : ClientMap AwarenessTombstone := ∅

/-- The time of a change, and the order in which it ranges over the keys of a map. -/
structure Turn where
  now : Int
  order : List UInt64 → List UInt64
  perm : ∀ ids, (order ids).Perm ids

/-- The tombstone that is evicted; the time 0 is the zero time. -/
def oldestID (tombstones : ClientMap AwarenessTombstone) (ids : List UInt64) : UInt64 :=
  (ids.foldl (fun (oldestID, oldest) candidateID =>
    match tombstones[candidateID]? with
    | some candidate =>
      if oldest = 0 || candidate.removedAt < oldest then (candidateID, candidate.removedAt) else (oldestID, oldest)
    | none => (oldestID, oldest)) ((0, 0) : UInt64 × Int)).1

def rememberAwarenessTombstone (turn : Turn) (tombstones : ClientMap AwarenessTombstone) (clientID : UInt64)
    (tombstone : AwarenessTombstone) (maximum : Int) : ClientMap AwarenessTombstone :=
  if maximum ≤ 0 then tombstones
  else if !tombstones.contains clientID && tombstones.size ≥ maximum then
    (tombstones.erase (oldestID tombstones (turn.order tombstones.keys))).insert clientID tombstone
  else tombstones.insert clientID tombstone

/-- A state that goes, with the tombstone that is retained for it. -/
def Room.bury (room : Room) (turn : Turn) (clientID clock : UInt64) (owner : AwarenessOwner) : Room :=
  { room with
    awareness := room.awareness.erase clientID
    awarenessTombstones := rememberAwarenessTombstone turn room.awarenessTombstones clientID ⟨clock, owner, turn.now⟩
      room.maxAwarenessTombstones }

section Calls
variable (subscriber : Option Nat) (peer : List UInt8) (maxClients : Int)

/-- One entry of a message; nothing is returned where the message is refused. -/
def applyEntry (room : Room) : AwarenessEntry × Turn → Option Room
  | (entry, turn) =>
    let previous := room.awareness[entry.clientID]?
    let tombstone := room.awarenessTombstones[entry.clientID]?
    let known := (previous.map fun s => (s.clock, s.owner)).or (tombstone.map fun t => (t.clock, t.owner))
    let knownClock := (known.map Prod.fst).getD 0
    if entry.clock < knownClock ∨ (entry.clock = knownClock ∧ entry.state ≠ null) ∨
        (known = none ∧ entry.clock = 0) then some room
    else if known.any (!·.2.matches subscriber peer) then none
    else if entry.state = null then
      match previous, tombstone with
      | some previous, _ => some (room.bury turn entry.clientID entry.clock previous.owner)
      | none, some tombstone =>
        if entry.clock > tombstone.clock then
          let tombstone := ⟨entry.clock, tombstone.owner, turn.now⟩
          some {room with awarenessTombstones := room.awarenessTombstones.insert entry.clientID tombstone}
        else some room
      | none, none => some room
    else if previous = none ∧ room.awareness.size ≥ maxClients then none
    else
      let state := ⟨entry.clock, entry.state, ⟨subscriber, peer⟩⟩
      some {room with awareness := room.awareness.insert entry.clientID state,
                      awarenessTombstones := room.awarenessTombstones.erase entry.clientID}

def applyAwarenessFrom : Room → List (AwarenessEntry × Turn) → Option Room :=
  foldlM (applyEntry subscriber peer maxClients)

/-- The state of one client, when a connection goes. -/
def removeState (turns : UInt64 → Turn) (room : Room) (clientID : UInt64) : Room :=
  match room.awareness[clientID]? with
  | some state =>
    if state.owner.matches subscriber peer then room.bury (turns clientID) clientID state.clock state.owner else room
  | none => room

def remove (turn : Turn) (turns : UInt64 → Turn) (room : Room) : Room :=
  (turn.order room.awareness.keys).foldl (removeState subscriber peer turns) room

end Calls

/-- What a connection of a peer does to the room: it sends messages, and in the end it is removed. -/
inductive Event
  | message (subscriber : Nat) (peer : List UInt8) (incoming : List (AwarenessEntry × Turn))
  | remove (subscriber : Nat) (peer : List UInt8) (turn : Turn) (turns : UInt64 → Turn)

/-- A message that is refused changes nothing. -/
def step (maxClients : Int) (room : Room) : Event → Room
  | .message subscriber peer incoming => (applyAwarenessFrom (some subscriber) peer maxClients room incoming).getD room
  | .remove subscriber peer turn turns => remove (some subscriber) peer turn turns room

/-- A message of this connection. -/
def Event.IsFrom (s : Nat) : Event → Prop
  | .message subscriber .. => subscriber = s
  | .remove .. => False

section Client
variable (s : Nat) (id clock : UInt64)

/-- No clock of the client has come up to this one, and only this connection published a state of it. -/
def Event.Fits : Event → Prop
  | .message subscriber _ incoming => ∀ x ∈ incoming, x.1.clientID = id →
    x.1.clock < clock ∧ (x.1.state ≠ null → subscriber = s)
  | .remove .. => True

/-- What the room knows of such a client, before and after the connection has gone. -/
structure Owned (gone : Prop) (room : Room) : Prop where
  active : ∀ {state}, room.awareness[id]? = some state → state.owner.subscriber = some s ∧ state.clock < clock
  removed : ∀ {tombstone}, room.awarenessTombstones[id]? = some tombstone →
    tombstone.owner.subscriber = some s ∧ tombstone.clock < clock
  inactive : gone → room.awareness[id]? = none

variable {s id clock} {c : Nat} {clientID : UInt64} {gone : Prop} {maxClients : Int} {room room' : Room}
  {peer : List UInt8} {turn : Turn} {turns : UInt64 → Turn}

theorem getElem?_remember {tombstones : ClientMap AwarenessTombstone} {t tombstone : AwarenessTombstone}
    {maximum : Int} (h : (rememberAwarenessTombstone turn tombstones clientID tombstone maximum)[id]? = some t) :
    (clientID = id ∧ tombstone = t) ∨ tombstones[id]? = some t := by
  unfold rememberAwarenessTombstone at h
  split_ifs at h
  · exact .inr h
  all_goals
    rw [get?_insert] at h
    split_ifs at h with hid
    · exact .inl ⟨hid, Option.some.inj h⟩
  · rw [getElem?_erase] at h
    split_ifs at h
    exact .inr h
  · exact .inr h

section
variable (h : Owned s id clock gone room)
include h

theorem Owned.mono {gone' : Prop} (himp : gone' → gone) : Owned s id clock gone' room :=
  {h with inactive := fun hg => h.inactive (himp hg)}

/-- A state that goes leaves its owner in the tombstone. -/
theorem Owned.bury (turn : Turn) {clock' : UInt64} {owner : AwarenessOwner}
    (hid : clientID = id → owner.subscriber = some s ∧ clock' < clock) :
    Owned s id clock (gone ∨ clientID = id) (room.bury turn clientID clock' owner) where
  active hstate := by
    rw [Room.bury, getElem?_erase] at hstate
    split_ifs at hstate
    exact h.active hstate
  removed htombstone := by
    rcases getElem?_remember htombstone with ⟨heq, rfl⟩ | htombstone
    · exact hid heq
    · exact h.removed htombstone
  inactive hgone := by
    rw [Room.bury, getElem?_erase]
    split_ifs with heq
    · rfl
    · exact h.inactive (hgone.resolve_right heq)

theorem Owned.applyEntry {x : AwarenessEntry × Turn}
    (hfits : x.1.clientID = id → x.1.clock < clock ∧ (x.1.state ≠ null → c = s)) (hquiet : gone → c ≠ s)
    (happly : applyEntry (some c) peer maxClients room x = some room') : Owned s id clock gone room' := by
  unfold Yjs.applyEntry at happly
  dsimp only at happly
  split_ifs at happly with _ _ hnull
  · cases happly
    exact h
  · split at happly
    · rename_i hprevious
      cases happly
      exact (h.bury x.2 fun hid => ⟨(h.active (hid ▸ hprevious)).1, (hfits hid).1⟩).mono .inl
    · rename_i htombstone
      split_ifs at happly
      · cases happly
        refine {h with removed := fun ht => ?_}
        rw [get?_insert] at ht
        split_ifs at ht with hid
        · rw [hid] at htombstone
          cases ht
          exact ⟨(h.removed htombstone).1, (hfits hid).1⟩
        · exact h.removed ht
      · cases happly
        exact h
    · cases happly
      exact h
  cases happly
  refine ⟨fun hs => ?_, fun ht => ?_, fun hg => ?_⟩
  · rw [get?_insert] at hs
    split_ifs at hs with hid
    · cases hs
      exact ⟨congrArg some ((hfits hid).2 hnull), (hfits hid).1⟩
    · exact h.active hs
  · rw [getElem?_erase] at ht
    split_ifs at ht
    exact h.removed ht
  · rw [get?_insert, if_neg fun hid => hquiet hg ((hfits hid).2 hnull)]
    exact h.inactive hg

theorem Owned.removeState :
    Owned s id clock (gone ∨ (clientID = id ∧ c = s)) (removeState (some c) peer turns room clientID) := by
  unfold Yjs.removeState
  cases hstate : room.awareness[clientID]? with
  | none => exact {h with inactive := fun hg => hg.elim h.inactive fun ⟨hid, _⟩ => hid ▸ hstate}
  | some state =>
    dsimp only
    split_ifs with hmatches
    · exact (h.bury (turns clientID) fun hid => h.active (by rw [← hid, hstate])).mono (.imp_right And.left)
    · refine {h with inactive := fun hg => hg.elim h.inactive fun ⟨hid, hc⟩ => ?_}
      have howner := (h.active (hid ▸ hstate)).1
      simp [AwarenessOwner.matches, howner, hc] at hmatches

theorem Owned.foldl_removeState {ids : List UInt64} :
    Owned s id clock (gone ∨ (id ∈ ids ∧ c = s)) (ids.foldl (Yjs.removeState (some c) peer turns) room) := by
  induction ids generalizing gone room with
  | nil => simpa using h
  | cons clientID ids ih =>
    refine (ih h.removeState).mono fun hg => ?_
    rw [mem_cons] at hg
    tauto

end

theorem Owned.remove (h : Owned s id clock False room) : Owned s id clock True (remove (some s) peer turn turns room) := by
  by_cases hid : id ∈ room.awareness
  · exact h.foldl_removeState.mono fun _ => .inr ⟨(turn.perm _).mem_iff.mpr (Std.ExtTreeMap.mem_keys.mpr hid), rfl⟩
  · have hgone : Owned s id clock True room := {h with inactive := fun _ => not_mem_iff.mp hid}
    exact hgone.foldl_removeState.mono .inl

theorem Owned.step {e : Event} (h : Owned s id clock gone room) (hfits : e.Fits s id clock)
    (hquiet : gone → ¬e.IsFrom s) : Owned s id clock gone (step maxClients room e) := by
  cases e with
  | message c peer incoming =>
    suffices hfold : ∀ room, Owned s id clock gone room → ∀ room' ∈ applyAwarenessFrom (some c) peer maxClients room incoming,
        Owned s id clock gone room' by
      dsimp only [Yjs.step]
      cases happly : applyAwarenessFrom (some c) peer maxClients room incoming with
      | none => exact h
      | some room' => exact hfold room h room' happly
    induction incoming with
    | nil =>
      rintro room h _ ⟨⟩
      exact h
    | cons x incoming ih =>
      intro room h room' happly
      obtain ⟨hx, hrest⟩ := forall_mem_cons.mp hfits
      obtain ⟨room₁, hfirst, happly⟩ := Option.bind_eq_some_iff.mp happly
      exact ih hrest hquiet room₁ (h.applyEntry hx hquiet hfirst) room' happly
  | remove c peer turn turns => exact h.foldl_removeState.mono .inl

theorem Owned.run {events : List Event} (h : Owned s id clock gone room) (hfits : ∀ e ∈ events, e.Fits s id clock)
    (hquiet : gone → ∀ e ∈ events, ¬e.IsFrom s) : Owned s id clock gone (events.foldl (Yjs.step maxClients) room) :=
  foldlRecOn events _ h fun _ h e he => h.step (hfits e he) fun hg => hquiet hg e he

end Client

/-- A client whose connection has gone publishes its next state on a new one. The state is shown if and only if the
room retains no tombstone of the client. -/
theorem client_comes_back (maxClients maximum : Int) (s t : Nat) (peer : List UInt8) (before after : List Event)
    (turn now : Turn) (turns : UInt64 → Turn) (entry : AwarenessEntry) {room : Room}
    (hroom : room = (before ++ .remove s peer turn turns :: after).foldl (step maxClients) ⟨maximum, ∅, ∅⟩)
    (hgone : ∀ e ∈ after, ¬e.IsFrom s) (honly : ∀ e ∈ before ++ after, e.Fits s entry.clientID entry.clock)
    (hclock : entry.clock ≠ 0) (ht : t ≠ s) (hstate : entry.state ≠ null) (hsize : room.awareness.size < maxClients) :
    (∃ room', applyAwarenessFrom (some t) peer maxClients room [(entry, now)] = some room' ∧
      room'.awareness[entry.clientID]? = some ⟨entry.clock, entry.state, ⟨some t, peer⟩⟩) ↔
    room.awarenessTombstones[entry.clientID]? = none := by
  have howned : Owned s entry.clientID entry.clock True room := by
    have hempty : Owned s entry.clientID entry.clock False ⟨maximum, ∅, ∅⟩ := ⟨by simp, by simp, False.elim⟩
    rw [hroom, foldl_append, foldl_cons]
    exact (hempty.run (fun e he => honly e (mem_append_left _ he)) False.elim).remove.run
      (fun e he => honly e (mem_append_right _ he)) fun _ => hgone
  have hinactive := howned.inactive trivial
  cases htombstone : room.awarenessTombstones[entry.clientID]? with
  | none => simp [applyAwarenessFrom, applyEntry, hinactive, htombstone, hclock, hstate, hsize]
  | some tombstone =>
    obtain ⟨howner, hlt⟩ := howned.removed htombstone
    simp [applyAwarenessFrom, applyEntry, hinactive, htombstone, UInt64.lt_asymm hlt, (UInt64.ne_of_lt hlt).symm,
      AwarenessOwner.matches, howner, ht.symm]

/-- A change that ranges over the keys in their order. -/
def turnAt (now : Int) : Turn := ⟨now, id, Perm.refl⟩

/-- A connection of the peer `[80]` publishes the state `{}`. -/
def publish (subscriber : Nat) (clientID : UInt64) : Event :=
  .message subscriber [80] [(⟨clientID, 1, [123, 125]⟩, turnAt 1)]

def disconnect (subscriber : Nat) (now : Int) : Event :=
  .remove subscriber [80] (turnAt now) fun _ => turnAt now

/-- The room retains one tombstone, and another connection has gone since. -/
theorem client_comes_back_evicted : (∃ room', applyAwarenessFrom (some 2) [80] 8 ([publish 1 7, publish 3 8,
      disconnect 1 2, disconnect 3 3].foldl (step 8) ⟨1, ∅, ∅⟩) [(⟨7, 2, [123, 125]⟩, turnAt 4)] = some room' ∧
    room'.awareness[(7 : UInt64)]? = some ⟨2, [123, 125], ⟨some 2, [80]⟩⟩) :=
  (client_comes_back 8 1 1 2 [80] [publish 1 7, publish 3 8] [disconnect 3 3] (turnAt 2) (turnAt 4) (fun _ => turnAt 2)
    ⟨7, 2, [123, 125]⟩ rfl (by simp [disconnect, Event.IsFrom]) (by simp [disconnect, publish, Event.Fits])
    (by decide) (by decide) (by decide) (by decide +kernel)).mpr (by decide +kernel)

/-- The client 7 of the first connection, on a second connection of the peer. -/
theorem new_connection_refused : (applyAwarenessFrom (some 2) [80] 8 ([publish 1 7, disconnect 1 2].foldl (step 8)
    ⟨256, ∅, ∅⟩) [(⟨7, 2, [123, 125]⟩, turnAt 3)]).isNone = true := by
  decide +kernel

end Crdt.Extensions.Yjs
