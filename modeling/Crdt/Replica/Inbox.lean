import Crdt.Lib.TwoLevel
import Crdt.Tag
import Crdt.Wire.Frame

/-! The inbox of a replication group.

An inbox takes the changes of a group as they arrive. A change has a dot, the number that its actor
gave it; the next dot of an actor is applied at once, and with it all that were waiting for it, and
a dot further on waits within bounds. What applying does is up to the application, which may refuse
a change; `Receiver.log` keeps the calls that it did not refuse. -/
namespace Crdt.Replica

open Wire MapLoop

inductive Err
  | invalidManifest
  | manifestMismatch
  | protocolMismatch
  | invalidDot
  | frontierGap
  | invalidChange
  | dotConflict
  | pendingLimit
  /-- The error of the application. -/
  | apply
deriving DecidableEq, Repr

/-! ### Manifests -/

structure FrameType where
  stateID : UInt64
  deltaID : UInt64
  semanticsVersion : UInt64
deriving DecidableEq, Repr

/-- `frameTypeRegistrations` -/
def frameTypes : List FrameType :=
  [⟨1, 3, 1⟩, ⟨2, 4, 1⟩, ⟨5, 6, 1⟩, ⟨7, 8, 1⟩, ⟨9, 10, 1⟩, ⟨11, 12, 1⟩, ⟨13, 14, 1⟩, ⟨15, 16, 1⟩,
    ⟨17, 18, 1⟩, ⟨19, 20, 2⟩, ⟨21, 22, 1⟩, ⟨23, 24, 1⟩, ⟨25, 26, 2⟩, ⟨29, 30, 3⟩, ⟨31, 32, 2⟩]

def frameTypeForState (stateID : UInt64) : Option FrameType := frameTypes.find? (·.stateID = stateID)

def frameTypeForDelta (deltaID : UInt64) : Option FrameType := frameTypes.find? (·.deltaID = deltaID)

def supportsFrame (typeID : UInt64) : Bool :=
  (frameTypeForState typeID).isSome || (frameTypeForDelta typeID).isSome

structure Protocol where
  stateID : UInt64 := 0
  deltaID : UInt64 := 0
  codecID : List UInt8 := []
  semanticsVersion : UInt64 := 0
  wireFormatVersion : UInt64 := 0
deriving DecidableEq, Repr

def Protocol.frameFormatVersion (p : Protocol) : UInt64 :=
  if p.wireFormatVersion = 0 then formatVersion else p.wireFormatVersion

structure Manifest where
  groupID : List UInt8 := []
  schemaID : List UInt8 := []
  epoch : UInt64 := 0
  protocol : Protocol := {}
deriving DecidableEq, Repr

def Manifest.validate (m : Manifest) : Except Err Unit :=
  let p := m.protocol
  if blank m.groupID || blank m.schemaID || m.epoch = 0 || p.semanticsVersion = 0 ||
      p.codecID.length > Limits.default.maxCodecID ||
      (p.frameFormatVersion ≠ formatVersion && p.frameFormatVersion ≠ formatVersionV2) then
    .error .invalidManifest
  else
    match frameTypeForState p.stateID with
    | none => .error .invalidManifest
    | some kind =>
      if kind.deltaID ≠ p.deltaID || kind.semanticsVersion ≠ p.semanticsVersion ||
          !supportsFrame p.stateID || !supportsFrame p.deltaID then .error .invalidManifest
      else .ok ()

def Manifest.compatible (m remote : Manifest) : Except Err Unit := do
  m.validate
  remote.validate
  if m.groupID ≠ remote.groupID || m.schemaID ≠ remote.schemaID || m.epoch ≠ remote.epoch then
    .error .manifestMismatch
  else if m.protocol.stateID ≠ remote.protocol.stateID || m.protocol.deltaID ≠ remote.protocol.deltaID ||
      m.protocol.codecID ≠ remote.protocol.codecID ||
      m.protocol.semanticsVersion ≠ remote.protocol.semanticsVersion ||
      m.protocol.frameFormatVersion ≠ remote.protocol.frameFormatVersion then .error .protocolMismatch
  else .ok ()

/-! ### Dots and frontiers -/

structure Dot where
  actor : List UInt8
  counter : UInt64
deriving DecidableEq, Repr

def Dot.valid (d : Dot) : Bool := !blank d.actor && d.counter ≠ 0

/-- The greatest dot of each actor that is installed with all before it. -/
abbrev Frontier := ByteMap UInt64

namespace Frontier

def counter (f : Frontier) (actor : List UInt8) : UInt64 := f[actor]?.getD 0

def advance (f : Frontier) (dot : Dot) : Except Err Frontier :=
  if !dot.valid then .error .invalidDot else
  let current := f.counter dot.actor
  if dot.counter ≤ current then .ok f else
  if dot.counter ≠ current + 1 then .error .frontierGap else
  .ok (f.insert dot.actor dot.counter)

def valid (f : Frontier) : Bool := f.toList.all fun (actor, counter) => !blank actor && counter ≠ 0

end Frontier

/-! ### Changes -/

structure Change where
  dot : Dot
  manifest : Manifest := {}
  delta : List UInt8
  validated : Bool := false
deriving DecidableEq, Repr

/-- The frame of a change belongs to the manifest. -/
def Change.checkFrame (e : Env) (delta : List UInt8) (manifest : Manifest) : Bool :=
  match unmarshalFrame e delta .default with
  | .ok decoded => decoded.version = manifest.protocol.frameFormatVersion &&
      decoded.typeID = manifest.protocol.deltaID && decoded.codecID = manifest.protocol.codecID
  | _ => false

/-- `NewChangeWithPolicy` -/
def newChangeWithPolicy (e : Env) (manifest : Manifest) (dot : Dot) (delta : List UInt8) : Except Err Change :=
  match manifest.validate with
  | .error _ => .error .invalidChange
  | .ok () =>
    if !dot.valid then .error .invalidChange
    else if !Change.checkFrame e delta manifest then .error .invalidChange
    else .ok {dot, manifest, delta, validated := true}

def Change.validate (e : Env) (c : Change) (manifest : Manifest) : Except Err Unit :=
  if !c.dot.valid || c.delta.length = 0 then .error .invalidChange else do
  manifest.compatible c.manifest
  if c.validated || checkFrame e c.delta manifest then .ok () else .error .invalidChange

/-! ### The inbox -/

structure Inbox where
  manifest : Manifest
  frontier : Frontier
  maxPending : Int
  maxBytes : Int
  pending : TwoLevel (K := List UInt8) (L := UInt64) compare compare Change := ∅
  pendingCount : Int := 0
  pendingSize : Int := 0

def newInbox (manifest : Manifest) (frontier : Frontier) (maxPending maxBytes : Int) : Except Err Inbox :=
  match manifest.validate with
  | .error _ => .error .invalidChange
  | .ok () =>
    if !frontier.valid || maxPending ≤ 0 || maxBytes ≤ 0 then .error .invalidChange
    else .ok {manifest, frontier, maxPending, maxBytes}

structure Delivery where
  buffered : Bool := false
  duplicate : Bool := false
  applied : List Dot := []
deriving DecidableEq, Repr

/-- An inbox with the application behind it, and the calls of `apply` that succeeded so far. -/
structure Receiver (σ : Type) where
  inbox : Inbox
  app : σ
  log : List (Dot × List UInt8) := []

/-- What the application does with a delta, and whether it takes it. -/
abbrev Apply (σ : Type) := σ → List UInt8 → Bool × σ

namespace Inbox

def buffer (i : Inbox) (change : Change) : Inbox × Delivery × Option Err :=
  match i.pending.get change.dot.actor change.dot.counter with
  | some existing =>
    if existing.delta ≠ change.delta then (i, {}, some .dotConflict)
    else (i, {buffered := true, duplicate := true}, none)
  | none =>
    if i.pendingCount ≥ i.maxPending || change.delta.length > i.maxBytes - i.pendingSize then
      (i, {}, some .pendingLimit)
    else
      ({i with
          pending := i.pending.put change.dot.actor change.dot.counter {dot := change.dot, delta := change.delta}
          pendingCount := i.pendingCount + 1
          pendingSize := i.pendingSize + change.delta.length}, {buffered := true}, none)

/-- A change that is no longer pending. -/
def remove (i : Inbox) (dot : Dot) : Inbox :=
  match i.pending.get dot.actor dot.counter with
  | none => i
  | some existing =>
    {i with
      pending := i.pending.drop dot.actor dot.counter
      pendingCount := i.pendingCount - 1
      pendingSize := i.pendingSize - existing.delta.length}

end Inbox

namespace Receiver

variable {σ : Type} (apply : Apply σ)

/-- A call of the application. -/
def call (s : Receiver σ) (dot : Dot) (delta : List UInt8) : Bool × Receiver σ :=
  let (ok, app) := apply s.app delta
  (ok, {s with app, log := if ok then s.log ++ [(dot, delta)] else s.log})

/-- The loop over the changes that were waiting, `none` where the steps run out. -/
def drain (actor : List UInt8) : Nat → Receiver σ → Delivery → Option (Receiver σ × Delivery × Option Err)
  | 0, _, _ => none
  | n + 1, s, delivery =>
    let nextCounter := s.inbox.frontier.counter actor + 1
    match s.inbox.pending.get actor nextCounter with
    | none => some (s, delivery, none)
    | some next =>
      match s.call apply next.dot next.delta with
      | (false, s) => some (s, delivery, some .apply)
      | (true, s) =>
        let inbox := s.inbox.remove ⟨actor, nextCounter⟩
        match inbox.frontier.advance next.dot with
        | .error err => some ({s with inbox}, delivery, some err)
        | .ok frontier =>
          drain actor n {s with inbox := {inbox with frontier}} {delivery with applied := delivery.applied ++ [next.dot]}

/-- `Receive`, with a bound for its loop that is never reached. -/
def receive (e : Env) (s : Receiver σ) (change : Change) : Option (Receiver σ × Delivery × Option Err) :=
  match change.validate e s.inbox.manifest with
  | .error err => some (s, {}, some err)
  | .ok () =>
    let dot := change.dot
    let current := s.inbox.frontier.counter dot.actor
    if dot.counter ≤ current then some (s, {duplicate := true}, none) else
    if dot.counter > current + 1 then
      let (inbox, delivery, err) := s.inbox.buffer change
      some ({s with inbox}, delivery, err)
    else if (s.inbox.pending.get dot.actor dot.counter).any (·.delta ≠ change.delta) then
      some (s, {}, some .dotConflict)
    else
      match s.call apply dot change.delta with
      | (false, s) => some (s, {}, some .apply)
      | (true, s) =>
        let inbox := s.inbox.remove dot
        match inbox.frontier.advance dot with
        | .error err => some ({s with inbox}, {}, some err)
        | .ok frontier =>
          drain apply dot.actor (s.inbox.pending.entries.length + 1) {s with inbox := {inbox with frontier}}
            {applied := [dot]}

/-- One change after the other, with what each call has returned. -/
def receiveAll (e : Env) : Receiver σ → List Change → Option (Receiver σ × List (Delivery × Option Err))
  | s, [] => some (s, [])
  | s, change :: rest => do
    let (s, res) ← s.receive apply e change
    let (s, results) ← receiveAll e s rest
    return (s, res :: results)

end Receiver

end Crdt.Replica
