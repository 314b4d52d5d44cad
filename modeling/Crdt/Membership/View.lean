import Crdt.Lib.Search
import Crdt.Lib.Uvarint
import Crdt.Tag

/-! Signed membership messages.

An authority signs the views of a group: its members, its epoch, and the hash of the view before.
Members sign heartbeats and receipts for the view that they are in. What is signed is a string of
bytes that begins with the name of the kind of message, and it exists only for a message that has
the right form. Signatures and hashes are those of an arbitrary `Crypto`. -/
namespace Crdt.Membership

inductive Err
  | invalidView
  | invalidSignature
  | viewRollback
  | viewFork
  | groupMismatch
  | missingView
  | invalidGossip
  | invalidReceipt
  /-- The error of the store. -/
  | store
  /-- The error of the coordinator. -/
  | coordinator
deriving DecidableEq, Repr

/-- `[sha256.Size]byte` -/
structure Hash where
  bytes : List UInt8
  size : bytes.length = 32
deriving DecidableEq

def Hash.zero : Hash := ⟨List.replicate 32 0, rfl⟩

def publicKeySize : Nat := 32

def privateKeySize : Nat := 64

def signatureSize : Nat := 64

/-- Ed25519 and SHA-256. -/
structure Crypto where
  /-- The signature of a message under a private key. -/
  sign : List UInt8 → List UInt8 → List UInt8
  /-- Whether a signature is one of the message under a public key. -/
  verify : List UInt8 → List UInt8 → List UInt8 → Bool
  /-- The public key of a private key. -/
  publicKey : List UInt8 → List UInt8
  sum256 : List UInt8 → Hash
  sign_length : ∀ key message, (sign key message).length = signatureSize

def maxMembers : Nat := 1024

def maxMemberIDSize : Nat := 256

def maxReceiptTags : Nat := 8192

def appendString (value : List UInt8) : List UInt8 := Uvarint.put (UInt64.ofNat value.length) ++ value

/-- The bytes of a domain. -/
def domain (name : String) : List UInt8 := name.toList.map fun c => UInt8.ofNat c.toNat

/-! ### Views -/

structure Member where
  id : List UInt8
  publicKey : List UInt8
  incarnation : UInt64
deriving DecidableEq, Repr

structure View where
  groupID : List UInt8
  epoch : UInt64
  previousHash : Hash
  manifestHash : Hash
  members : List Member
  signature : List UInt8 := []
deriving DecidableEq

/-- The loop of `View.validUnsigned`. -/
def validMembers : List UInt8 → List Member → Bool
  | _, [] => true
  | previous, member :: rest =>
    if blank member.id || member.id.length > maxMemberIDSize || compare member.id previous != .gt ||
        member.publicKey.length ≠ publicKeySize || member.incarnation = 0 then false
    else validMembers member.id rest

/-- What is appended for a member. -/
def Member.encode (m : Member) : List UInt8 := appendString m.id ++ m.publicKey ++ Uvarint.put m.incarnation

namespace View

def validUnsigned (v : View) : Bool :=
  if blank v.groupID || v.epoch = 0 || v.members.length = 0 || v.members.length > maxMembers ||
      v.manifestHash = .zero then false
  else validMembers [] v.members

/-- What is appended after the group. -/
def encode (v : View) : List UInt8 :=
  Uvarint.put v.epoch ++ v.previousHash.bytes ++ v.manifestHash.bytes ++
    Uvarint.put (UInt64.ofNat v.members.length) ++ v.members.flatMap Member.encode

def signingBytes (v : View) : Except Err (List UInt8) :=
  if !v.validUnsigned then .error .invalidView
  else .ok (appendString (domain "darkinno-tech/crdt/membership-view/v1") ++ appendString v.groupID ++ v.encode)

/-- `Hash` -/
def hash (e : Crypto) (v : View) : Hash :=
  match v.signingBytes with
  | .error _ => .zero
  | .ok payload => e.sum256 (payload ++ v.signature)

/-- `Member`, a binary search for the identifier. -/
def member (v : View) (id : List UInt8) : Option Member :=
  let index := Search.search v.members.length fun index => v.members[index]?.all fun m => compare m.id id != .lt
  v.members[index]?.filter (·.id = id)

theorem mem_of_member {v : View} {id : List UInt8} {m : Member} (h : v.member id = some m) : m ∈ v.members :=
  List.mem_of_getElem? (Option.filter_eq_some_iff.mp h).1

end View

variable (e : Crypto)

def signView (view : View) (privateKey : List UInt8) : Except Err View :=
  if privateKey.length ≠ privateKeySize || !view.validUnsigned then .error .invalidView
  else
    let view := {view with signature := []}
    match view.signingBytes with
    | .error err => .error err
    | .ok payload => .ok {view with signature := e.sign privateKey payload}

def verifyView (view : View) (authorityKey : List UInt8) : Except Err Unit :=
  if authorityKey.length ≠ publicKeySize || !view.validUnsigned || view.signature.length ≠ signatureSize then
    .error .invalidView
  else
    match view.signingBytes with
    | .error _ => .error .invalidSignature
    | .ok payload => if e.verify authorityKey payload view.signature then .ok () else .error .invalidSignature

/-! ### Heartbeats -/

structure GossipMessage where
  groupID : List UInt8
  epoch : UInt64
  viewHash : Hash
  sender : List UInt8
  incarnation : UInt64
  counter : UInt64
  signature : List UInt8 := []
deriving DecidableEq

namespace GossipMessage

variable (m : GossipMessage)

def validUnsigned : Bool :=
  !blank m.groupID && m.epoch ≠ 0 && m.viewHash ≠ .zero && !blank m.sender && m.incarnation ≠ 0 && m.counter ≠ 0

/-- What is appended after the group. -/
def encode : List UInt8 :=
  Uvarint.put m.epoch ++ m.viewHash.bytes ++ appendString m.sender ++ Uvarint.put m.incarnation ++
    Uvarint.put m.counter

def signingBytes : Except Err (List UInt8) :=
  if !m.validUnsigned then .error .invalidGossip
  else .ok (appendString (domain "darkinno-tech/crdt/membership-gossip/v1") ++ appendString m.groupID ++ m.encode)

end GossipMessage

def verifyGossip (message : GossipMessage) (publicKey : List UInt8) : Except Err Unit :=
  if publicKey.length ≠ publicKeySize || !message.validUnsigned || message.signature.length ≠ signatureSize then
    .error .invalidGossip
  else
    match message.signingBytes with
    | .error _ => .error .invalidGossip
    | .ok payload => if e.verify publicKey payload message.signature then .ok () else .error .invalidGossip

/-- The part of a gossip engine that signs, for a member of a view. -/
structure Gossip where
  view : View
  self : Member
  privateKey : List UInt8
  counter : UInt64 := 0
  valid : view.validUnsigned = true
  self_mem : self ∈ view.members

/-- `NewGossip`, without the failure detector. -/
def newGossip (view : View) (selfID privateKey : List UInt8) : Except Err Gossip :=
  if h : view.validUnsigned = true ∧ privateKey.length = privateKeySize then
    match hm : view.member selfID with
    | none => .error .invalidGossip
    | some self =>
      if e.publicKey privateKey = self.publicKey then
        .ok {view, self, privateKey, valid := h.1, self_mem := View.mem_of_member hm}
      else .error .invalidGossip
  else .error .invalidGossip

/-- `Heartbeat` -/
def Gossip.heartbeat (g : Gossip) : Gossip × Except Err GossipMessage :=
  let g := {g with counter := g.counter + 1}
  let message : GossipMessage :=
    { groupID := g.view.groupID
      epoch := g.view.epoch
      viewHash := g.view.hash e
      sender := g.self.id
      incarnation := g.self.incarnation
      counter := g.counter }
  match message.signingBytes with
  | .error err => (g, .error err)
  | .ok payload => (g, .ok {message with signature := e.sign g.privateKey payload})

/-! ### Receipts -/

structure Receipt where
  groupID : List UInt8
  epoch : UInt64
  viewHash : Hash
  memberID : List UInt8
  incarnation : UInt64
  sequence : UInt64
  checkpointID : Hash
  tags : List Tag
  signature : List UInt8 := []
deriving DecidableEq

/-- The loop of `Receipt.validUnsigned`, after a tag or from the start. -/
def validTags : Option Tag → List Tag → Bool
  | _, [] => true
  | previous, tag :: rest =>
    if !tag.valid || previous.any (fun previous => previous.compare tag != .lt) then false
    else validTags (some tag) rest

/-- What is appended for a tag. -/
def encodeTag (tag : Tag) : List UInt8 :=
  appendString tag.replicaID ++ Uvarint.put tag.wallTime ++ Uvarint.put tag.logical

namespace Receipt

def validUnsigned (r : Receipt) : Bool :=
  if blank r.groupID || r.epoch = 0 || blank r.memberID || r.incarnation = 0 || r.sequence = 0 ||
      r.viewHash = .zero || r.checkpointID = .zero || r.tags.length > maxReceiptTags then false
  else validTags none r.tags

/-- What is appended after the group. -/
def encode (r : Receipt) : List UInt8 :=
  Uvarint.put r.epoch ++ r.viewHash.bytes ++ appendString r.memberID ++ Uvarint.put r.incarnation ++
    Uvarint.put r.sequence ++ r.checkpointID.bytes ++ Uvarint.put (UInt64.ofNat r.tags.length) ++
    r.tags.flatMap encodeTag

def signingBytes (r : Receipt) : Except Err (List UInt8) :=
  if !r.validUnsigned then .error .invalidReceipt
  else .ok (appendString (domain "darkinno-tech/crdt/tombstone-receipt/v1") ++ appendString r.groupID ++ r.encode)

end Receipt

def signReceipt (receipt : Receipt) (privateKey : List UInt8) : Except Err Receipt :=
  if privateKey.length ≠ privateKeySize || !receipt.validUnsigned then .error .invalidReceipt
  else
    let receipt := {receipt with signature := []}
    match receipt.signingBytes with
    | .error err => .error err
    | .ok payload => .ok {receipt with signature := e.sign privateKey payload}

def verifyReceipt (receipt : Receipt) (publicKey : List UInt8) : Except Err Unit :=
  if publicKey.length ≠ publicKeySize || !receipt.validUnsigned || receipt.signature.length ≠ signatureSize then
    .error .invalidReceipt
  else
    match receipt.signingBytes with
    | .error _ => .error .invalidReceipt
    | .ok payload => if e.verify publicKey payload receipt.signature then .ok () else .error .invalidReceipt

end Crdt.Membership
