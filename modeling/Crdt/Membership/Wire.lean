import Crdt.Lib.Reader
import Crdt.Membership.View

/-! Signed membership messages on the wire.

A message is a version, the bytes of its fields and its signature. The readers of the three kinds of
message each undo their writer (`Reader.Inverts`), for the messages whose strings are short enough to
be read. A writer asks less of the strings than its reader does, and `signed_messages_survive` says
which messages that costs. -/
namespace Crdt.Membership

open Reader List Nat

def wireVersion : UInt8 := 1

def maxWireBytes : Nat := 1048576

/-! ### Writing -/

/-- `MarshalView` -/
def marshalView (view : View) : Except Err (List UInt8) :=
  if !view.validUnsigned || view.signature.length ≠ signatureSize then .error .invalidView
  else .ok (wireVersion :: (appendString view.groupID ++ view.encode ++ view.signature))

/-- `MarshalGossipMessage` -/
def marshalGossipMessage (message : GossipMessage) : Except Err (List UInt8) :=
  if !message.validUnsigned || message.signature.length ≠ signatureSize then .error .invalidGossip
  else .ok (wireVersion :: (appendString message.groupID ++ message.encode ++ message.signature))

/-- `MarshalReceipt` -/
def marshalReceipt (receipt : Receipt) : Except Err (List UInt8) :=
  if !receipt.validUnsigned || receipt.signature.length ≠ signatureSize || receipt.tags.length > maxReceiptTags then
    .error .invalidReceipt
  else
    let encoded := wireVersion :: (appendString receipt.groupID ++ receipt.encode ++ receipt.signature)
    if encoded.length > maxWireBytes then .error .invalidReceipt else .ok encoded

/-! ### Reading -/

abbrev WireReader := Reader UInt8 Err

def uvarint (err : Err) : WireReader UInt64 := fun rest => .ofOption (Uvarint.read rest) err

/-- The bytes of a hash, copied to an array. -/
def readHash (err : Err) : WireReader Hash := fun rest =>
  if h : 32 ≤ rest.length then .ok (⟨rest.take 32, length_take_of_le h⟩, rest.drop 32) else .error err

def string (max : Nat) (err : Err) : WireReader (List UInt8) := do
  let length ← uvarint err
  let rest ← remaining
  check (length.toNat ≤ max && length.toNat ≤ rest.length) err
  take length.toNat err

def readMember : WireReader Member := do
  let id ← string maxMemberIDSize .invalidView
  let publicKey ← take publicKeySize .invalidView
  let incarnation ← uvarint .invalidView
  return {id, publicKey, incarnation}

/-- What `UnmarshalView` reads after the version. -/
def readView : WireReader View := do
  let groupID ← string maxMemberIDSize .invalidView
  let epoch ← uvarint .invalidView
  let previousHash ← readHash .invalidView
  let manifestHash ← readHash .invalidView
  let memberCount ← uvarint .invalidView
  check (memberCount.toNat ≠ 0 && memberCount.toNat ≤ maxMembers) .invalidView
  let members ← many readMember memberCount.toNat
  let signature ← take signatureSize .invalidView
  return {groupID, epoch, previousHash, manifestHash, members, signature}

/-- What `UnmarshalGossipMessage` reads after the version. -/
def readGossipMessage : WireReader GossipMessage := do
  let groupID ← string maxMemberIDSize .invalidGossip
  let epoch ← uvarint .invalidGossip
  let viewHash ← readHash .invalidGossip
  let sender ← string maxMemberIDSize .invalidGossip
  let incarnation ← uvarint .invalidGossip
  let counter ← uvarint .invalidGossip
  let signature ← take signatureSize .invalidGossip
  return {groupID, epoch, viewHash, sender, incarnation, counter, signature}

def readTag : WireReader Tag := do
  let replicaID ← string maxMemberIDSize .invalidReceipt
  let wallTime ← uvarint .invalidReceipt
  let logical ← uvarint .invalidReceipt
  return {replicaID, wallTime, logical}

/-- What `UnmarshalReceipt` reads after the version. -/
def readReceipt : WireReader Receipt := do
  let groupID ← string maxMemberIDSize .invalidReceipt
  let epoch ← uvarint .invalidReceipt
  let viewHash ← readHash .invalidReceipt
  let memberID ← string maxMemberIDSize .invalidReceipt
  let incarnation ← uvarint .invalidReceipt
  let sequence ← uvarint .invalidReceipt
  let checkpointID ← readHash .invalidReceipt
  let tagCount ← uvarint .invalidReceipt
  check (tagCount.toNat ≤ maxReceiptTags) .invalidReceipt
  let tags ← many readTag tagCount.toNat
  let signature ← take signatureSize .invalidReceipt
  return {groupID, epoch, viewHash, memberID, incarnation, sequence, checkpointID, tags, signature}

/-- A message of the right version and form, with nothing after it. -/
def unmarshal {α : Type} (err : Err) (read : WireReader α) (valid : α → Bool) : List UInt8 → Checked Err α
  | [] => .error err
  | version :: body =>
    if body.length + 1 > maxWireBytes || version ≠ wireVersion then .error err
    else do
      let (message, rest) ← read body
      Checked.check (rest = [] && valid message) err
      return message

/-- `UnmarshalView` -/
def unmarshalView : List UInt8 → Checked Err View := unmarshal .invalidView readView View.validUnsigned

/-- `UnmarshalGossipMessage` -/
def unmarshalGossipMessage : List UInt8 → Checked Err GossipMessage :=
  unmarshal .invalidGossip readGossipMessage GossipMessage.validUnsigned

/-- `UnmarshalReceipt` -/
def unmarshalReceipt : List UInt8 → Checked Err Receipt :=
  unmarshal .invalidReceipt readReceipt Receipt.validUnsigned

/-! ### The fields -/

section Fields

variable {err : Err}

theorem inverts_uvarint : Inverts (uvarint err) Uvarint.put fun _ => True := by
  intro data x rest
  rw [uvarint, Checked.ofOption_eq_ok_iff, Uvarint.read_eq_some_iff, true_and]

theorem inverts_readHash : Inverts (readHash err) Hash.bytes fun _ => True := by
  intro data h rest
  have htake := Inverts.take 32 err data h.bytes rest
  rw [true_and, ← and_iff_right (a := h.bytes.length = 32) (b := data = h.bytes ++ rest) h.size]
  apply Iff.trans _ htake
  unfold readHash Reader.take
  split_ifs with hlen
  · rw [Checked.ok.injEq, Checked.ok.injEq, Prod.mk.injEq, Prod.mk.injEq, ← Hash.mk.injEq _ (length_take_of_le hlen) _ h.size]
  · exact iff_of_false nofun nofun

theorem inverts_string {max : Nat} (hmax : max < 2 ^ 64) :
    Inverts (string max err) appendString fun s => s.length ≤ max := by
  intro data s rest
  rw [string, inverts_uvarint.bind_eq_ok_iff]
  simp only [remaining_bind_apply, check_bind_eq_ok_iff, Inverts.take _ _ _ _ _, Bool.and_eq_true, decide_eq_true_eq,
    true_and, id_eq, appendString]
  constructor
  · intro ⟨length, left, hdata, ⟨hle, _⟩, hlen, hleft⟩
    rw [hdata, hleft, hlen, UInt64.ofNat_toNat, append_assoc]
    exact ⟨hle, rfl⟩
  intro ⟨hle, hdata⟩
  have hlength : (UInt64.ofNat s.length).toNat = s.length := UInt64.toNat_ofNat_of_lt' (hle.trans_lt hmax)
  rw [append_assoc] at hdata
  refine ⟨_, _, hdata, ?_, hlength.symm, rfl⟩
  rw [hlength, length_append]
  exact ⟨hle, le_add_right _ _⟩

theorem inverts_name : Inverts (string maxMemberIDSize err) appendString fun s => s.length ≤ maxMemberIDSize :=
  inverts_string (by decide)

end Fields

theorem inverts_readMember : Inverts readMember Member.encode fun m =>
    m.id.length ≤ maxMemberIDSize ∧ m.publicKey.length = publicKeySize := by
  intro data m rest
  simp only [readMember, inverts_name.bind_eq_ok_iff, (Inverts.take _ _).bind_eq_ok_iff,
    inverts_uvarint.bind_eq_ok_iff, pure_eq_ok_iff, id_eq, true_and]
  constructor
  · intro ⟨id, _, hid, hdata, publicKey, _, hkey, hleft, incarnation, _, hleft', hm, hrest⟩
    rw [← hm, hdata, hleft, hleft', hrest]
    exact ⟨⟨hid, hkey⟩, by simp only [Member.encode, append_assoc]⟩
  intro ⟨⟨hid, hkey⟩, hdata⟩
  simp only [Member.encode, append_assoc] at hdata
  exact ⟨m.id, _, hid, hdata, m.publicKey, _, hkey, rfl, m.incarnation, _, rfl, rfl, rfl⟩

theorem inverts_readTag : Inverts readTag encodeTag fun tag => tag.replicaID.length ≤ maxMemberIDSize := by
  intro data tag rest
  simp only [readTag, inverts_name.bind_eq_ok_iff, inverts_uvarint.bind_eq_ok_iff, pure_eq_ok_iff, true_and]
  constructor
  · intro ⟨replicaID, _, hid, hdata, wallTime, _, hleft, logical, _, hleft', htag, hrest⟩
    rw [← htag, hdata, hleft, hleft', hrest]
    exact ⟨hid, by simp only [encodeTag, append_assoc]⟩
  intro ⟨hid, hdata⟩
  simp only [encodeTag, append_assoc] at hdata
  exact ⟨tag.replicaID, _, hid, hdata, tag.wallTime, _, rfl, tag.logical, _, rfl, rfl, rfl⟩

/-! ### The messages -/

/-- What the reader of views asks of one. -/
structure View.Readable (v : View) : Prop where
  groupID : v.groupID.length ≤ maxMemberIDSize
  some : v.members.length ≠ 0
  many : v.members.length ≤ maxMembers
  members : ∀ m ∈ v.members, m.id.length ≤ maxMemberIDSize ∧ m.publicKey.length = publicKeySize
  signature : v.signature.length = signatureSize

theorem inverts_readView :
    Inverts readView (fun v => appendString v.groupID ++ v.encode ++ v.signature) View.Readable := by
  intro data v rest
  simp only [readView, inverts_name.bind_eq_ok_iff, inverts_uvarint.bind_eq_ok_iff, inverts_readHash.bind_eq_ok_iff,
    (inverts_readMember.many _).bind_eq_ok_iff, (Inverts.take _ _).bind_eq_ok_iff, check_bind_eq_ok_iff,
    pure_eq_ok_iff, id_eq, true_and, Bool.and_eq_true, decide_eq_true_eq]
  constructor
  · intro ⟨groupID, _, hgroup, h₁, epoch, _, h₂, previous, _, h₃, manifest, _, h₄, n, _, h₅, ⟨hsome, hmany⟩,
      members, _, ⟨hlen, hmembers⟩, h₆, signature, _, hsig, h₇, hv, hrest⟩
    rw [← hv, h₁, h₂, h₃, h₄, h₅, h₆, h₇, hrest]
    refine ⟨⟨hgroup, hlen ▸ hsome, hlen ▸ hmany, hmembers, hsig⟩, ?_⟩
    simp only [View.encode, hlen, UInt64.ofNat_toNat, append_assoc]
  intro ⟨hv, hdata⟩
  have hcount : (UInt64.ofNat v.members.length).toNat = v.members.length :=
    UInt64.toNat_ofNat_of_lt' (hv.many.trans_lt (by decide))
  simp only [View.encode, append_assoc] at hdata
  refine ⟨v.groupID, _, hv.groupID, hdata, v.epoch, _, rfl, v.previousHash, _, rfl, v.manifestHash, _, rfl, _, _, rfl, ?_,
    v.members, _, ⟨hcount.symm, hv.members⟩, rfl, v.signature, _, hv.signature, rfl, rfl, rfl⟩
  rw [hcount]
  exact ⟨hv.some, hv.many⟩

/-- What the reader of heartbeats asks of one. -/
structure GossipMessage.Readable (m : GossipMessage) : Prop where
  groupID : m.groupID.length ≤ maxMemberIDSize
  sender : m.sender.length ≤ maxMemberIDSize
  signature : m.signature.length = signatureSize

theorem inverts_readGossipMessage :
    Inverts readGossipMessage (fun m => appendString m.groupID ++ m.encode ++ m.signature) GossipMessage.Readable := by
  intro data m rest
  simp only [readGossipMessage, inverts_name.bind_eq_ok_iff, inverts_uvarint.bind_eq_ok_iff,
    inverts_readHash.bind_eq_ok_iff, (Inverts.take _ _).bind_eq_ok_iff, pure_eq_ok_iff, id_eq, true_and]
  constructor
  · intro ⟨groupID, _, hgroup, h₁, epoch, _, h₂, viewHash, _, h₃, sender, _, hsender, h₄, incarnation, _, h₅,
      counter, _, h₆, signature, _, hsig, h₇, hm, hrest⟩
    rw [← hm, h₁, h₂, h₃, h₄, h₅, h₆, h₇, hrest]
    refine ⟨⟨hgroup, hsender, hsig⟩, ?_⟩
    simp only [GossipMessage.encode, append_assoc]
  intro ⟨hm, hdata⟩
  simp only [GossipMessage.encode, append_assoc] at hdata
  exact ⟨m.groupID, _, hm.groupID, hdata, m.epoch, _, rfl, m.viewHash, _, rfl, m.sender, _, hm.sender, rfl,
    m.incarnation, _, rfl, m.counter, _, rfl, m.signature, _, hm.signature, rfl, rfl, rfl⟩

/-- What the reader of receipts asks of one. -/
structure Receipt.Readable (r : Receipt) : Prop where
  groupID : r.groupID.length ≤ maxMemberIDSize
  memberID : r.memberID.length ≤ maxMemberIDSize
  many : r.tags.length ≤ maxReceiptTags
  tags : ∀ tag ∈ r.tags, tag.replicaID.length ≤ maxMemberIDSize
  signature : r.signature.length = signatureSize

theorem inverts_readReceipt :
    Inverts readReceipt (fun r => appendString r.groupID ++ r.encode ++ r.signature) Receipt.Readable := by
  intro data r rest
  simp only [readReceipt, inverts_name.bind_eq_ok_iff, inverts_uvarint.bind_eq_ok_iff,
    inverts_readHash.bind_eq_ok_iff, (inverts_readTag.many _).bind_eq_ok_iff, (Inverts.take _ _).bind_eq_ok_iff,
    check_bind_eq_ok_iff, pure_eq_ok_iff, id_eq, true_and, decide_eq_true_eq]
  constructor
  · intro ⟨groupID, _, hgroup, h₁, epoch, _, h₂, viewHash, _, h₃, memberID, _, hmember, h₄, incarnation, _, h₅,
      sequence, _, h₆, checkpointID, _, h₇, n, _, h₈, hmany, tags, _, ⟨hlen, htags⟩, h₉, signature, _, hsig, h₁₀,
      hr, hrest⟩
    rw [← hr, h₁, h₂, h₃, h₄, h₅, h₆, h₇, h₈, h₉, h₁₀, hrest]
    refine ⟨⟨hgroup, hmember, hlen ▸ hmany, htags, hsig⟩, ?_⟩
    simp only [Receipt.encode, hlen, UInt64.ofNat_toNat, append_assoc]
  intro ⟨hr, hdata⟩
  have hcount : (UInt64.ofNat r.tags.length).toNat = r.tags.length :=
    UInt64.toNat_ofNat_of_lt' (hr.many.trans_lt (by decide))
  simp only [Receipt.encode, append_assoc] at hdata
  exact ⟨r.groupID, _, hr.groupID, hdata, r.epoch, _, rfl, r.viewHash, _, rfl, r.memberID, _, hr.memberID, rfl,
    r.incarnation, _, rfl, r.sequence, _, rfl, r.checkpointID, _, rfl, _, _, rfl, hcount.symm ▸ hr.many, r.tags, _,
    ⟨hcount.symm, hr.tags⟩, rfl, r.signature, _, hr.signature, rfl, rfl, rfl⟩

variable {data : List UInt8} {α : Type} {err : Err}

/-- The version, the size and the form around a reader that undoes a writer. -/
theorem unmarshal_eq_ok_iff {read : WireReader α} {valid : α → Bool} {write : α → List UInt8}
    {P : α → Prop} (h : Inverts read write P) {a : α} : unmarshal err read valid data = .ok a ↔
      P a ∧ valid a = true ∧ data = wireVersion :: write a ∧ data.length ≤ maxWireBytes := by
  cases data with
  | nil => exact iff_of_false nofun nofun
  | cons version body =>
    rw [unmarshal]
    split_ifs with hbad
    · refine iff_of_false nofun fun ⟨_, _, hdata, hsize⟩ => ?_
      rw [Bool.or_eq_true, decide_eq_true_eq, decide_eq_true_eq] at hbad
      exact hbad.elim (fun hbig => absurd hsize (Nat.not_le.mpr hbig)) fun hne => hne (List.cons.inj hdata).1
    rw [Bool.or_eq_true, decide_eq_true_eq, decide_eq_true_eq, not_or, not_not] at hbad
    rw [Checked.bind_eq_ok_iff]
    simp only [Checked.check_bind_eq_ok_iff, Checked.pure_eq, Checked.ok.injEq, Prod.exists, h _ _ _,
      Bool.and_eq_true, decide_eq_true_eq, hbad.2, List.cons.injEq, true_and]
    constructor
    · intro ⟨b, rest, ⟨hP, hbody⟩, ⟨hrest, hvalid⟩, hb⟩
      rw [hrest, append_nil] at hbody
      rw [← hb]
      exact ⟨hP, hvalid, hbody, Nat.not_lt.mp hbad.1⟩
    · intro ⟨hP, hvalid, hbody, _⟩
      exact ⟨a, [], ⟨hP, by rw [hbody, append_nil]⟩, ⟨rfl, hvalid⟩, rfl⟩

/-! ### What a valid message promises its reader -/

theorem of_validMembers {previous : List UInt8} {members : List Member} (h : validMembers previous members = true) :
    (∀ m ∈ members, m.id.length ≤ maxMemberIDSize ∧ m.publicKey.length = publicKeySize) ∧
      (∀ m ∈ members, blank m.id = false) ∧
      (previous :: members.map Member.id).Pairwise fun a b => compare a b = .lt := by
  induction members generalizing previous with
  | nil => exact ⟨nofun, nofun, pairwise_singleton ..⟩
  | cons m members ih =>
    rw [validMembers] at h
    split_ifs at h with hbad
    simp only [Bool.or_eq_true, decide_eq_true_eq, bne_iff_ne, not_or, not_not, not_lt, Bool.not_eq_true] at hbad
    obtain ⟨⟨⟨⟨hblank, hsize⟩, hgt⟩, hkey⟩, -⟩ := hbad
    have hlt : compare previous m.id = .lt := Std.OrientedCmp.gt_iff_lt.mp hgt
    obtain ⟨hsizes, hblanks, hsorted⟩ := ih h
    refine ⟨forall_mem_cons.mpr ⟨⟨hsize, hkey⟩, hsizes⟩, forall_mem_cons.mpr ⟨hblank, hblanks⟩,
      pairwise_cons.mpr ⟨forall_mem_cons.mpr ⟨hlt, fun id hid => ?_⟩, hsorted⟩⟩
    exact Std.TransCmp.lt_trans hlt ((pairwise_cons.mp hsorted).1 id hid)

variable {v : View}

theorem View.of_validUnsigned (h : v.validUnsigned = true) :
    v.members.length ≠ 0 ∧ v.members.length ≤ maxMembers ∧
      ∀ m ∈ v.members, m.id.length ≤ maxMemberIDSize ∧ m.publicKey.length = publicKeySize := by
  rw [validUnsigned] at h
  split_ifs at h with hbad
  simp only [Bool.or_eq_true, decide_eq_true_eq, not_or, not_lt] at hbad
  exact ⟨hbad.1.1.2, hbad.1.2, (of_validMembers h).1⟩

theorem View.ids_of_validUnsigned (h : v.validUnsigned = true) :
    (∀ m ∈ v.members, blank m.id = false) ∧ (v.members.map Member.id).Nodup := by
  rw [validUnsigned] at h
  split_ifs at h
  obtain ⟨-, hblanks, hsorted⟩ := of_validMembers h
  refine ⟨hblanks, (pairwise_cons.mp hsorted).2.imp fun hlt he => ?_⟩
  cases hlt.symm.trans (Std.LawfulEqCmp.compare_eq_iff_eq.mpr he)

variable {r : Receipt}

theorem Receipt.tags_of_validUnsigned (h : r.validUnsigned = true) : r.tags.length ≤ maxReceiptTags := by
  rw [validUnsigned] at h
  split_ifs at h with hbad
  simp only [Bool.or_eq_true, decide_eq_true_eq, not_or, not_lt] at hbad
  exact hbad.2

theorem length_appendString_le (s : List UInt8) : (appendString s).length ≤ 10 + s.length := by
  rw [appendString, length_append]
  exact Nat.add_le_add_right (Uvarint.size_le _) _

theorem length_put_le (x : UInt64) : (Uvarint.put x).length ≤ 10 := Uvarint.size_le x

theorem View.Readable.size_le (h : v.Readable) :
    (wireVersion :: (appendString v.groupID ++ v.encode ++ v.signature)).length ≤ maxWireBytes := by
  have hmember : ∀ m ∈ v.members, m.encode.length ≤ 308 := by
    intro m hm
    have hid := length_appendString_le m.id
    have hinc := length_put_le m.incarnation
    obtain ⟨hlen, hkey⟩ := h.members m hm
    rw [maxMemberIDSize] at hlen
    rw [publicKeySize] at hkey
    rw [Member.encode, length_append, length_append]
    omega
  have hmembers : (v.members.flatMap Member.encode).length ≤ 1024 * 308 := by
    rw [length_flatMap]
    calc (v.members.map fun m => m.encode.length).sum
        ≤ (v.members.map fun m => m.encode.length).length • 308 :=
          sum_le_card_nsmul _ _ (forall_mem_map.mpr hmember)
      _ ≤ 1024 * 308 := by
        rw [length_map]
        exact mul_le_mul_right _ h.many
  have hgroup := length_appendString_le v.groupID
  have hgroup' := h.groupID
  have hepoch := length_put_le v.epoch
  have hcount := length_put_le (UInt64.ofNat v.members.length)
  have hsig := h.signature
  rw [maxMemberIDSize] at hgroup'
  rw [signatureSize] at hsig
  simp only [length_cons, length_append, View.encode, v.previousHash.size, v.manifestHash.size, maxWireBytes]
  omega

variable {m : GossipMessage}

theorem GossipMessage.Readable.size_le (h : m.Readable) :
    (wireVersion :: (appendString m.groupID ++ m.encode ++ m.signature)).length ≤ maxWireBytes := by
  have hgroup := length_appendString_le m.groupID
  have hgroup' := h.groupID
  have hsender := length_appendString_le m.sender
  have hsender' := h.sender
  have hepoch := length_put_le m.epoch
  have hinc := length_put_le m.incarnation
  have hcounter := length_put_le m.counter
  have hsig := h.signature
  rw [maxMemberIDSize] at hgroup' hsender'
  rw [signatureSize] at hsig
  simp only [length_cons, length_append, GossipMessage.encode, m.viewHash.size, maxWireBytes]
  omega

/-! ### Over the wire and back -/

theorem written_iff {valid : Bool} {size : Nat} {result : Except Err (List UInt8)} :
    (if !valid || size ≠ signatureSize then .error err else result) = .ok data ↔
      valid = true ∧ size = signatureSize ∧ result = .ok data := by
  cases valid with
  | false => exact iff_of_false nofun nofun
  | true =>
    by_cases hsize : size = signatureSize
    · simp [hsize]
    · simp [hsize]

theorem marshalView_eq_ok_iff :
    marshalView v = .ok data ↔ v.validUnsigned = true ∧ v.signature.length = signatureSize ∧
      data = wireVersion :: (appendString v.groupID ++ v.encode ++ v.signature) := by
  rw [marshalView, written_iff, Except.ok.injEq, eq_comm (b := data)]

theorem marshalGossipMessage_eq_ok_iff :
    marshalGossipMessage m = .ok data ↔ m.validUnsigned = true ∧ m.signature.length = signatureSize ∧
      data = wireVersion :: (appendString m.groupID ++ m.encode ++ m.signature) := by
  rw [marshalGossipMessage, written_iff, Except.ok.injEq, eq_comm (b := data)]

theorem marshalReceipt_eq_ok_iff :
    marshalReceipt r = .ok data ↔ r.validUnsigned = true ∧ r.signature.length = signatureSize ∧
      data = wireVersion :: (appendString r.groupID ++ r.encode ++ r.signature) ∧ data.length ≤ maxWireBytes := by
  constructor
  · intro h
    rw [marshalReceipt] at h
    dsimp only at h
    split_ifs at h with hbad hbig
    cases h
    simp only [Bool.or_eq_true, Bool.not_eq_true', decide_eq_true_eq, not_or, not_not, Bool.not_eq_false] at hbad
    exact ⟨hbad.1.1, hbad.1.2, rfl, Nat.not_lt.mp hbig⟩
  intro ⟨hvalid, hsig, hdata, hsize⟩
  have htags := Receipt.tags_of_validUnsigned hvalid
  rw [marshalReceipt, if_neg (by simp [hvalid, hsig, htags]), ← hdata]
  exact if_neg (Nat.not_lt.mpr hsize)

theorem unmarshalView_eq_ok_iff : unmarshalView data = .ok v ↔ v.Readable ∧ v.validUnsigned = true ∧
      data = wireVersion :: (appendString v.groupID ++ v.encode ++ v.signature) ∧ data.length ≤ maxWireBytes :=
  unmarshal_eq_ok_iff inverts_readView

theorem unmarshalGossipMessage_eq_ok_iff :
    unmarshalGossipMessage data = .ok m ↔ m.Readable ∧ m.validUnsigned = true ∧
      data = wireVersion :: (appendString m.groupID ++ m.encode ++ m.signature) ∧ data.length ≤ maxWireBytes :=
  unmarshal_eq_ok_iff inverts_readGossipMessage

theorem unmarshalReceipt_eq_ok_iff : unmarshalReceipt data = .ok r ↔ r.Readable ∧ r.validUnsigned = true ∧
      data = wireVersion :: (appendString r.groupID ++ r.encode ++ r.signature) ∧ data.length ≤ maxWireBytes :=
  unmarshal_eq_ok_iff inverts_readReceipt

theorem unmarshalView_marshalView (h : marshalView v = .ok data) :
    unmarshalView data = .ok v ↔ v.groupID.length ≤ maxMemberIDSize := by
  obtain ⟨hvalid, hsig, hdata⟩ := marshalView_eq_ok_iff.mp h
  obtain ⟨hsome, hmany, hmembers⟩ := View.of_validUnsigned hvalid
  rw [unmarshalView_eq_ok_iff]
  constructor
  · intro ⟨hread, _⟩
    exact hread.groupID
  intro hgroup
  have hread : v.Readable := ⟨hgroup, hsome, hmany, hmembers, hsig⟩
  exact ⟨hread, hvalid, hdata, hdata ▸ hread.size_le⟩

theorem unmarshalGossipMessage_marshalGossipMessage
    (h : marshalGossipMessage m = .ok data) (hsender : m.sender.length ≤ maxMemberIDSize) :
    unmarshalGossipMessage data = .ok m ↔ m.groupID.length ≤ maxMemberIDSize := by
  obtain ⟨hvalid, hsig, hdata⟩ := marshalGossipMessage_eq_ok_iff.mp h
  rw [unmarshalGossipMessage_eq_ok_iff]
  constructor
  · intro ⟨hread, _⟩
    exact hread.groupID
  intro hgroup
  have hread : m.Readable := ⟨hgroup, hsender, hsig⟩
  exact ⟨hread, hvalid, hdata, hdata ▸ hread.size_le⟩

theorem unmarshalReceipt_marshalReceipt (h : marshalReceipt r = .ok data) :
    unmarshalReceipt data = .ok r ↔ r.groupID.length ≤ maxMemberIDSize ∧ r.memberID.length ≤ maxMemberIDSize ∧
      ∀ tag ∈ r.tags, tag.replicaID.length ≤ maxMemberIDSize := by
  obtain ⟨hvalid, hsig, hdata, hsize⟩ := marshalReceipt_eq_ok_iff.mp h
  rw [unmarshalReceipt_eq_ok_iff]
  constructor
  · intro ⟨hread, _⟩
    exact ⟨hread.groupID, hread.memberID, hread.tags⟩
  · intro ⟨hgroup, hmember, htags⟩
    exact ⟨⟨hgroup, hmember, Receipt.tags_of_validUnsigned hvalid, htags, hsig⟩, hvalid, hdata, hsize⟩

variable {e : Crypto} {key : List UInt8}

theorem signView_eq {view : View} (h : signView e view key = .ok v) :
    ∃ signature, v = {view with signature} := by
  rw [signView] at h
  dsimp only at h
  split_ifs at h
  split at h <;> cases h
  exact ⟨_, rfl⟩

theorem signReceipt_eq {receipt : Receipt} (h : signReceipt e receipt key = .ok r) :
    ∃ signature, r = {receipt with signature} := by
  rw [signReceipt] at h
  dsimp only at h
  split_ifs at h
  split at h <;> cases h
  exact ⟨_, rfl⟩

theorem Gossip.heartbeat_eq {g : Gossip} (h : (g.heartbeat e).2 = .ok m) :
    m.groupID = g.view.groupID ∧ m.sender = g.self.id := by
  rw [heartbeat] at h
  split at h <;> cases h
  exact ⟨rfl, rfl⟩

/-- What is read is the message, with its bytes to sign and its verification under any key. -/
def Survives {α : Type} (received : Checked Err α) (signingBytes : α → Except Err (List UInt8))
    (verify : α → List UInt8 → Except Err Unit) (message : α) : Prop :=
  ∃ read, received = .ok read ∧ read = message ∧ signingBytes read = signingBytes message ∧
    ∀ key, verify read key = verify message key

theorem survives_iff {received : Checked Err α} {signingBytes : α → Except Err (List UInt8)}
    {verify : α → List UInt8 → Except Err Unit} {message : α} :
    Survives received signingBytes verify message ↔ received = .ok message := by
  constructor
  · intro ⟨read, hread, heq, _⟩
    rw [hread, heq]
  · intro h
    exact ⟨message, h, rfl, rfl, fun _ => rfl⟩

/-- A signed message survives the wire exactly if its names have 256 bytes at most, and what is read
at all is written again as it was. -/
theorem signed_messages_survive (e : Crypto) (view v : View) (g : Gossip) (m : GossipMessage) (receipt r : Receipt)
    (key data : List UInt8) : (signView e view key = .ok v → marshalView v = .ok data →
      (Survives (unmarshalView data) View.signingBytes (verifyView e) v ↔ view.groupID.length ≤ maxMemberIDSize)) ∧
    ((g.heartbeat e).2 = .ok m → marshalGossipMessage m = .ok data →
      (Survives (unmarshalGossipMessage data) GossipMessage.signingBytes (verifyGossip e) m ↔
        g.view.groupID.length ≤ maxMemberIDSize)) ∧
    (signReceipt e receipt key = .ok r → marshalReceipt r = .ok data →
      (Survives (unmarshalReceipt data) Receipt.signingBytes (verifyReceipt e) r ↔
        receipt.groupID.length ≤ maxMemberIDSize ∧ receipt.memberID.length ≤ maxMemberIDSize ∧
          ∀ tag ∈ receipt.tags, tag.replicaID.length ≤ maxMemberIDSize)) ∧
    (unmarshalView data = .ok v → marshalView v = .ok data) ∧
    (unmarshalGossipMessage data = .ok m → marshalGossipMessage m = .ok data) ∧
    (unmarshalReceipt data = .ok r → marshalReceipt r = .ok data) := by
  refine ⟨?_, ?_, ?_, ?_, ?_, ?_⟩
  · intro hsign hdata
    obtain ⟨signature, rfl⟩ := signView_eq hsign
    rw [survives_iff, unmarshalView_marshalView hdata]
  · intro hbeat hdata
    obtain ⟨hgroup, hsender⟩ := Gossip.heartbeat_eq hbeat
    have hself := ((View.of_validUnsigned g.valid).2.2 g.self g.self_mem).1
    rw [survives_iff, unmarshalGossipMessage_marshalGossipMessage hdata (hsender ▸ hself), hgroup]
  · intro hsign hdata
    obtain ⟨signature, rfl⟩ := signReceipt_eq hsign
    rw [survives_iff, unmarshalReceipt_marshalReceipt hdata]
  · intro h
    obtain ⟨hread, hvalid, hdata, _⟩ := unmarshalView_eq_ok_iff.mp h
    exact marshalView_eq_ok_iff.mpr ⟨hvalid, hread.signature, hdata⟩
  · intro h
    obtain ⟨hread, hvalid, hdata, _⟩ := unmarshalGossipMessage_eq_ok_iff.mp h
    exact marshalGossipMessage_eq_ok_iff.mpr ⟨hvalid, hread.signature, hdata⟩
  intro h
  obtain ⟨hread, hvalid, hdata, hsize⟩ := unmarshalReceipt_eq_ok_iff.mp h
  exact marshalReceipt_eq_ok_iff.mpr ⟨hvalid, hread.signature, hdata, hsize⟩

/-- Ed25519 and SHA-256 of a test: one signature, one key and one hash. -/
def constantCrypto : Crypto where
  sign _ _ := replicate 64 7
  verify _ _ _ := true
  publicKey _ := replicate 32 1
  sum256 _ := ⟨replicate 32 9, rfl⟩
  sign_length _ _ := rfl

/-- The first view of a group with one member. -/
def soleView (groupID : List UInt8) : View where
  groupID
  epoch := 1
  previousHash := .zero
  manifestHash := ⟨replicate 32 5, rfl⟩
  members := [⟨[97], replicate 32 1, 1⟩]

def soleReceipt (groupID : List UInt8) : Receipt where
  groupID
  epoch := 1
  viewHash := ⟨replicate 32 9, rfl⟩
  memberID := [97]
  incarnation := 1
  sequence := 1
  checkpointID := ⟨replicate 32 3, rfl⟩
  tags := [⟨[97], 2, 1⟩]

def soleGossip (groupID : List UInt8) (h : (soleView groupID).validUnsigned = true) : Gossip where
  view := soleView groupID
  self := ⟨[97], replicate 32 1, 1⟩
  privateKey := replicate 64 2
  valid := h
  self_mem := mem_singleton_self _

/-- The messages of a group with a short name. -/
theorem signed_messages_survive_short :
    ∃ (view v : View) (g : Gossip) (m : GossipMessage) (receipt r : Receipt) (viewData gossipData receiptData : List UInt8),
      signView constantCrypto view (replicate 64 2) = .ok v ∧ marshalView v = .ok viewData ∧
      Survives (unmarshalView viewData) View.signingBytes (verifyView constantCrypto) v ∧
      (g.heartbeat constantCrypto).2 = .ok m ∧ marshalGossipMessage m = .ok gossipData ∧
      Survives (unmarshalGossipMessage gossipData) GossipMessage.signingBytes (verifyGossip constantCrypto) m ∧
      signReceipt constantCrypto receipt (replicate 64 2) = .ok r ∧ marshalReceipt r = .ok receiptData ∧
      Survives (unmarshalReceipt receiptData) Receipt.signingBytes (verifyReceipt constantCrypto) r := by
  let v : View := {soleView [103] with signature := replicate 64 7}
  let g : Gossip := soleGossip [103] (by decide)
  let m : GossipMessage :=
    { groupID := [103], epoch := 1, viewHash := ⟨replicate 32 9, rfl⟩, sender := [97], incarnation := 1
      counter := 1, signature := replicate 64 7 }
  let r : Receipt := {soleReceipt [103] with signature := replicate 64 7}
  have all := signed_messages_survive constantCrypto (soleView [103]) v g m (soleReceipt [103]) r (replicate 64 2)
  refine ⟨soleView [103], v, g, m, soleReceipt [103], r, _, _, _, rfl, rfl, ?_, rfl, rfl, ?_, rfl, rfl, ?_⟩
  · exact ((all _).1 rfl rfl).mpr (by decide)
  · exact ((all _).2.1 rfl rfl).mpr (by decide)
  · exact ((all _).2.2.1 rfl rfl).mpr (by decide)

/-- A view of a group with a name of 257 bytes is signed, written and refused. -/
theorem long_group_lost :
    ∃ v data, signView constantCrypto (soleView (replicate 257 103)) (replicate 64 2) = .ok v ∧
      marshalView v = .ok data ∧ unmarshalView data = .error .invalidView := by
  refine ⟨{soleView (replicate 257 103) with signature := replicate 64 7}, _, rfl, rfl, ?_⟩
  decide +kernel

end Crdt.Membership
