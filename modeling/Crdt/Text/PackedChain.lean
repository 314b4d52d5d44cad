import Crdt.Lib.Bitmap
import Crdt.Lib.Utf8
import Crdt.Text.RunWire

/-! Dense chains.

The identifiers of a chain that one replica wrote follow from the first: each has the next logical
time, or a later wall time and no logical time. A dense chain has one bit for each node after the
first, the gaps of the wall times where the bit is set, and the letters in UTF-8. An addition or a
subtraction that wraps breaks the computation, and so does a bit that is out of range.

`dense_chain` says what the encoder finds in a chain that is dense. -/
namespace Crdt.Text

open Rga Wire Checked Reader List Bitmap Payload Std.ExtTreeMap Nat Bool
open Wire.Payload (readUvarint readBytes readTag require)

def maxUint64 : UInt64 := 0xFFFFFFFFFFFFFFFF

/-- A sum of two `uint64`s. -/
def addUint64 (a b : UInt64) : Checked Wire.Err UInt64 :=
  if a.toNat + b.toNat < 2 ^ 64 then .ok (a + b) else .broken

def subUint64 (a b : UInt64) : Checked Wire.Err UInt64 :=
  if b.toNat ≤ a.toNat then .ok (a - b) else .broken

def setPackedTransition (transitions : List UInt8) (index : Nat) : Checked Wire.Err (List UInt8) :=
  unbroken (set transitions index)

def packedTransition (transitions : List UInt8) (index : Nat) : Checked Wire.Err Bool :=
  unbroken (Bitmap.get transitions index)

def packedTransitionLength (n : IntSize) (count : Nat) : Option Nat :=
  if count < 2 || count > n.max then none else some ((count - 2) / 8 + 1)

/-! ### The encoder -/

structure PackedRunChain where
  transitions : List UInt8 := []
  text : List UInt8 := []
deriving DecidableEq, Repr

/-- The next identifier of a dense chain. -/
def continuesDense (previous id : Position) : Checked Wire.Err Bool := do
  if id.wallTime = previous.wallTime && previous.logical ≠ maxUint64 then
    return id.logical = (← addUint64 previous.logical 1)
  else return previous.wallTime < id.wallTime && id.logical = 0

/-- The first loop of `makePackedRunChain`, behind the first node. -/
def denseFrom : Position → List RunNode → Checked Wire.Err Bool
  | _, [] => return true
  | previous, x :: rest => do
    if !validRune x.item.value then return false
    if !(← continuesDense previous x.id) then return false
    denseFrom x.id rest

section
variable (transitions : List UInt8)

/-- The bit of a node that comes after `previous`. -/
def markTransition (index : Nat) (previous id : Position) : Checked Wire.Err (List UInt8) :=
  if previous.wallTime < id.wallTime then setPackedTransition transitions index else return transitions

/-- The second loop of `makePackedRunChain`, behind the first node. -/
def markTransitions : Nat → Position → List RunNode → List UInt8 → Checked Wire.Err (List UInt8)
  | _, _, [], transitions => return transitions
  | index, previous, x :: rest, transitions => do
    let transitions ← markTransition transitions index previous x.id
    markTransitions (index + 1) x.id rest transitions

/-- Both loops of `makePackedRunChain`. -/
def packDense (transitionLength : Nat) (first : RunNode) (rest : List RunNode) :
    Checked Wire.Err (Option PackedRunChain) := do
  if !validRune first.item.value then return none
  if !(← denseFrom first.id rest) then return none
  let transitions ← markTransitions 0 first.id rest (replicate transitionLength 0)
  return some ⟨transitions, (first :: rest).flatMap fun x => Utf8.encode x.item.value⟩

def makePackedRunChain (n : IntSize) : List RunNode → Checked Wire.Err (Option PackedRunChain)
  | [] => return none
  | [_] => return none
  | first :: rest =>
    match packedTransitionLength n (first :: rest).length with
    | none => return none
    | some transitionLength => packDense transitionLength first rest

def packedWallGap (nodes : List RunNode) (index : Nat) : Checked Wire.Err (Option UInt64) := do
  if index = 0 || index ≥ nodes.length then return none
  let previous ← unbroken nodes[index - 1]?
  let current ← unbroken nodes[index]?
  if current.id.wallTime ≤ previous.id.wallTime then return none
  return some (← subUint64 current.id.wallTime previous.id.wallTime)

/-- The gap before a node, if its bit is set. -/
def addGap (nodes : List RunNode) (gaps : List UInt64) (index : Nat) : Checked Wire.Err (List UInt64) := do
  if !(← packedTransition transitions (index - 1)) then return gaps
  let gap ← ofOption (← packedWallGap nodes index) .invalidFrame
  return gaps ++ [gap]

/-- The gaps for which the size is taken and which are written. -/
def packedGaps (nodes : List RunNode) : Checked Wire.Err (List UInt64) :=
  (range' 1 (nodes.length - 1)).foldlM (addGap transitions nodes) []

end

/-! ### The decoder -/

def unusedPackedTransitionBitsSet (transitions : List UInt8) (count : Nat) : Checked Wire.Err Bool := do
  let used := (count - 1) % 8
  if used = 0 then return false
  return spare used (← unbroken transitions[transitions.length - 1]?)

def readTransitions (n : IntSize) (transitionLength count : Nat) : PayloadReader (List UInt8) := do
  let transitions ← readBytes n transitionLength
  require (transitions.length = transitionLength)
  let unused ← step (unusedPackedTransitionBitsSet transitions count)
  require !unused
  return transitions

/-- One round of the loop over the gaps. -/
def readGap (transitions : List UInt8) (s : Nat × UInt64 × List UInt64) :
    PayloadReader (Nat × UInt64 × List UInt64) := do
  let (index, wallTime, gaps) := s
  if !(← step (packedTransition transitions index)) then return (index + 1, wallTime, gaps)
  let gap ← readUvarint
  require (gap ≠ 0)
  let room ← step (subUint64 maxUint64 gap)
  require (wallTime ≤ room)
  let wallTime ← step (addUint64 wallTime gap)
  return (index + 1, wallTime, gaps ++ [gap])

def densePackedStart (n : IntSize) (transitionLength : Nat) : PayloadReader (UInt64 × UInt64) := do
  let wallTime ← readUvarint
  let logical ← readUvarint
  let _ ← readBytes n transitionLength
  return (wallTime, logical)

/-- A dense chain as its nodes are placed: how many are, the time of the last one, and the gaps that
are left. -/
structure Dense where
  itemIndex : Nat := 0
  wallTime : UInt64
  logical : UInt64
  gaps : List UInt64
  parent : Position
  nodes : TagMap (Node Rune)

/-- The time of the next node. -/
def Dense.advance (transitions : List UInt8) (s : Dense) : Checked Wire.Err Dense := do
  if ← packedTransition transitions (s.itemIndex - 1) then
    match s.gaps with
    | [] => .error .invalidFrame
    | gap :: gaps =>
      let room ← subUint64 maxUint64 gap
      check (s.wallTime ≤ room) .invalidFrame
      let wallTime ← addUint64 s.wallTime gap
      return {s with wallTime, logical := 0, gaps}
  else
    check (s.logical ≠ maxUint64) .invalidFrame
    let logical ← addUint64 s.logical 1
    return {s with logical}

/-- One round of the loop over the letters. -/
def Dense.place (replicaID transitions : List UInt8) (s : Dense) (scalar : Rune) : Checked Wire.Err Dense := do
  let s ← if s.itemIndex > 0 then s.advance transitions else pure s
  let id : Position := ⟨replicaID, s.wallTime, s.logical⟩
  check (!s.nodes.contains id) .invalidFrame
  return {s with itemIndex := s.itemIndex + 1, parent := id, nodes := s.nodes.insert id ⟨s.parent, scalar⟩}

def decodeDensePackedRunChain (n : IntSize) (limits : Limits) (count : Nat) (replicaID : List UInt8)
    (parent : Position) (nodes : TagMap (Node Rune)) : PayloadReader (TagMap (Node Rune)) := do
  let position ← remaining
  let wallTime ← readUvarint
  let _ ← readUvarint
  let transitionLength ← step (ofOption (packedTransitionLength n count) .invalidFrame)
  let transitions ← readTransitions n transitionLength count
  let (_, _, gaps) ← times (readGap transitions) (count - 1) (0, wallTime, [])
  let text ← readBytes n limits.maxPayload
  require (Utf8.valid text && Utf8.runeCount text = count)
  -- The start is read once more from where the chain begins.
  let ((wallTime, logical), _) ← step (densePackedStart n transitionLength position)
  let s ← step ((Utf8.runes text).foldlM (Dense.place replicaID transitions)
    {wallTime, logical, gaps, parent, nodes})
  require (s.gaps = [])
  return s.nodes

/-! ### Arithmetic -/

variable {a b : UInt64}

theorem addUint64_eq_ok (h : a.toNat + b.toNat < 2 ^ 64) : addUint64 a b = .ok (a + b) := if_pos h

theorem subUint64_eq_ok (h : b.toNat ≤ a.toNat) : subUint64 a b = .ok (a - b) := if_pos h

theorem toNat_le_maxUint64 (a : UInt64) : a.toNat ≤ maxUint64.toNat := by
  have := a.toNat_lt
  have hmax : maxUint64.toNat = 2 ^ 64 - 1 := by decide
  omega

/-- The sum of what was compared with the room that is left. -/
theorem addUint64_of_room (h : a ≤ maxUint64 - b) : addUint64 a b = .ok (a + b) := by
  refine addUint64_eq_ok ?_
  have hmax : maxUint64.toNat = 2 ^ 64 - 1 := by decide
  have hle := UInt64.le_iff_toNat_le.mp h
  rw [UInt64.toNat_sub_of_le _ _ (UInt64.le_iff_toNat_le.mpr (toNat_le_maxUint64 b))] at hle
  have := b.toNat_lt
  omega

theorem addUint64_one (h : a ≠ maxUint64) : addUint64 a 1 = .ok (a + 1) := by
  refine addUint64_eq_ok ?_
  have hmax : maxUint64.toNat = 2 ^ 64 - 1 := by decide
  have hne : a.toNat ≠ maxUint64.toNat := fun he => h (UInt64.toNat_inj.mp he)
  have := a.toNat_lt
  have hone : (1 : UInt64).toNat = 1 := rfl
  omega

/-! ### What the encoder finds -/

/-- The identifier that follows, at the same wall time or at a later one. -/
def Succeeds (previous id : Position) : Prop :=
  (id.wallTime = previous.wallTime ∧ previous.logical ≠ maxUint64 ∧ id.logical = previous.logical + 1) ∨
    (previous.wallTime < id.wallTime ∧ id.logical = 0)

/-- Letters with identifiers that follow each other. -/
def DenseFrom : Position → List RunNode → Prop
  | _, [] => True
  | previous, x :: rest => validRune x.item.value = true ∧ Succeeds previous x.id ∧ DenseFrom x.id rest

/-- The bits of the nodes after `previous`, from `index` on. -/
def Marks (transitions : List UInt8) : Nat → Position → List RunNode → Prop
  | _, _, [] => True
  | index, previous, x :: rest =>
    Bitmap.get transitions index = some (decide (previous.wallTime < x.id.wallTime)) ∧
      Marks transitions (index + 1) x.id rest

/-- The gaps before the nodes after `previous`. -/
def gapsFrom : Position → List RunNode → List UInt64
  | _, [] => []
  | previous, x :: rest =>
    if previous.wallTime < x.id.wallTime then (x.id.wallTime - previous.wallTime) :: gapsFrom x.id rest
    else gapsFrom x.id rest

variable {n : IntSize} {limits : Limits} {transitions : List UInt8} {previous : Position}
  {x first : RunNode}
  {rest : List RunNode} {index : Nat} {nodes before : List RunNode} {count : Nat}

theorem continuesDense_spec (previous id : Position) :
    ∃ c, continuesDense previous id = .ok c ∧ (c = true → Succeeds previous id) := by
  unfold continuesDense
  split_ifs with h
  · obtain ⟨hwall, hlogical⟩ : id.wallTime = previous.wallTime ∧ previous.logical ≠ maxUint64 := by simpa using h
    rw [addUint64_one hlogical]
    exact ⟨_, rfl, fun hc => .inl ⟨hwall, hlogical, of_decide_eq_true hc⟩⟩
  · exact ⟨_, rfl, fun hc => .inr (by simpa using hc)⟩

theorem denseFrom_spec (previous : Position) (rest : List RunNode) :
    ∃ c, denseFrom previous rest = .ok c ∧ (c = true → DenseFrom previous rest) := by
  induction rest generalizing previous with
  | nil => exact ⟨true, rfl, fun _ => trivial⟩
  | cons x rest ih =>
    unfold denseFrom
    cases hv : validRune x.item.value with
    | false => exact ⟨false, rfl, nofun⟩
    | true =>
      obtain ⟨c, hc, hsucceeds⟩ := continuesDense_spec previous x.id
      obtain ⟨c', hc', hrest⟩ := ih x.id
      cases c with
      | false => exact ⟨false, by simp [hc], nofun⟩
      | true => exact ⟨c', by simp [hc, hc'], fun h => ⟨hv, hsucceeds rfl, hrest h⟩⟩

theorem markTransition_spec (previous id : Position) (hlt : index / 8 < transitions.length)
    (hclear : Bitmap.get transitions index = some false) :
    ∃ marked, markTransition transitions index previous id = .ok marked ∧ marked.length = transitions.length ∧
      ∀ j, Bitmap.get marked j =
        if index = j then some (decide (previous.wallTime < id.wallTime)) else Bitmap.get transitions j := by
  unfold markTransition
  by_cases hw : previous.wallTime < id.wallTime
  · obtain ⟨marked, hset⟩ := set_of_lt hlt
    refine ⟨marked, by rw [if_pos hw, setPackedTransition, hset, unbroken_some], length_set hset, fun j => ?_⟩
    rw [get_set hset, decide_eq_true hw]
  refine ⟨transitions, if_neg hw, rfl, fun j => ?_⟩
  split_ifs with hj
  · rw [← hj, hclear, decide_eq_false hw]
  · rfl

theorem markTransitions_spec (previous : Position) (rest : List RunNode)
    (hroom : index + rest.length ≤ 8 * transitions.length)
    (hclear : ∀ j, index ≤ j → j / 8 < transitions.length → Bitmap.get transitions j = some false) :
    ∃ marked, markTransitions index previous rest transitions = .ok marked ∧
      marked.length = transitions.length ∧ Marks marked index previous rest ∧
      (∀ j < index, Bitmap.get marked j = Bitmap.get transitions j) ∧
      ∀ j, index + rest.length ≤ j → j / 8 < transitions.length → Bitmap.get marked j = some false := by
  induction rest generalizing index previous transitions with
  | nil => exact ⟨transitions, rfl, rfl, trivial, fun _ _ => rfl, hclear⟩
  | cons x rest ih =>
    rw [length_cons] at hroom
    have hlt : index / 8 < transitions.length := by omega
    obtain ⟨one, hone, hlength, hget⟩ := markTransition_spec previous x.id hlt (hclear index le_rfl hlt)
    have hclear' : ∀ j, index + 1 ≤ j → j / 8 < one.length → Bitmap.get one j = some false := fun j hj hjlt => by
      rw [hget, if_neg (by omega)]
      exact hclear j (by omega) (by omega)
    obtain ⟨marked, hmarked, hlen, hmarks, hbefore, hafter⟩ := ih x.id (by omega) hclear'
    refine ⟨marked, ?_, hlen.trans hlength, ⟨?_, hmarks⟩, fun j hj => ?_, fun j hj hjlt => ?_⟩
    · rw [markTransitions, hone, ok_bind, hmarked]
    · rw [hbefore index (by omega), hget, if_pos rfl]
    · rw [hbefore j (by omega), hget, if_neg (by omega)]
    · rw [length_cons] at hj
      exact hafter j (by omega) (by omega)

/-- A chain that is dense, as the encoder has packed it. -/
structure IsDense (n : IntSize) (first : RunNode) (rest : List RunNode) (chain : PackedRunChain) : Prop where
  length : packedTransitionLength n (first :: rest).length = some chain.transitions.length
  valid : validRune first.item.value = true
  dense : DenseFrom first.id rest
  marks : Marks chain.transitions 0 first.id rest
  unused : ∀ j, rest.length ≤ j → j / 8 < chain.transitions.length → Bitmap.get chain.transitions j = some false
  text : chain.text = (first :: rest).flatMap fun x => Utf8.encode x.item.value

theorem packedTransitionLength_eq_some {count length : Nat} :
    packedTransitionLength n count = some length ↔ 2 ≤ count ∧ (count : Int) ≤ n.max ∧ length = (count - 2) / 8 + 1 := by
  unfold packedTransitionLength
  split_ifs with h
  · simp only [or_eq_true, decide_eq_true_eq] at h
    simp only [false_iff]
    omega
  simp only [or_eq_true, decide_eq_true_eq] at h
  rw [Option.some.injEq]
  omega

theorem packDense_spec {length : Nat} (hlength : packedTransitionLength n (first :: rest).length = some length) :
    ∃ o, packDense length first rest = .ok o ∧ ∀ chain ∈ o, IsDense n first rest chain := by
  unfold packDense
  cases hv : validRune first.item.value with
  | false => exact ⟨none, rfl, nofun⟩
  | true =>
    obtain ⟨c, hc, hdense⟩ := denseFrom_spec first.id rest
    cases c with
    | false => exact ⟨none, by simp [hc], nofun⟩
    | true =>
      obtain ⟨htwo, -, hlen⟩ := packedTransitionLength_eq_some.mp hlength
      rw [length_cons] at htwo hlen
      have hroom : 0 + rest.length ≤ 8 * (replicate length (0 : UInt8)).length := by
        rw [length_replicate]
        omega
      obtain ⟨marked, hmarked, hmlen, hmarks, -, hunused⟩ := markTransitions_spec first.id rest hroom
        fun j _ hj => get_replicate (by rwa [length_replicate] at hj)
      rw [length_replicate] at hmlen hunused
      refine ⟨some ⟨marked, _⟩, by simp [hc, hmarked]; rfl, ?_⟩
      intro chain hchain
      cases hchain
      refine ⟨by rw [hlength, hmlen], hv, hdense rfl, hmarks, ?_, rfl⟩
      rw [hmlen]
      exact fun j hj hjlt => hunused j (by omega) hjlt

/-- The encoder finds dense chains only, and nothing wraps as it looks for them. -/
theorem makePackedRunChain_spec (n : IntSize) (block : List RunNode) :
    ∃ o, makePackedRunChain n block = .ok o ∧
      ∀ chain ∈ o, ∃ first rest, block = first :: rest ∧ IsDense n first rest chain := by
  match block with
  | [] => exact ⟨none, rfl, nofun⟩
  | [_] => exact ⟨none, rfl, nofun⟩
  | first :: second :: rest =>
    cases hlength : packedTransitionLength n (first :: second :: rest).length with
    | none =>
      refine ⟨none, ?_, nofun⟩
      rw [makePackedRunChain, hlength]
      · rfl
      · exact nofun
    | some length =>
      obtain ⟨o, ho, hdense⟩ := packDense_spec hlength
      refine ⟨o, ?_, fun chain hchain => ⟨first, second :: rest, rfl, hdense chain hchain⟩⟩
      rw [makePackedRunChain, hlength]
      · exact ho
      · exact nofun

/-! ### Gaps -/

theorem packedWallGap_of_lt {a b : RunNode}
    (hnodes : nodes = before ++ a :: b :: rest) (h : a.id.wallTime < b.id.wallTime) :
    packedWallGap nodes (before.length + 1) = .ok (some (b.id.wallTime - a.id.wallTime)) := by
  subst hnodes
  have ha : (before ++ a :: b :: rest)[before.length + 1 - 1]? = some a := by simp
  have hb : (before ++ a :: b :: rest)[before.length + 1]? = some b := by
    simp
  have hle : a.id.wallTime.toNat ≤ b.id.wallTime.toNat := le_of_lt (UInt64.lt_iff_toNat_lt.mp h)
  unfold packedWallGap
  rw [if_neg (by simp), ha, hb]
  simp only [unbroken_some, ok_bind]
  rw [if_neg (UInt64.not_le.mpr h), subUint64_eq_ok hle]
  rfl

theorem foldlM_addGap {gaps : List UInt64} (hnodes : nodes = before ++ x :: rest)
    (hmarks : Marks transitions before.length x.id rest) :
    (range' (before.length + 1) rest.length).foldlM (addGap transitions nodes) gaps =
      .ok (gaps ++ gapsFrom x.id rest) := by
  induction rest generalizing before x gaps with
  | nil => simp [gapsFrom]
  | cons y rest ih =>
    obtain ⟨hbit, hmarks⟩ := hmarks
    have hnodes' : nodes = (before ++ [x]) ++ y :: rest := by rw [hnodes]; simp
    have hlength : (before ++ [x]).length = before.length + 1 := by simp
    have hrest : ∀ gaps, (range' ((before ++ [x]).length + 1) rest.length).foldlM (addGap transitions nodes)
        gaps = .ok (gaps ++ gapsFrom y.id rest) := fun gaps => ih hnodes' (by rwa [hlength])
    rw [hlength] at hrest
    have hround : addGap transitions nodes gaps (before.length + 1) =
        .ok (if x.id.wallTime < y.id.wallTime then gaps ++ [y.id.wallTime - x.id.wallTime] else gaps) := by
      unfold addGap packedTransition
      rw [Nat.add_sub_cancel, hbit]
      by_cases hw : x.id.wallTime < y.id.wallTime
      · simp [hw, packedWallGap_of_lt hnodes hw]
      · simp [hw]
    rw [length_cons, range'_succ, foldlM_cons, hround, ok_bind, hrest, gapsFrom]
    split_ifs
    · rw [append_assoc, singleton_append]
    · rfl

theorem IsDense.packedGaps {chain : PackedRunChain} (h : IsDense n first rest chain) :
    packedGaps chain.transitions (first :: rest) = .ok (gapsFrom first.id rest) := by
  have hnodes : first :: rest = [] ++ first :: rest := rfl
  exact foldlM_addGap hnodes h.marks

/-! ### What the decoder reads -/

theorem add_gap (h : a < b) : b - a ≠ 0 ∧ a ≤ maxUint64 - (b - a) ∧ a + (b - a) = b := by
  have hlt := UInt64.lt_iff_toNat_lt.mp h
  have hsub : (b - a).toNat = b.toNat - a.toNat := UInt64.toNat_sub_of_le _ _ (UInt64.le_of_lt h)
  have hroom : (maxUint64 - (b - a)).toNat = maxUint64.toNat - (b - a).toNat :=
    UInt64.toNat_sub_of_le _ _ (UInt64.le_iff_toNat_le.mpr (toNat_le_maxUint64 _))
  have hmax := toNat_le_maxUint64 b
  refine ⟨fun hz => ?_, UInt64.le_iff_toNat_le.mpr (by omega), ?_⟩
  · rw [hz] at hsub
    have hzero : (0 : UInt64).toNat = 0 := rfl
    omega
  · rw [UInt64.add_comm, UInt64.sub_add_cancel]

theorem reads_gap (gaps : List UInt64) {y : Position}
    (hbit : Bitmap.get transitions index = some (decide (previous.wallTime < y.wallTime)))
    (hsucceeds : Succeeds previous y) : Reads (readGap transitions (index, previous.wallTime, gaps))
      (if previous.wallTime < y.wallTime then Uvarint.put (y.wallTime - previous.wallTime) else [])
      (index + 1, y.wallTime,
        if previous.wallTime < y.wallTime then gaps ++ [y.wallTime - previous.wallTime] else gaps) := by
  unfold readGap packedTransition
  refine Reads.step_bind (by rw [hbit, unbroken_some]) ?_
  by_cases hw : previous.wallTime < y.wallTime
  · obtain ⟨hne, hroom, hadd⟩ := add_gap hw
    simp only [hw]
    rw [← append_nil (Uvarint.put _)]
    refine (reads_uvarint _).bind (require_bind (by simpa using hne) ?_)
    refine Reads.step_bind (subUint64_eq_ok (toNat_le_maxUint64 _)) (require_bind (by simpa using hroom) ?_)
    refine Reads.step_bind (addUint64_of_room hroom) ?_
    rw [hadd]
    exact Reads.pure
  have heq : y.wallTime = previous.wallTime := by
    rcases hsucceeds with ⟨heq, -⟩ | ⟨hlt, -⟩
    · exact heq
    · exact absurd hlt hw
  simp only [hw, decide_false, Bool.not_false, if_true]
  rw [heq]
  exact Reads.pure

theorem reads_gaps (gaps : List UInt64) (hmarks : Marks transitions index previous rest)
    (hdense : DenseFrom previous rest) :
    ∃ last wallTime, Reads (times (readGap transitions) rest.length (index, previous.wallTime, gaps))
      ((gapsFrom previous rest).flatMap Uvarint.put) (last, wallTime, gaps ++ gapsFrom previous rest) := by
  induction rest generalizing index previous gaps with
  | nil => exact ⟨index, previous.wallTime, by rw [gapsFrom, append_nil]; exact Reads.pure⟩
  | cons y rest ih =>
    obtain ⟨hbit, hmarks⟩ := hmarks
    obtain ⟨-, hsucceeds, hdense⟩ := hdense
    obtain ⟨last, wallTime, hrest⟩ := ih (if previous.wallTime < y.id.wallTime
      then gaps ++ [y.id.wallTime - previous.wallTime] else gaps) hmarks hdense
    have hread := (reads_gap gaps hbit hsucceeds).bind hrest
    refine ⟨last, wallTime, ?_⟩
    rw [gapsFrom]
    change Reads (readGap transitions _ >>= times (readGap transitions) rest.length) _ _
    split_ifs at hread ⊢
    · simpa using hread
    · simpa using hread

theorem unusedPackedTransitionBitsSet_spec (hcount : 2 ≤ count)
    (hlength : transitions.length = (count - 2) / 8 + 1) :
    ∃ c, unusedPackedTransitionBitsSet transitions count = .ok c ∧
      (c = false ↔ ∀ j, count - 1 ≤ j → j / 8 < transitions.length → Bitmap.get transitions j = some false) := by
  unfold unusedPackedTransitionBitsSet
  dsimp only
  split_ifs with hused
  · refine ⟨false, rfl, fun _ j hj hjlt => ?_, fun _ => rfl⟩
    omega
  have hlast : transitions.length - 1 < transitions.length := by omega
  rw [getElem?_eq_getElem hlast]
  refine ⟨_, rfl, spare_eq_false_iff.trans ⟨fun h j hj hjlt => ?_, fun h k hk hk8 => ?_⟩⟩
  · have hdiv : j / 8 = transitions.length - 1 := by omega
    rw [get_eq, hdiv, getElem?_eq_getElem hlast, Option.map_some,
      h (j % 8) (by omega) (mod_lt _ (by decide))]
  have hbit := h (8 * (transitions.length - 1) + k) (by omega) (by omega)
  rw [get_eq, mul_add_div (by decide), mul_add_mod, div_eq_of_lt hk8, add_zero,
    mod_eq_of_lt hk8, getElem?_eq_getElem hlast] at hbit
  exact Option.some.inj hbit

/-! ### What the decoder places -/

variable {s : Dense}

section
variable (hindex : s.itemIndex = index + 1) (hwall : s.wallTime = previous.wallTime)
  (hlogical : s.logical = previous.logical)
include hindex hwall hlogical

theorem advance_spec {y : Position} {gaps : List UInt64}
    (hgaps : s.gaps = if previous.wallTime < y.wallTime then (y.wallTime - previous.wallTime) :: gaps else gaps)
    (hbit : Bitmap.get transitions index = some (decide (previous.wallTime < y.wallTime)))
    (hsucceeds : Succeeds previous y) :
    s.advance transitions = .ok {s with wallTime := y.wallTime, logical := y.logical, gaps} := by
  unfold Dense.advance packedTransition
  rw [hindex, Nat.add_sub_cancel, hbit, hgaps]
  rcases hsucceeds with ⟨heq, hmax, hnext⟩ | ⟨hlt, hzero⟩
  · simp [hlogical, hmax, addUint64_one hmax, heq, hnext, hwall]
  · obtain ⟨-, hroom, hadd⟩ := add_gap hlt
    simp [hlt, hwall, subUint64_eq_ok (toNat_le_maxUint64 _), hroom, addUint64_of_room hroom, hadd, hzero]

theorem foldlM_place {replicaID : List UInt8}
    (hgaps : s.gaps = gapsFrom previous rest) (hparent : s.parent = previous)
    (hmarks : Marks transitions index previous rest) (hdense : DenseFrom previous rest)
    (hrun : rest.IsChain Continues) (hhead : ∀ y ∈ rest.head?, y.item.parent = previous)
    (hreplica : ∀ y ∈ rest, y.id.replicaID = replicaID) (hnodup : (rest.map RunNode.id).Nodup)
    (hfresh : ∀ y ∈ rest, y.id ∉ s.nodes) :
    ∃ s', (rest.map fun y => y.item.value).foldlM (Dense.place replicaID transitions) s = .ok s' ∧ s'.gaps = [] ∧
      s'.nodes = rest.foldl (fun nodes y => nodes.insert y.id y.item) s.nodes := by
  induction rest generalizing index previous s with
  | nil => exact ⟨s, rfl, hgaps, rfl⟩
  | cons y rest ih =>
    obtain ⟨hbit, hmarks⟩ := hmarks
    obtain ⟨-, hsucceeds, hdense⟩ := hdense
    obtain ⟨hreplica₁, hreplica⟩ := forall_mem_cons.mp hreplica
    obtain ⟨hfresh₁, hfresh⟩ := forall_mem_cons.mp hfresh
    obtain ⟨hnodup₁, hnodup⟩ := nodup_cons.mp hnodup
    have hadvance := advance_spec hindex hwall hlogical hgaps hbit hsucceeds
    have hid : (⟨replicaID, y.id.wallTime, y.id.logical⟩ : Position) = y.id := by rw [← hreplica₁]
    have hitem : (⟨s.parent, y.item.value⟩ : Node Rune) = y.item := by rw [hparent, ← hhead y rfl]
    have hplace : s.place replicaID transitions y.item.value = .ok {s with
        itemIndex := index + 1 + 1, wallTime := y.id.wallTime, logical := y.id.logical,
        gaps := gapsFrom y.id rest, parent := y.id, nodes := s.nodes.insert y.id y.item} := by
      unfold Dense.place
      rw [if_pos (by omega), hadvance, ok_bind]
      dsimp only
      rw [hid, hitem, hindex, TagMap.contains_eq_false.mpr hfresh₁, Bool.not_false, check_true, ok_bind, pure_eq]
    rw [map_cons, foldlM_cons, hplace]
    exact ih rfl rfl rfl rfl rfl hmarks hdense hrun.tail (parent_of_chain hrun) hreplica hnodup
      (fresh_of_nodup hnodup₁ hfresh)

end

/-! ### Dense chains are read back -/

/-- What is written for a dense chain behind its header. -/
def appendDense (first : RunNode) (chain : PackedRunChain) (gaps : List UInt64) : List UInt8 :=
  Uvarint.put first.id.wallTime ++ (Uvarint.put first.id.logical ++ (appendBytes chain.transitions ++
    (gaps.flatMap Uvarint.put ++ appendBytes chain.text)))

theorem scalar_of_validRune {value : Int} (h : validRune value = true) : Utf8.Scalar value := validRune_iff.mp h

theorem DenseFrom.valid (h : DenseFrom previous rest) : ∀ y ∈ rest, validRune y.item.value = true := by
  induction rest generalizing previous with
  | nil => simp
  | cons y rest ih => exact forall_mem_cons.mpr ⟨h.1, ih h.2.2⟩

variable {chain : PackedRunChain}

section
variable (h : IsDense n first rest chain) {nodes : TagMap (Node Rune)}
include h

theorem IsDense.length_eq :
    chain.transitions.length = ((first :: rest).length - 2) / 8 + 1 ∧ 2 ≤ (first :: rest).length ∧
      (chain.transitions.length : Int) ≤ n.max := by
  obtain ⟨htwo, hmax, hlen⟩ := packedTransitionLength_eq_some.mp h.length
  exact ⟨hlen, htwo, by omega⟩

theorem IsDense.reads_transitions :
    Reads (readTransitions n chain.transitions.length (first :: rest).length) (appendBytes chain.transitions)
      chain.transitions := by
  obtain ⟨hlen, htwo, hmax⟩ := h.length_eq
  obtain ⟨c, hc, hiff⟩ := unusedPackedTransitionBitsSet_spec htwo hlen
  obtain rfl : c = false := hiff.mpr fun j hj hjlt => h.unused j (by simpa using hj) hjlt
  rw [← append_nil (appendBytes chain.transitions)]
  refine (reads_bytes hmax le_rfl).bind (require_bind (by simp) ?_)
  exact Reads.step_bind hc (require_bind rfl Reads.pure)

theorem IsDense.valid_all : ∀ x ∈ first :: rest, validRune x.item.value = true :=
  forall_mem_cons.mpr ⟨h.valid, h.dense.valid⟩

theorem IsDense.runes : Utf8.valid chain.text = true ∧ Utf8.runeCount chain.text = (first :: rest).length ∧
      Utf8.runes chain.text = (first :: rest).map fun x => x.item.value := by
  have hscalar : ∀ r ∈ (first :: rest).map fun x => x.item.value, Utf8.Scalar r := by
    intro r hr
    obtain ⟨x, hx, rfl⟩ := mem_map.mp hr
    exact scalar_of_validRune (h.valid_all x hx)
  have htext : chain.text = ((first :: rest).map fun x => x.item.value).flatMap Utf8.encode := by
    rw [h.text, flatMap_map]
  rw [htext]
  refine ⟨Utf8.valid_encode hscalar, ?_, Utf8.runes_encode hscalar⟩
  rw [Utf8.runeCount_encode hscalar, length_map]

/-- The nodes of a dense chain follow from its start, its bits and its gaps. -/
theorem IsDense.places
    (hrun : (first :: rest).IsChain Continues) (hnodup : ((first :: rest).map RunNode.id).Nodup)
    (hfresh : ∀ x ∈ first :: rest, x.id ∉ nodes) :
    ∃ s, (Utf8.runes chain.text).foldlM (Dense.place first.id.replicaID chain.transitions)
        {wallTime := first.id.wallTime, logical := first.id.logical, gaps := gapsFrom first.id rest,
          parent := first.item.parent, nodes} = .ok s ∧ s.gaps = [] ∧
      s.nodes = (first :: rest).foldl (fun nodes x => nodes.insert x.id x.item) nodes := by
  obtain ⟨hfresh₁, hfresh⟩ := forall_mem_cons.mp hfresh
  obtain ⟨hnodup₁, hnodup⟩ := nodup_cons.mp hnodup
  obtain ⟨-, hreplica⟩ := forall_mem_cons.mp (replicaID_of_chain hrun)
  rw [h.runes.2.2, map_cons, foldlM_cons]
  unfold Dense.place
  rw [if_neg (by simp), pure_eq, ok_bind]
  dsimp only
  rw [TagMap.contains_eq_false.mpr hfresh₁, Bool.not_false]
  exact foldlM_place rfl rfl rfl rfl rfl h.marks h.dense hrun.tail (parent_of_chain hrun) hreplica hnodup
    (fresh_of_nodup hnodup₁ hfresh)

theorem IsDense.reads (hl : limits.Fit n)
    (hrun : (first :: rest).IsChain Continues) (hnodup : ((first :: rest).map RunNode.id).Nodup)
    (hfresh : ∀ x ∈ first :: rest, x.id ∉ nodes) (htext : (chain.text.length : Int) ≤ limits.maxPayload) :
    Reads (decodeDensePackedRunChain n limits (first :: rest).length first.id.replicaID first.item.parent nodes)
      (appendDense first chain (gapsFrom first.id rest))
      ((first :: rest).foldl (fun nodes x => nodes.insert x.id x.item) nodes) := by
  obtain ⟨-, -, hmax⟩ := h.length_eq
  obtain ⟨hvalid, hcount, -⟩ := h.runes
  obtain ⟨last, wallTime, hgaps⟩ := reads_gaps [] h.marks h.dense
  obtain ⟨s, hplaced, hleft, hnodes⟩ := h.places hrun hnodup hfresh
  unfold decodeDensePackedRunChain appendDense
  refine Reads.remaining_bind fun later => ?_
  refine (reads_uvarint _).bind ((reads_uvarint _).bind ?_)
  refine Reads.step_bind (by rw [h.length, ofOption_some]) (h.reads_transitions.bind ?_)
  refine hgaps.bind ?_
  rw [← append_nil (appendBytes chain.text)]
  refine (reads_bytes hl.maxPayload htext).bind (require_bind (by simp [hvalid, hcount]) ?_)
  -- The start that is read again is the start of the chain.
  have hstart : Reads (densePackedStart n chain.transitions.length)
      (Uvarint.put first.id.wallTime ++ (Uvarint.put first.id.logical ++ appendBytes chain.transitions))
      (first.id.wallTime, first.id.logical) := by
    refine (reads_uvarint _).bind ((reads_uvarint _).bind ?_)
    exact (reads_bytes hmax le_rfl).map
  let behind := (gapsFrom first.id rest).flatMap Uvarint.put ++ appendBytes chain.text ++ later
  have hagain := hstart behind
  refine Reads.step_bind (a := ((first.id.wallTime, first.id.logical), behind)) ?_ ?_
  · simpa [behind, append_assoc] using hagain
  refine Reads.step_bind hplaced (require_bind (by simp [hleft]) ?_)
  rw [hnodes]
  exact Reads.pure

end

/-! ### Nothing wraps -/

theorem subUint64_maxUint64 (gap : UInt64) : subUint64 maxUint64 gap = .ok (maxUint64 - gap) :=
  subUint64_eq_ok (toNat_le_maxUint64 gap)

theorem packedTransition_ne_broken (h : index / 8 < transitions.length) :
    packedTransition transitions index ≠ .broken := by
  obtain ⟨bit, hbit⟩ := get_of_lt h
  rw [packedTransition, hbit]
  exact nofun

variable {transitionLength : Nat}

theorem yields_readTransitions : Yields (readTransitions n transitionLength count) fun transitions =>
      transitions.length = transitionLength ∧ unusedPackedTransitionBitsSet transitions count = .ok false := by
  refine Yields.any.bind fun transitions _ => Yields.check_bind fun hlen => Yields.step_bind fun unused hunused => ?_
  refine Yields.check_bind fun hfalse => Yields.pure ⟨of_decide_eq_true hlen, ?_⟩
  obtain rfl : unused = false := by simpa using hfalse
  exact hunused

theorem unbroken_readTransitions (hlength : packedTransitionLength n count = some transitionLength) :
    Unbroken (readTransitions n transitionLength count) := by
  obtain ⟨hcount, -, rfl⟩ := packedTransitionLength_eq_some.mp hlength
  refine unbroken_readBytes.bind fun transitions => Unbroken.check_bind fun hlen => ?_
  obtain ⟨c, hc, -⟩ := unusedPackedTransitionBitsSet_spec hcount (of_decide_eq_true hlen)
  refine Unbroken.step_bind (by rw [hc]; exact nofun) fun _ _ => Unbroken.check_bind fun _ => Unbroken.pure

theorem unbroken_readGap {s : Nat × UInt64 × List UInt64} (h : s.1 / 8 < transitions.length) :
    Unbroken (readGap transitions s) := by
  refine Unbroken.step_bind (packedTransition_ne_broken h) fun bit _ => ?_
  split_ifs
  · exact Unbroken.pure
  refine unbroken_readUvarint.bind fun gap => Unbroken.check_bind fun _ => ?_
  refine Unbroken.step_bind (by rw [subUint64_maxUint64]; exact nofun) fun room hroom => ?_
  refine Unbroken.check_bind fun hle => ?_
  obtain rfl : maxUint64 - gap = room := by simpa [subUint64_maxUint64] using hroom
  rw [addUint64_of_room (of_decide_eq_true hle)]
  exact Unbroken.step_bind nofun fun _ _ => Unbroken.pure

theorem yields_readGap {s : Nat × UInt64 × List UInt64} :
    Yields (readGap transitions s) fun s' => s'.1 = s.1 + 1 := by
  refine Yields.step_bind fun bit _ => ?_
  split_ifs
  · exact Yields.pure rfl
  · exact Yields.any.bind fun _ _ => Yields.check_bind fun _ => Yields.step_bind fun _ _ =>
      Yields.check_bind fun _ => Yields.step_bind fun _ _ => Yields.pure rfl

theorem advance_ne_broken (h : (s.itemIndex - 1) / 8 < transitions.length) :
    s.advance transitions ≠ .broken := by
  refine bind_ne_broken (packedTransition_ne_broken h) fun bit _ => ?_
  split_ifs
  · cases s.gaps with
    | nil => exact nofun
    | cons gap gaps =>
      dsimp only
      rw [subUint64_maxUint64]
      by_cases hle : s.wallTime ≤ maxUint64 - gap
      · rw [addUint64_of_room hle]
        exact check_bind_ne_broken fun _ => nofun
      · simp [hle]
  by_cases hmax : s.logical = maxUint64
  · simp [hmax]
  · rw [addUint64_one hmax]
    exact check_bind_ne_broken fun _ => nofun

variable {s' : Dense} {replicaID : List UInt8} {scalar : Rune}

theorem advance_itemIndex (h : s.advance transitions = .ok s') :
    s'.itemIndex = s.itemIndex ∧ s'.nodes = s.nodes := by
  obtain ⟨bit, -, h⟩ := bind_eq_ok_iff.mp h
  split_ifs at h
  · cases hg : s.gaps with
    | nil =>
      rw [hg] at h
      cases h
    | cons gap gaps =>
      rw [hg] at h
      obtain ⟨_, -, h⟩ := bind_eq_ok_iff.mp h
      obtain ⟨-, h⟩ := check_bind_eq_ok_iff.mp h
      obtain ⟨_, -, h⟩ := bind_eq_ok_iff.mp h
      cases h
      exact ⟨rfl, rfl⟩
  · obtain ⟨-, h⟩ := check_bind_eq_ok_iff.mp h
    obtain ⟨_, -, h⟩ := bind_eq_ok_iff.mp h
    cases h
    exact ⟨rfl, rfl⟩

theorem place_ne_broken (h : 0 < s.itemIndex → (s.itemIndex - 1) / 8 < transitions.length) :
    s.place replicaID transitions scalar ≠ .broken := by
  unfold Dense.place
  split_ifs with hpos
  · refine bind_ne_broken (advance_ne_broken (h hpos)) fun s' _ => ?_
    exact check_bind_ne_broken fun _ => nofun
  · rw [pure_eq, ok_bind]
    exact check_bind_ne_broken fun _ => nofun

theorem place_eq_ok (h : s.place replicaID transitions scalar = .ok s') :
    s'.itemIndex = s.itemIndex + 1 ∧ s'.nodes.size ≤ s.nodes.size + 1 := by
  unfold Dense.place at h
  split_ifs at h
  · obtain ⟨s₁, hadvance, h⟩ := bind_eq_ok_iff.mp h
    obtain ⟨-, h⟩ := check_bind_eq_ok_iff.mp h
    obtain ⟨hindex, hnodes⟩ := advance_itemIndex hadvance
    cases h
    rw [hindex, ← hnodes]
    exact ⟨rfl, size_insert_le⟩
  obtain ⟨-, h⟩ := check_bind_eq_ok_iff.mp h
  cases h
  exact ⟨rfl, size_insert_le⟩

theorem size_of_foldlM_place {scalars : List Rune}
    (h : scalars.foldlM (Dense.place replicaID transitions) s = .ok s') :
    s'.nodes.size ≤ s.nodes.size + scalars.length := by
  induction scalars generalizing s with
  | nil =>
    cases h
    exact Nat.le_refl _
  | cons scalar scalars ih =>
    obtain ⟨s₁, hplace, h⟩ := bind_eq_ok_iff.mp h
    have hone := (place_eq_ok hplace).2
    have hrest := ih h
    rw [length_cons]
    omega

theorem length_runes (text : List UInt8) : (Utf8.runes text).length = Utf8.runeCount text := length_map _

section Decode
variable {count : Nat} {replicaID : List UInt8} {parent : Position} {nodes : TagMap (Node Rune)}

theorem yields_dense : Yields (decodeDensePackedRunChain n limits count replicaID parent nodes) fun nodes' =>
    nodes'.size ≤ nodes.size + count := by
  refine Yields.any.bind fun _ _ => Yields.any.bind fun _ _ => Yields.any.bind fun _ _ =>
    Yields.step_bind fun _ _ => Yields.any.bind fun _ _ => Yields.any.bind fun _ _ => Yields.any.bind fun text _ =>
    Yields.check_bind fun hcount => Yields.step_bind fun _ _ => Yields.step_bind fun s hs =>
    Yields.check_bind fun _ => Yields.pure ?_
  simp only [and_eq_true, decide_eq_true_eq] at hcount
  have hsize := size_of_foldlM_place hs
  rwa [length_runes, hcount.2] at hsize

theorem unbroken_densePackedStart : Unbroken (densePackedStart n transitionLength) :=
  unbroken_readUvarint.bind fun _ => unbroken_readUvarint.bind fun _ =>
    unbroken_readBytes.bind fun _ => Unbroken.pure

theorem unbroken_dense : Unbroken (decodeDensePackedRunChain n limits count replicaID parent nodes) := by
  refine Unbroken.remaining_bind fun position => unbroken_readUvarint.bind fun wallTime =>
    unbroken_readUvarint.bind fun _ => Unbroken.step_bind (ofOption_ne_broken _ _) fun length hlength => ?_
  rw [ofOption_eq_ok_iff] at hlength
  obtain ⟨hcount, -, hlen⟩ := packedTransitionLength_eq_some.mp hlength
  refine (unbroken_readTransitions hlength).bind_of yields_readTransitions fun transitions ⟨htransitions, _⟩ => ?_
  have hgaps : Unbroken (times (readGap transitions) (count - 1) (0, wallTime, [])) := by
    refine Unbroken.times (I := fun k s => s.1 + k = count - 1) (fun k s hk => ⟨?_, ?_⟩) _ (zero_add _)
    · exact unbroken_readGap (by omega)
    intro rest s' rest' hs'
    have := yields_readGap _ _ _ hs'
    omega
  refine hgaps.bind fun p => unbroken_readBytes.bind fun text => Unbroken.check_bind fun htext => ?_
  simp only [and_eq_true, decide_eq_true_eq] at htext
  refine Unbroken.step_bind (unbroken_densePackedStart position) fun start _ => Unbroken.step_bind ?_ fun s _ =>
    Unbroken.check_bind fun _ => Unbroken.pure
  refine foldlM_ne_broken (I := fun k s => s.itemIndex + k = count) ?_ fun scalar _ k s hk => ⟨?_, fun s' hs' => ?_⟩
  · rw [length_runes, htext.2, zero_add]
  · exact place_ne_broken fun hpos => by omega
  · have := (place_eq_ok hs').1
    omega

end Decode

end Crdt.Text
