import Crdt.Lib.Map

/-! Mutation tags.

A tag is a replica ID with the two counters of a hybrid clock; it names one
mutation for good. Tags are compared by wall time, then logical counter, then
replica ID (`Tag.compare`), which is a linear order, and every map and set of
the library that is keyed by tags is a `TagMap` or a `TagSet` here. Strings are
their bytes, so replica IDs are compared byte by byte and need not be UTF-8. -/

instance instLinearOrderUInt8 : LinearOrder UInt8 where
  le_refl := UInt8.le_refl
  le_trans _ _ _ := UInt8.le_trans
  le_antisymm _ _ := UInt8.le_antisymm
  le_total := UInt8.le_total
  lt_iff_le_not_ge a b := by
    simp only [UInt8.lt_iff_toNat_lt, UInt8.le_iff_toNat_le]
    omega
  toDecidableLE := inferInstance
  toDecidableLT := inferInstance
  toDecidableEq := inferInstance

instance instLinearOrderUInt64 : LinearOrder UInt64 where
  le_refl := UInt64.le_refl
  le_trans _ _ _ := UInt64.le_trans
  le_antisymm _ _ := UInt64.le_antisymm
  le_total := UInt64.le_total
  lt_iff_le_not_ge a b := by
    simp only [UInt64.lt_iff_toNat_lt, UInt64.le_iff_toNat_le]
    omega
  toDecidableLE := inferInstance
  toDecidableLT := inferInstance
  toDecidableEq := inferInstance

namespace Crdt

/-! ### Blank strings -/

/-- White space of one byte in UTF-8. -/
def asciiSpace (b : UInt8) : Bool :=
  b == 0x20 || (0x09 ≤ b && b ≤ 0x0D)

/-- White space of two bytes in UTF-8: U+0085 and U+00A0. -/
def twoByteSpace (b c : UInt8) : Bool :=
  b == 0xC2 && (c == 0x85 || c == 0xA0)

/-- White space of three bytes in UTF-8: U+1680, U+2000 to U+200A, U+2028, U+2029,
U+202F, U+205F and U+3000. -/
def threeByteSpace (b c d : UInt8) : Bool :=
  (b == 0xE1 && c == 0x9A && d == 0x80) ||
  (b == 0xE2 && c == 0x80 && ((0x80 ≤ d && d ≤ 0x8A) || d == 0xA8 || d == 0xA9 || d == 0xAF)) ||
  (b == 0xE2 && c == 0x81 && d == 0x9F) ||
  (b == 0xE3 && c == 0x80 && d == 0x80)

/-- `strings.TrimSpace(s) == ""`: nothing but white space. -/
def blank : List UInt8 → Bool
  | [] => true
  | b :: rest =>
    if asciiSpace b then blank rest else
    match rest with
    | [] => false
    | c :: rest =>
      if twoByteSpace b c then blank rest else
      match rest with
      | [] => false
      | d :: rest => if threeByteSpace b c d then blank rest else false

/-! ### Tags -/

structure Tag where
  replicaID : List UInt8
  wallTime : UInt64
  logical : UInt64
deriving DecidableEq, Repr

namespace Tag

/-- The zero value, `Tag{}`. As a parent it names the root. -/
def zero : Tag := ⟨[], 0, 0⟩

instance : Inhabited Tag := ⟨zero⟩

/-- Safe to use as a mutation identifier. -/
def valid (t : Tag) : Bool := !blank t.replicaID

@[simp] theorem valid_zero : zero.valid = false := rfl

theorem ne_zero_of_valid {t : Tag} (h : t.valid = true) : t ≠ zero := by
  rintro rfl
  simp at h

def compare (t other : Tag) : Ordering :=
  if t.wallTime < other.wallTime then .lt
  else if other.wallTime < t.wallTime then .gt
  else if t.logical < other.logical then .lt
  else if other.logical < t.logical then .gt
  else if t.replicaID < other.replicaID then .lt
  else if other.replicaID < t.replicaID then .gt
  else .eq

/-- What the comparison reads, most significant first. -/
def key (t : Tag) : UInt64 ×ₗ UInt64 ×ₗ List UInt8 :=
  toLex (t.wallTime, toLex (t.logical, t.replicaID))

theorem key_injective : Function.Injective key := by
  rintro ⟨r, w, l⟩ ⟨r', w', l'⟩ h
  cases h
  rfl

theorem key_lt_iff (t u : Tag) : t.key < u.key ↔ t.wallTime < u.wallTime ∨
    t.wallTime = u.wallTime ∧ (t.logical < u.logical ∨
      t.logical = u.logical ∧ t.replicaID < u.replicaID) := by
  simp only [key, Prod.Lex.toLex_lt_toLex]

theorem compare_eq_key (t u : Tag) :
    t.compare u = if t.key < u.key then .lt else if u.key < t.key then .gt else .eq := by
  simp only [compare, key_lt_iff]
  rcases lt_trichotomy t.wallTime u.wallTime with h | h | h
  · simp [h]
  · rcases lt_trichotomy t.logical u.logical with h' | h' | h'
    · simp [h, h']
    · simp [h, h']
    · simp [h, h', h'.not_gt, h'.ne']
  · simp [h, h.not_gt, h.ne']

instance : LinearOrder Tag where
  le t u := t.key ≤ u.key
  lt t u := t.key < u.key
  le_refl _ := le_refl _
  le_trans _ _ _ := le_trans
  le_antisymm _ _ h h' := key_injective (le_antisymm h h')
  le_total _ _ := le_total _ _
  lt_iff_le_not_ge _ _ := lt_iff_le_not_ge
  toDecidableLE t u := decidable_of_iff (t.compare u ≠ .gt) (by
    rw [compare_eq_key]
    rcases lt_trichotomy t.key u.key with h | h | h
    · simp [h, h.le]
    · simp [h]
    · simp [h, h.not_gt])
  toDecidableLT t u := decidable_of_iff (t.compare u = .lt) (by
    rw [compare_eq_key]
    rcases lt_trichotomy t.key u.key with h | h | h
    · simp [h]
    · simp [h]
    · simp [h, h.not_gt])
  toDecidableEq := inferInstance

theorem lt_iff (t u : Tag) : t < u ↔ t.wallTime < u.wallTime ∨
    t.wallTime = u.wallTime ∧ (t.logical < u.logical ∨
      t.logical = u.logical ∧ t.replicaID < u.replicaID) := key_lt_iff t u

theorem compare_eq (t u : Tag) : t.compare u = if t < u then .lt else if u < t then .gt else .eq := by
  rw [compare_eq_key]
  exact if_congr Iff.rfl rfl (if_congr Iff.rfl rfl rfl)

instance : Std.TransCmp Tag.compare := MapLoop.transCmp_of_key compare_eq_key

instance : Std.LawfulEqCmp Tag.compare := MapLoop.lawfulEqCmp_of_key key_injective compare_eq_key

@[simp] theorem compare_eq_eq_iff (t u : Tag) : t.compare u = .eq ↔ t = u := Std.LawfulEqCmp.compare_eq_iff_eq

@[simp] theorem compare_eq_lt_iff (t u : Tag) : t.compare u = .lt ↔ t < u := by
  rw [compare_eq]
  split <;> rename_i h
  · simp [h]
  · split <;> simp [h]

@[simp] theorem compare_eq_gt_iff (t u : Tag) : t.compare u = .gt ↔ u < t := by
  rw [Std.OrientedCmp.gt_iff_lt, compare_eq_lt_iff]

end Tag

/-- A stable identifier for one element of a sequence. -/
abbrev Position := Tag

/-- A Go map keyed by tags. -/
abbrev TagMap (V : Type) := Std.ExtTreeMap Tag V Tag.compare

/-- A Go map from tags to empty structs. -/
abbrev TagSet := Std.ExtTreeSet Tag Tag.compare

namespace TagMap
variable {V : Type} {m : TagMap V} {a : Tag}

theorem contains_eq_false : m.contains a = false ↔ a ∉ m := by
  rw [← Std.ExtTreeMap.contains_iff_mem, Bool.not_eq_true]

end TagMap

namespace TagSet
variable {s : TagSet} {k a : Tag}

theorem mem_insert : a ∈ s.insert k ↔ k = a ∨ a ∈ s := by
  rw [Std.ExtTreeSet.mem_insert]
  simp

theorem mem_erase : a ∈ s.erase k ↔ k ≠ a ∧ a ∈ s := by
  rw [Std.ExtTreeSet.mem_erase]
  simp

/-- The insertions of one set, made to another. -/
theorem mem_foldl_insert (l : List Tag) (s : TagSet) :
    a ∈ l.foldl (fun s id => s.insert id) s ↔ a ∈ l ∨ a ∈ s := by
  induction l generalizing s with
  | nil => simp
  | cons b l ih => 
    rw [List.foldl_cons, ih, mem_insert, List.mem_cons]
    tauto

theorem mem_filter {f : Tag → Bool} : a ∈ s.filter f ↔ a ∈ s ∧ f a = true := by
  rw [← Std.ExtTreeSet.mem_toList, Std.ExtTreeSet.toList_filter, List.mem_filter, Std.ExtTreeSet.mem_toList]

theorem contains_eq_false : s.contains a = false ↔ a ∉ s := by
  rw [← Std.ExtTreeSet.contains_iff_mem, Bool.not_eq_true]

end TagSet

end Crdt
