import Crdt.Lib.HashTree
import Crdt.Lib.SortedMap
import Crdt.Lib.Uvarint

/-! The Merkle tree of keys and value digests, and its cached root.

The root is a padded hash tree (`HashTree`) over the leaves in the order of their keys. A leaf hashes its key,
with the length in front, and its digest; leaves, inner nodes and the empty tree begin with different bytes.

`Root` has two locked sections: it takes a copy of the entries with the generation of the tree, and at its
end puts the root in the cache if the generation is still the same. Changes and other calls come in between
(`Step`). SHA-256 is a parameter, without collisions among the strings that the two roots hash
(`roots_decide`). -/
namespace Crdt.Merkle

open MapLoop HashTree

/-- What SHA-256 returns. -/
abbrev Digest := Vector UInt8 32

def zeroDigest : Digest := Vector.replicate 32 0

open List

/-- A key and the digest of its value. -/
abbrev Entry := List UInt8 × Digest

def encodedLeaf (e : Entry) : List UInt8 :=
  0 :: (Uvarint.put (.ofNat e.1.length) ++ (e.1 ++ e.2.toList))

def encodedInner (p : Digest × Digest) : List UInt8 := 1 :: (p.1.toList ++ p.2.toList)

/-- Entries in the order of their keys. -/
def byKey (left right : Entry) : Bool := (compare left.1 right.1).isLE

section Root
variable (sum256 : List UInt8 → Digest)

def emptyRoot : Digest := sum256 [2]

def leaf (e : Entry) : Digest := sum256 (encodedLeaf e)

def inner (p : Digest × Digest) : Digest := sum256 (encodedInner p)

def rootForEntries (entries : List Entry) : Digest :=
  if entries.isEmpty then emptyRoot sum256
  else
    let leaves := (entries.mergeSort byKey).map (leaf sum256)
    (climb (inner sum256) zeroDigest leaves.length leaves).headD zeroDigest

/-- The strings that are hashed for the root of these entries. -/
def hashed (entries : ByteMap Digest) : List (List UInt8) :=
  if entries.toList.isEmpty then [[2]]
  else
    let leaves := entries.toList.map (leaf sum256)
    entries.toList.map encodedLeaf ++ (joined (inner sum256) zeroDigest leaves.length leaves).map encodedInner

end Root

/-- No two of these strings have one digest, and none has the zero digest. -/
structure CollisionFree (sum256 : List UInt8 → Digest) (strings : List (List UInt8)) : Prop where
  inj : ∀ a ∈ strings, ∀ b ∈ strings, sum256 a = sum256 b → a = b
  ne_zero : ∀ a ∈ strings, sum256 a ≠ zeroDigest

/-! ### The tree -/

structure Tree where
  entries : ByteMap Digest := ∅
  generation : UInt64 := 0
  cachedRoot : Digest := zeroDigest
  cachedRootFor : UInt64 := 0
  hasCachedRoot : Bool := false

namespace Tree

variable (t : Tree)

def invalidateRootLocked : Tree := {t with generation := t.generation + 1, hasCachedRoot := false}

def insertDigest (key : List UInt8) (digest : Digest) : Tree :=
  if t.entries[key]? = some digest then t
  else {t with entries := t.entries.insert key digest}.invalidateRootLocked

def insert (sum256 : List UInt8 → Digest) (t : Tree) (key value : List UInt8) : Tree :=
  t.insertDigest key (sum256 value)

def delete (key : List UInt8) : Tree :=
  if key ∈ t.entries then {t with entries := t.entries.erase key}.invalidateRootLocked else t

/-- The cached root, if it is for this generation. -/
def cached : Option Digest :=
  if t.hasCachedRoot && t.cachedRootFor = t.generation then some t.cachedRoot else none

/-- The second section of `Root`. -/
def install (root : Digest) (generation : UInt64) : Tree :=
  if t.generation = generation then
    {t with cachedRoot := root, cachedRootFor := generation, hasCachedRoot := true}
  else t

def snapshotEntries : List Entry := t.entries.toList

/-- `Root`, without another call between its sections. -/
def root (sum256 : List UInt8 → Digest) (t : Tree) : Tree × Digest :=
  match t.cached with
  | some root => (t, root)
  | none =>
    let root := rootForEntries sum256 t.snapshotEntries
    (t.install root t.generation, root)

end Tree

structure Difference where
  leftOnly : List (List UInt8) := []
  rightOnly : List (List UInt8) := []
  different : List (List UInt8) := []

def sortStrings (keys : List (List UInt8)) : List (List UInt8) := keys.mergeSort fun a b => (compare a b).isLE

/-- The two trees come back with their roots cached. -/
def diff (sum256 : List UInt8 → Digest) (left right : Tree) : Tree × Tree × Difference :=
  let (left, leftRoot) := left.root sum256
  let (right, rightRoot) := right.root sum256
  if leftRoot = rightRoot then (left, right, {})
  else (left, right, {
    leftOnly := sortStrings (left.entries.toList.filterMap fun p =>
      if right.entries[p.1]? = none then some p.1 else none)
    rightOnly := sortStrings (right.entries.toList.filterMap fun p =>
      if left.entries[p.1]? = none then some p.1 else none)
    different := sortStrings (left.entries.toList.filterMap fun p =>
      match right.entries[p.1]? with
      | none => none
      | some remote => if p.2 ≠ remote then some p.1 else none) })

/-! ### The root determines the entries -/

theorem encodedLeaf_inj {e e' : Entry} (h : encodedLeaf e = encodedLeaf e') : e = e' := by
  have hread := congrArg Uvarint.read (List.cons.inj h).2
  rw [Uvarint.read_put, Uvarint.read_put] at hread
  have hrest : e.1 ++ e.2.toList = e'.1 ++ e'.2.toList := congrArg Prod.snd (Option.some.inj hread)
  have hlength : e.2.toList.length = e'.2.toList.length := by simp
  obtain ⟨hkey, hdigest⟩ := append_inj' hrest hlength
  exact Prod.ext hkey (Vector.toList_inj.mp hdigest)

theorem encodedInner_inj {p p' : Digest × Digest} (h : encodedInner p = encodedInner p') : p = p' := by
  have hlength : p.1.toList.length = p'.1.toList.length := by simp
  obtain ⟨hleft, hright⟩ := append_inj (List.cons.inj h).2 hlength
  exact Prod.ext (Vector.toList_inj.mp hleft) (Vector.toList_inj.mp hright)

variable {m : ByteMap Digest} {sum256 : List UInt8 → Digest} {P : List UInt8 → Prop}
  {entries : List Entry}

/-- Sorting undoes any order in which a map gives its entries. -/
theorem mergeSort_byKey (h : entries.Perm m.toList) : entries.mergeSort byKey = m.toList := by
  have htrans : ∀ a b c : Entry, byKey a b → byKey b c → byKey a c := fun _ _ _ => Std.TransCmp.isLE_trans
  have htotal : ∀ a b : Entry, byKey a b || byKey b a := by
    intro a b
    have hswap : compare b.1 a.1 = (compare a.1 b.1).swap := Std.OrientedCmp.eq_swap
    unfold byKey
    rw [hswap]
    cases compare a.1 b.1 <;> rfl
  have hsorted : (entries.mergeSort byKey).Pairwise (byKey · ·) := pairwise_mergeSort htrans htotal entries
  have hascending : m.toList.Pairwise (byKey · ·) := m.ordered_keys_toList.imp fun hlt => by
      unfold byKey
      rw [hlt]
      rfl
  have hperm := (mergeSort_perm entries byKey).trans h
  refine hperm.eq_of_pairwise ?_ hsorted hascending
  intro a b ha hb hab hba
  have hkey : a.1 = b.1 := Std.LawfulEqCmp.eq_of_compare (Std.OrientedCmp.isLE_antisymm hab hba)
  have ha' := mem_toList.mp (hperm.mem_iff.mp ha)
  have hb' := mem_toList.mp hb
  rw [hkey, hb'] at ha'
  exact Prod.ext hkey (Option.some.inj ha').symm

theorem toList_inj {m m' : ByteMap Digest} (h : m.toList = m'.toList) : m = m' := by
  rw [← SortedMap.assign_toList m, h, SortedMap.assign_toList]

theorem rootForEntries_perm
    (h : entries.Perm m.toList) : rootForEntries sum256 entries = rootForEntries sum256 m.toList := by
  have hempty : entries.isEmpty = m.toList.isEmpty := by
    rw [Bool.eq_iff_iff, isEmpty_iff_length_eq_zero, isEmpty_iff_length_eq_zero, h.length_eq]
  simp only [rootForEntries, mergeSort_byKey h, mergeSort_byKey (List.Perm.refl m.toList), hempty]

section Injective
variable {sum256 : List UInt8 → Digest} {m m' : ByteMap Digest} {P : List (Digest × Digest)}
  {strings : List (List UInt8)}

section
variable (h : CollisionFree sum256 strings) (hP : P.map encodedInner ⊆ strings)
include h hP

theorem CollisionFree.separates : Separates (inner sum256) zeroDigest P where
  inj _ hp _ hq heq := encodedInner_inj (h.inj _ (hP (mem_map_of_mem hp)) _ (hP (mem_map_of_mem hq)) heq)
  ne_pad _ hp := h.ne_zero _ (hP (mem_map_of_mem hp))

theorem CollisionFree.leaf_ne (hentries : entries.map encodedLeaf ⊆ strings) :
    (∀ a ∈ entries.map (leaf sum256), ∀ p ∈ P, inner sum256 p ≠ a) ∧ zeroDigest ∉ entries.map (leaf sum256) := by
  constructor
  · intro a ha p hp heq
    obtain ⟨e, he, rfl⟩ := mem_map.mp ha
    have hcollision := h.inj _ (hP (mem_map_of_mem hp)) _ (hentries (mem_map_of_mem he)) heq
    cases hcollision
  intro hmem
  obtain ⟨e, he, hzero⟩ := mem_map.mp hmem
  exact h.ne_zero _ (hentries (mem_map_of_mem he)) hzero

end

theorem climb_leaves (hm : m.toList ≠ []) : climb (inner sum256) zeroDigest (m.toList.map (leaf sum256)).length
    (m.toList.map (leaf sum256)) = [rootForEntries sum256 m.toList] := by
  have hleaves : m.toList.map (leaf sum256) ≠ [] := map_eq_nil_iff.not.mpr hm
  obtain ⟨root, hroot⟩ := length_eq_one_iff.mp (length_climb (inner sum256) zeroDigest hleaves le_rfl)
  have hnonempty : m.toList.isEmpty = false := isEmpty_eq_false_iff.mpr hm
  simp only [rootForEntries, mergeSort_byKey (List.Perm.refl m.toList), hnonempty, hroot]
  rfl

theorem hashed_eq (hm : m.toList ≠ []) : hashed sum256 m = m.toList.map encodedLeaf ++
    (joined (inner sum256) zeroDigest (m.toList.map (leaf sum256)).length (m.toList.map (leaf sum256))).map
      encodedInner := by
  rw [hashed, if_neg (by simpa using hm)]

theorem rootForEntries_ne_emptyRoot (hm : m.toList ≠ []) (h : CollisionFree sum256 strings)
    (hsub : hashed sum256 m ⊆ strings) (hempty : [2] ∈ strings) :
    rootForEntries sum256 m.toList ≠ emptyRoot sum256 := by
  intro heq
  rw [hashed_eq hm] at hsub
  obtain ⟨hleaves, hjoined⟩ := append_subset.mp hsub
  have hmem := climb_subset (inner sum256) zeroDigest _ _ (climb_leaves hm ▸ mem_singleton_self _)
  rcases mem_append.mp hmem with hmem | hmem
  · obtain ⟨e, he, hroot⟩ := mem_map.mp hmem
    have hcollision := h.inj _ (hleaves (mem_map_of_mem he)) _ hempty (hroot.trans heq)
    cases hcollision
  obtain ⟨p, hp, hroot⟩ := mem_map.mp hmem
  have hcollision := h.inj _ (hjoined (mem_map_of_mem hp)) _ hempty (hroot.trans heq)
  cases hcollision

theorem rootForEntries_of_nil (hm : m.toList = []) : rootForEntries sum256 m.toList = emptyRoot sum256 := by
  rw [hm]
  rfl

theorem hashed_of_nil (hm : m.toList = []) : hashed sum256 m = [[2]] := by
  rw [hashed, if_pos (by simpa using hm)]

theorem rootForEntries_inj (h : CollisionFree sum256 strings) (hsub : hashed sum256 m ⊆ strings)
    (hsub' : hashed sum256 m' ⊆ strings)
    (heq : rootForEntries sum256 m.toList = rootForEntries sum256 m'.toList) : m = m' := by
  apply toList_inj
  by_cases hm : m.toList = [] <;> by_cases hm' : m'.toList = []
  · rw [hm, hm']
  · rw [rootForEntries_of_nil hm] at heq
    rw [hashed_of_nil hm] at hsub
    exact absurd heq.symm (rootForEntries_ne_emptyRoot hm' h hsub' (hsub (mem_singleton_self _)))
  · rw [rootForEntries_of_nil hm'] at heq
    rw [hashed_of_nil hm'] at hsub'
    exact absurd heq (rootForEntries_ne_emptyRoot hm h hsub (hsub' (mem_singleton_self _)))
  rw [hashed_eq hm] at hsub
  rw [hashed_eq hm'] at hsub'
  obtain ⟨hleaves, hjoined⟩ := append_subset.mp hsub
  obtain ⟨hleaves', hjoined'⟩ := append_subset.mp hsub'
  have hP := append_subset.mpr ⟨hjoined, hjoined'⟩
  rw [← map_append] at hP
  obtain ⟨hleaf, hpad⟩ := h.leaf_ne hP hleaves
  obtain ⟨hleaf', hpad'⟩ := h.leaf_ne hP hleaves'
  have hclimb := (climb_leaves hm).trans ((congrArg (fun root => [root]) heq).trans (climb_leaves hm').symm)
  have heqs := (h.separates hP).leaves_eq_of_climb_eq hpad hpad' hleaf hleaf' (by simpa using hm) (by simpa using hm')
    (subset_append_left _ _) (subset_append_right _ _) hclimb
  exact map_inj_of_mem (fun e he e' he' hee => encodedLeaf_inj
    (h.inj _ (hleaves (mem_map_of_mem he)) _ (hleaves' (mem_map_of_mem he')) hee)) heqs

end Injective

/-! ### The cache -/

/-- A call of `Root` between its sections, with the number of changes the tree had seen when it began. -/
structure Pending where
  entries : List Entry
  generation : UInt64
  since : Nat

/-- A tree, the calls of `Root` in progress, and the number of changes that the tree has seen. -/
structure System where
  tree : Tree := {}
  pending : List Pending := []
  changes : Nat := 0

/-- A call that may change the tree; if it does, the generation goes up. -/
def System.put (s : System) (t : Tree) : System :=
  {s with tree := t, changes := if t.generation = s.tree.generation then s.changes else s.changes + 1}

/-- The locked sections. The copy of the entries comes in any order. The generation is a `uint64`, so a call of
`Root` must not be overtaken by all of its values. -/
inductive Step (sum256 : List UInt8 → Digest) (s : System) : System → Prop
  | insert (key value : List UInt8) : Step sum256 s (s.put (s.tree.insert sum256 key value))
  | insertDigest (key : List UInt8) (digest : Digest) : Step sum256 s (s.put (s.tree.insertDigest key digest))
  | delete (key : List UInt8) : Step sum256 s (s.put (s.tree.delete key))
  | begin {entries : List Entry} (hcached : s.tree.cached = none) (hentries : entries.Perm s.tree.snapshotEntries) :
      Step sum256 s {s with pending := ⟨entries, s.tree.generation, s.changes⟩ :: s.pending}
  | finish {p : Pending} {rest : List Pending} (hp : s.pending.Perm (p :: rest)) (hroom : s.changes < p.since + 2 ^ 64) :
      Step sum256 s {s with tree := s.tree.install (rootForEntries sum256 p.entries) p.generation, pending := rest}

inductive Reachable (sum256 : List UInt8 → Digest) : System → Prop
  | new : Reachable sum256 {}
  | step {s s' : System} (h : Reachable sum256 s) (hstep : Step sum256 s s') : Reachable sum256 s'

section Cache
variable {sum256 : List UInt8 → Digest} {s s' : System}

/-- A call of `Root` that no change has overtaken has the entries of the tree. -/
structure Pending.Inv (s : System) (p : Pending) : Prop where
  since_le : p.since ≤ s.changes
  generation : p.generation = .ofNat p.since
  entries : p.since = s.changes → p.entries.Perm s.tree.entries.toList

structure Inv (sum256 : List UInt8 → Digest) (s : System) : Prop where
  generation : s.tree.generation = .ofNat s.changes
  cached : s.tree.hasCachedRoot = true → s.tree.cachedRoot = rootForEntries sum256 s.tree.entries.toList
  pending : ∀ p ∈ s.pending, p.Inv s

theorem Inv.put (h : Inv sum256 s) {t : Tree}
    (ht : t = s.tree ∨ t.generation = s.tree.generation + 1 ∧ t.hasCachedRoot = false) : Inv sum256 (s.put t) := by
  rcases ht with rfl | ⟨hgeneration, hcached⟩
  · have hsame : s.put s.tree = s := by simp [System.put]
    rw [hsame]
    exact h
  have hchanges : (s.put t).changes = s.changes + 1 := by simp [System.put, hgeneration]
  refine ⟨?_, fun hroot => ?_, fun p hp => ?_⟩
  · rw [hchanges, UInt64.ofNat_add, ← h.generation]
    exact hgeneration
  · exact absurd hroot (by simp [System.put, hcached])
  have hbefore := (h.pending p hp).since_le
  refine ⟨by omega, (h.pending p hp).generation, fun hnow => ?_⟩
  omega

theorem insertDigest_cases (t : Tree) (key : List UInt8) (digest : Digest) : t.insertDigest key digest = t ∨
    (t.insertDigest key digest).generation = t.generation + 1 ∧ (t.insertDigest key digest).hasCachedRoot = false := by
  unfold Tree.insertDigest
  split_ifs
  · exact .inl rfl
  · exact .inr ⟨rfl, rfl⟩

theorem delete_cases (t : Tree) (key : List UInt8) : t.delete key = t ∨
    (t.delete key).generation = t.generation + 1 ∧ (t.delete key).hasCachedRoot = false := by
  unfold Tree.delete
  split_ifs
  · exact .inr ⟨rfl, rfl⟩
  · exact .inl rfl

/-- Fewer than `2^64` changes later the same generation is the same state. -/
theorem Pending.Inv.since_eq {p : Pending} (h : p.Inv s) (hs : s.tree.generation = .ofNat s.changes)
    (hroom : s.changes < p.since + 2 ^ 64) (hgeneration : s.tree.generation = p.generation) : p.since = s.changes := by
  rw [hs, h.generation] at hgeneration
  have hmod := congrArg UInt64.toNat hgeneration
  simp only [UInt64.toNat_ofNat'] at hmod
  have hle := h.since_le
  omega

theorem Inv.step (h : Inv sum256 s) (hstep : Step sum256 s s') : Inv sum256 s' := by
  cases hstep with
  | insert key value => exact h.put (insertDigest_cases _ _ _)
  | insertDigest key digest => exact h.put (insertDigest_cases _ _ _)
  | delete key => exact h.put (delete_cases _ _)
  | begin hcached hentries =>
    refine ⟨h.generation, h.cached, fun p hp => ?_⟩
    rcases mem_cons.mp hp with rfl | hp
    · exact ⟨le_rfl, h.generation, fun _ => hentries⟩
    · obtain ⟨hle, hgeneration, hperm⟩ := h.pending p hp
      exact ⟨hle, hgeneration, hperm⟩
  | @finish p rest hp hroom =>
    have hpinv : p.Inv s := h.pending p (hp.mem_iff.mpr (mem_cons_self))
    have hrest : ∀ q ∈ rest, q.Inv s := fun q hq => h.pending q (hp.mem_iff.mpr (mem_cons_of_mem _ hq))
    unfold Tree.install
    split_ifs with hgeneration
    · have hperm := hpinv.entries (hpinv.since_eq h.generation hroom hgeneration)
      refine ⟨h.generation, fun _ => rootForEntries_perm hperm, fun q hq => ?_⟩
      obtain ⟨hle, hgen, hentries⟩ := hrest q hq
      exact ⟨hle, hgen, hentries⟩
    refine ⟨h.generation, h.cached, fun q hq => ?_⟩
    obtain ⟨hle, hgen, hentries⟩ := hrest q hq
    exact ⟨hle, hgen, hentries⟩

theorem Reachable.inv (h : Reachable sum256 s) : Inv sum256 s := by
  induction h with
  | new => exact ⟨rfl, nofun, nofun⟩
  | step _ hstep ih => exact ih.step hstep

/-- `Root` without another call between its sections is two steps, or none. -/
theorem Reachable.root (h : Reachable sum256 s) : Reachable sum256 {s with tree := (s.tree.root sum256).1} := by
  unfold Tree.root
  cases hcached : s.tree.cached with
  | some root => exact h
  | none =>
    have hroom : s.changes < s.changes + 2 ^ 64 := by omega
    have hbegin := h.step (.begin hcached (List.Perm.refl _))
    have hfinish := hbegin.step (.finish (List.Perm.refl _) hroom)
    exact hfinish

theorem Inv.cached_eq (h : Inv sum256 s) {root : Digest} (hroot : s.tree.cached = some root) :
    root = rootForEntries sum256 s.tree.entries.toList := by
  unfold Tree.cached at hroot
  split_ifs at hroot with hvalid
  cases hroot
  simp only [Bool.and_eq_true] at hvalid
  exact h.cached hvalid.1

theorem Inv.root_eq (h : Inv sum256 s) : (s.tree.root sum256).2 = rootForEntries sum256 s.tree.entries.toList := by
  unfold Tree.root
  cases hcached : s.tree.cached with
  | some root => exact h.cached_eq hcached
  | none => rfl

end Cache

/-! ### Differences -/

/-- The keys with a property, in ascending order. -/
structure Lists (keys : List (List UInt8)) (P : List UInt8 → Prop) : Prop where
  ascending : keys.Pairwise (compare · · = .lt)
  mem_iff : ∀ key, key ∈ keys ↔ P key

/-- Keys only left, keys only right, and keys with different digests. -/
structure Difference.Exact (left right : ByteMap Digest) (d : Difference) : Prop where
  leftOnly : Lists d.leftOnly fun key => key ∈ left ∧ key ∉ right
  rightOnly : Lists d.rightOnly fun key => key ∈ right ∧ key ∉ left
  different : Lists d.different fun key => ∃ a b, left[key]? = some a ∧ right[key]? = some b ∧ a ≠ b

theorem lists_sortStrings {f : Entry → Option (List UInt8)}
    (hf : ∀ e key, f e = some key → e.1 = key)
    (hP : ∀ key, P key ↔ ∃ digest, m[key]? = some digest ∧ f (key, digest) = some key) :
    Lists (sortStrings (m.toList.filterMap f)) P := by
  have hascending : (m.toList.filterMap f).Pairwise (compare · · = .lt) := by
    refine List.Pairwise.filterMap f (fun e e' hlt key hkey key' hkey' => ?_) m.ordered_keys_toList
    rw [← hf e key hkey, ← hf e' key' hkey']
    exact hlt
  have hsorted : sortStrings (m.toList.filterMap f) = m.toList.filterMap f :=
    mergeSort_of_pairwise (hascending.imp fun hlt => by rw [hlt]; rfl)
  rw [hsorted]
  refine ⟨hascending, fun key => ?_⟩
  rw [mem_filterMap, hP]
  constructor
  · intro ⟨e, he, hkey⟩
    obtain rfl := hf e key hkey
    exact ⟨e.2, mem_toList.mp he, hkey⟩
  · intro ⟨digest, hdigest, hkey⟩
    exact ⟨(key, digest), mem_toList.mpr hdigest, hkey⟩

theorem lists_missing (left right : ByteMap Digest) :
    Lists (sortStrings (left.toList.filterMap fun p => if right[p.1]? = none then some p.1 else none))
      fun key => key ∈ left ∧ key ∉ right := by
  refine lists_sortStrings (fun e key hkey => ?_) fun key => ?_
  · split_ifs at hkey
    exact Option.some.inj hkey
  · rw [mem_iff, not_mem_iff]
    simp

theorem lists_nil (h : ∀ key, ¬ P key) : Lists [] P :=
  ⟨List.Pairwise.nil, fun key => iff_of_false not_mem_nil (h key)⟩

theorem exact_self (m : ByteMap Digest) : ({} : Difference).Exact m m where
  leftOnly := lists_nil fun _ h => h.2 h.1
  rightOnly := lists_nil fun _ h => h.2 h.1
  different := lists_nil fun _ ⟨_, _, ha, hb, hne⟩ => hne (Option.some.inj (ha.symm.trans hb))

@[simp] theorem Tree.root_entries (sum256 : List UInt8 → Digest) (t : Tree) : (t.root sum256).1.entries = t.entries := by
  unfold Tree.root Tree.install
  cases t.cached with
  | some root => rfl
  | none => simp

/-- `Diff` is exact if equal roots mean equal entries. -/
theorem diff_exact {left right : Tree}
    (h : (left.root sum256).2 = (right.root sum256).2 → left.entries = right.entries) :
    (diff sum256 left right).2.2.Exact left.entries right.entries := by
  unfold diff
  dsimp only
  split_ifs with hroot
  · rw [h hroot]
    exact exact_self _
  simp only [Tree.root_entries]
  refine ⟨lists_missing _ _, lists_missing _ _, lists_sortStrings (fun e key hkey => ?_) fun key => ?_⟩
  · cases hremote : right.entries[e.1]? with
    | none => simp [hremote] at hkey
    | some remote => exact (by simpa [hremote] using hkey : _ ∧ e.1 = key).2
  constructor
  · intro ⟨a, b, ha, hb, hne⟩
    exact ⟨a, ha, by simp [hb, hne]⟩
  intro ⟨a, ha, hkey⟩
  cases hb : right.entries[key]? with
  | none => simp [hb] at hkey
  | some b => exact ⟨a, b, ha, rfl, by simpa [hb] using hkey⟩

/-- The cached root is the root of the entries; two trees have the same root exactly if they have the same
entries; and `Diff` returns the keys only left, only right, and with different digests. -/
theorem roots_decide (sum256 : List UInt8 → Digest) (s s' : System) (hs : Reachable sum256 s)
    (hs' : Reachable sum256 s')
    (h : CollisionFree sum256 (hashed sum256 s.tree.entries ++ hashed sum256 s'.tree.entries)) :
    (∀ root, s.tree.cached = some root → root = rootForEntries sum256 s.tree.entries.toList) ∧
      ((s.tree.root sum256).2 = (s'.tree.root sum256).2 ↔ s.tree.entries = s'.tree.entries) ∧
      (diff sum256 s.tree s'.tree).2.2.Exact s.tree.entries s'.tree.entries := by
  have hiff : (s.tree.root sum256).2 = (s'.tree.root sum256).2 ↔ s.tree.entries = s'.tree.entries := by
    rw [hs.inv.root_eq, hs'.inv.root_eq]
    constructor
    · exact rootForEntries_inj h (subset_append_left _ _) (subset_append_right _ _)
    · intro heq
      rw [heq]
  exact ⟨fun _ => hs.inv.cached_eq, hiff, diff_exact hiff.mp⟩

/-- A digest without collisions on the few strings below. -/
def checksum (data : List UInt8) : Digest :=
  let n := data.foldl (fun n byte => (n * 257 + byte.toNat + 1) % 2 ^ 256) 7
  Vector.ofFn fun i => .ofNat (n / 256 ^ i.val)

/-- One entry, and three of which it is the first. -/
theorem roots_decide_one_three : let one : System := ({} : System).put (({} : Tree).insert checksum [1] [])
    let two : System := one.put (one.tree.insert checksum [2] [5])
    let three : System := two.put (two.tree.insert checksum [3] [7])
    ((one.tree.root checksum).2 = (three.tree.root checksum).2 ↔ one.tree.entries = three.tree.entries) ∧
      (diff checksum one.tree three.tree).2.2.Exact one.tree.entries three.tree.entries := by
  intro one two three
  have hone : Reachable checksum one := Reachable.new.step (.insert [1] [])
  have hthree : Reachable checksum three := (hone.step (.insert [2] [5])).step (.insert [3] [7])
  have hfree : CollisionFree checksum (hashed checksum one.tree.entries ++ hashed checksum three.tree.entries) :=
    ⟨by decide +kernel, by decide +kernel⟩
  exact (roots_decide checksum one three hone hthree hfree).2

end Crdt.Merkle
