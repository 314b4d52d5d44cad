import Crdt.Rga.Leaf

/-! Rebuilding the index of a complete node set.

`buildSequence` integrates a decoded node set from the root outwards and accepts it only
if that reaches every node, which is to say if the nodes form a forest
(`buildSequence_spec`). -/
namespace Crdt.Rga

open Sequence Forest MapLoop List
open Std.ExtTreeMap (ext_getElem? length_keys)

/-! ### Worklists -/

variable {V : Type} {id : Position} {nodes : TagMap (Node V)}

theorem mem_byParent {p id : Position} : id ∈ byParent nodes p ↔ parentOf nodes id = some p := by
  simp only [byParent, List.mem_filter, Std.ExtTreeMap.mem_keys, decide_eq_true_eq]
  exact ⟨fun h => h.2, fun h => ⟨mem_of_parentOf h, h⟩⟩

theorem nodup_byParent (nodes : TagMap (Node V)) (p : Position) :
    (byParent nodes p).Nodup := nodes.nodup_keys.filter _

/-- How many of the nodes are not in a set yet. -/
def remaining (nodes : TagMap (Node V)) (done : Position → Bool) : Nat :=
  (nodes.keys.filter fun id => !done id).length

theorem remaining_lt (done done' : Position → Bool)
    (hid : id ∈ nodes) (hnot : done id = false) (hdone : done' id = true)
    (hmono : ∀ x, done x = true → done' x = true) : remaining nodes done' < remaining nodes done := by
  unfold remaining
  have hsub : (nodes.keys.filter fun x => !done' x) ⊆ (nodes.keys.filter fun x => !done x).erase id := by
    intro x hx
    rw [List.mem_filter] at hx
    have hne : x ≠ id := by
      rintro rfl
      simp [hdone] at hx
    refine (mem_erase_of_ne hne).mpr (List.mem_filter.mpr ⟨hx.1, ?_⟩)
    by_contra hd
    have : done' x = true := hmono x (by simpa using hd)
    simp [this] at hx
  have hmem : id ∈ nodes.keys.filter fun x => !done x := by
    simp [hid, hnot]
  have hle := ((nodes.nodup_keys.filter fun x => !done' x)).length_le_of_subset hsub
  rw [length_erase_of_mem hmem] at hle
  have := length_pos_of_mem hmem
  omega

theorem remaining_le_size (nodes : TagMap (Node V)) (done : Position → Bool) :
    remaining nodes done ≤ nodes.size := by
  rw [← length_keys]
  exact length_filter_le ..

/-! ### The loop -/

variable {nodes part : TagMap (Node V)} {tombstones : TagSet} {ready : List Position}

theorem eq_of_size {m m' : TagMap (Node V)}
    (hsub : ∀ (x : Position) item, m[x]? = some item → m'[x]? = some item) (hsize : m.size = m'.size) :
    m = m' := by
  have hkeys : m.keys ⊆ m'.keys := fun x hx => by
    rw [Std.ExtTreeMap.mem_keys, mem_iff] at hx ⊢
    exact hx.imp fun item => hsub x item
  have hperm := (subperm_of_subset m.nodup_keys hkeys).perm_of_length_le (by
    rw [length_keys, length_keys, hsize])
  refine ext_getElem? fun x => ?_
  cases hx : m[x]? with
  | some item => exact (hsub x item hx).symm
  | none =>
    refine (not_mem_iff.mp fun hm => not_mem_iff.mpr hx ?_).symm
    exact Std.ExtTreeMap.mem_keys.mp (hperm.mem_iff.mpr (Std.ExtTreeMap.mem_keys.mpr hm))

/-- A queue that holds exactly the nodes within reach of the integrated part. -/
structure ReadyQueue (nodes part : TagMap (Node V)) (ready : List Position) : Prop where
  nodup : ready.Nodup
  mem : ∀ x, x ∈ ready ↔ x ∉ part ∧ ∃ p, parentOf nodes x = some p ∧ (p = .zero ∨ p ∈ part)

theorem ReadyQueue.closed (h : ReadyQueue nodes part []) (x p : Position) (hp : parentOf nodes x = some p)
    (hr : p = .zero ∨ p ∈ part) : x ∈ part := by
  by_contra hx
  simpa using (h.mem x).mpr ⟨hx, p, hp, hr⟩

theorem ReadyQueue.remaining_ne_zero (h : ReadyQueue nodes part (id :: ready)) :
    remaining nodes (part.contains ·) ≠ 0 := by
  obtain ⟨hid, p, hp, _⟩ := (h.mem id).mp (by simp)
  have := remaining_lt (part.contains ·) (fun _ => true) (mem_of_parentOf hp)
    (TagMap.contains_eq_false.mpr hid) rfl (fun _ _ => rfl)
  omega

theorem ReadyQueue.step (item : Node V) (h : ReadyQueue nodes part (id :: ready))
    (hf : Forested part) (hvalid : id.valid = true)
    (hagree : ∀ x ∈ nodes, x ∈ part → part[x]? = nodes[x]?) :
    ReadyQueue nodes (part.insert id item) (ready ++ byParent nodes id) ∧
      remaining nodes ((part.insert id item).contains ·) < remaining nodes (part.contains ·) := by
  have hidz := Tag.ne_zero_of_valid hvalid
  obtain ⟨hidr, hnodup⟩ := nodup_cons.mp h.nodup
  obtain ⟨hid, p, hparent, hreach⟩ := (h.mem id).mp (by simp)
  have hmem : ∀ x, x ∈ part.insert id item ↔ id = x ∨ x ∈ part := fun x => by
    rw [mem_insert]
  -- the children of the new node wait for it, so none of them is integrated
  have hchild : ∀ x, parentOf nodes x = some id → x ∉ part ∧ id ≠ x := by
    intro x hxp
    refine ⟨fun hxn => ?_, ?_⟩
    · have hsame : parentOf part x = some id := by
        rw [parentOf, hagree x (mem_of_parentOf hxp) hxn]
        exact hxp
      exact (hf.parent_known hsame).elim hidz hid
    rintro rfl
    rw [hxp] at hparent
    exact hreach.elim (fun hz => hidz ((Option.some.inj hparent).trans hz))
      fun hm => hid (Option.some.inj hparent ▸ hm)
  refine ⟨⟨nodup_append.mpr ⟨hnodup, nodup_byParent _ _, ?_⟩, fun x => ?_⟩, ?_⟩
  · rintro x hx _ hx' rfl
    obtain ⟨_, q, hq, hqr⟩ := (h.mem x).mp (by simp [hx])
    rw [mem_byParent.mp hx'] at hq
    cases hq
    exact hqr.elim hidz hid
  · rw [mem_append, mem_byParent, hmem]
    simp only [hmem]
    have hx := h.mem x
    rw [mem_cons] at hx
    constructor
    · rintro (hxr | hxc)
      · obtain ⟨h₁, q, hq, hqr⟩ := hx.mp (.inr hxr)
        refine ⟨?_, q, hq, hqr.imp_right .inr⟩
        rintro (rfl | hxn)
        · exact hidr hxr
        · exact h₁ hxn
      · obtain ⟨h₁, h₂⟩ := hchild x hxc
        exact ⟨fun hor => hor.elim h₂ h₁, id, hxc, .inr (.inl rfl)⟩
    rintro ⟨h₁, q, hq, hqr⟩
    by_cases hqi : id = q
    · exact .inr (hqi ▸ hq)
    · refine .inl ((hx.mpr ⟨fun hxn => h₁ (.inr hxn), q, hq, ?_⟩).resolve_left fun he => h₁ (.inl he.symm))
      exact hqr.imp_right fun hor => hor.resolve_left hqi
  · refine remaining_lt _ _ (mem_of_parentOf hparent) (TagMap.contains_eq_false.mpr hid) (by simp) fun x hx => ?_
    exact (hmem x).mpr (.inr hx)

theorem readyQueue_roots (hnew : ∀ x ∈ nodes, x ∉ part)
    (hvalid : ∀ x p, parentOf nodes x = some p → p = .zero ∨ p.valid = true) :
    ReadyQueue nodes part (nodes.keys.filter fun id =>
      (parentOf nodes id).any fun parent => !parent.valid || part.contains parent) := by
  refine ⟨nodes.nodup_keys.filter _, fun x => ?_⟩
  simp only [List.mem_filter, Std.ExtTreeMap.mem_keys, Option.any_eq_true, Bool.or_eq_true, Bool.not_eq_true',
    Std.ExtTreeMap.contains_iff_mem]
  constructor
  · rintro ⟨hx, p, hp, hr⟩
    exact ⟨hnew x hx, p, hp, hr.imp_left fun hinv => (hvalid x p hp).resolve_right (by simp [hinv])⟩
  · rintro ⟨_, p, hp, hr⟩
    exact ⟨mem_of_parentOf hp, p, hp, hr.imp_left fun hz => by rw [hz]; rfl⟩

theorem ReadyQueue.integrate (pkg : Package V) {r : Replica V} (h : ReadyQueue nodes r.nodes (id :: ready))
    (hvalid : ∀ x ∈ nodes, x.valid = true) (hix : Indexed r.nodes r.tombstones r.sequence r.children)
    (hagree : ∀ x ∈ nodes, x ∈ r.nodes → r.nodes[x]? = nodes[x]?) :
    ∃ item s' ch', nodes[id]? = some item ∧ id ∉ r.nodes ∧
      Replica.integrateNode pkg {r with nodes := r.nodes.insert id item} id item =
        some {r with nodes := r.nodes.insert id item, sequence := s', children := ch'} ∧
      Indexed (r.nodes.insert id item) r.tombstones s' ch' ∧
      ReadyQueue nodes (r.nodes.insert id item) (ready ++ byParent nodes id) ∧
      remaining nodes ((r.nodes.insert id item).contains ·) < remaining nodes (r.nodes.contains ·) ∧
      ∀ x ∈ nodes, x ∈ r.nodes.insert id item → (r.nodes.insert id item)[x]? = nodes[x]? := by
  obtain ⟨hid, p, hparent, hreach⟩ := (h.mem id).mp (by simp)
  have hidv := hvalid id (mem_of_parentOf hparent)
  obtain ⟨item, hitem, rfl⟩ := parentOf_eq_some.mp hparent
  obtain ⟨s', ch', hint, hix'⟩ := integrateNode_spec pkg
    (r := {r with nodes := r.nodes.insert id item}) item hix hid hidv hreach
  obtain ⟨hready, hlt⟩ := h.step item hix.forested hidv hagree
  refine ⟨item, s', ch', hitem, hid, hint, hix', hready, hlt, fun x hx hxn => ?_⟩
  rw [mem_insert] at hxn
  rw [get?_insert]
  split_ifs with he
  · rw [← he, hitem]
  · exact hagree x hx (hxn.resolve_left he)

theorem buildSequenceLoop_spec (pkg : Package V) (hvalid : ∀ x ∈ nodes, x.valid = true) {n : Nat}
    (value : Replica V) (htomb : value.tombstones = tombstones)
    (h : Indexed part tombstones value.sequence value.children)
    (hpart : ∀ (x : Position) item, part[x]? = some item → nodes[x]? = some item) (hready : ReadyQueue nodes part ready)
    (hn : remaining nodes (part.contains ·) ≤ n) :
    ∃ value' part', buildSequenceLoop pkg nodes n value ready part.size = some (some (value', part'.size)) ∧
      Indexed part' tombstones value'.sequence value'.children ∧
      (∀ (x : Position) item, part'[x]? = some item → nodes[x]? = some item) ∧
      ∀ x p, parentOf nodes x = some p → p = .zero ∨ p ∈ part' → x ∈ part' := by
  induction n generalizing value part ready with
  | zero =>
    cases ready with
    | nil => exact ⟨value, part, rfl, h, hpart, hready.closed⟩
    | cons id ready => exact absurd (Nat.le_zero.mp hn) hready.remaining_ne_zero
  | succ n ih =>
    cases ready with
    | nil => exact ⟨value, part, rfl, h, hpart, hready.closed⟩
    | cons id ready =>
      obtain ⟨hid, p, hparent, hreach⟩ := (hready.mem id).mp (by simp)
      have hidv := hvalid id (mem_of_parentOf hparent)
      obtain ⟨item, hitem, rfl⟩ := parentOf_eq_some.mp hparent
      subst htomb
      obtain ⟨s', ch', hint, hix⟩ := integrateNode_spec pkg item h hid hidv hreach
      obtain ⟨l, hl⟩ := h.holds
      obtain ⟨pair, hpair⟩ := hl.exists_pair_iff.mpr (h.forested.enter_mem_marksOf.mpr hreach)
      have hentry : value.sequence.entry item.parent ≠ none := by
        simp [SequenceIndex.entry, SequenceIndex.pair, hpair]
      have hsize : (part.insert id item).size = part.size + 1 := by
        rw [Std.ExtTreeMap.size_insert, if_neg (by simpa using hid)]
      have hagree : ∀ x ∈ nodes, x ∈ part → part[x]? = nodes[x]? := by
        intro x _ hx
        obtain ⟨it, hit⟩ := mem_iff.mp hx
        rw [hit, hpart x it hit]
      obtain ⟨hready, hlt⟩ := hready.step item h.forested hidv hagree
      have hpart' : ∀ (x : Position) it, (part.insert id item)[x]? = some it → nodes[x]? = some it := by
        intro x it hx
        rw [get?_insert] at hx
        split_ifs at hx with he
        · rw [← he, hitem, ← hx]
        · exact hpart x it hx
      obtain ⟨value', part', hloop, hrest⟩ :=
        ih {value with sequence := s', children := ch'} rfl hix hpart' hready (by omega)
      refine ⟨value', part', ?_, hrest⟩
      rw [hsize] at hloop
      rw [buildSequenceLoop, hitem]
      simp only [hentry, hint]
      exact hloop

/-- A node set is accepted exactly when it is a forest, and then the index holds it. -/
theorem buildSequence_spec (pkg : Package V) (nodes : TagMap (Node V))
    (hvalid : ∀ x ∈ nodes, x.valid = true) (tombstones : TagSet) :
    ∃ res, buildSequence pkg nodes tombstones = some res ∧ (res.isSome ↔ Forested nodes) ∧
      ∀ s ch, res = some (s, ch) → Indexed nodes tombstones s ch := by
  obtain ⟨value, hnew, hinv, _, hn, _, ht⟩ := newReplica_spec V
  have hix : Indexed (∅ : TagMap (Node V)) tombstones value.sequence value.children := by
    have h := hinv.indexed
    rw [hn] at h
    obtain ⟨l, hl⟩ := h.holds
    refine ⟨h.forested, ⟨l, Holds.visibility hl fun p hp => ?_⟩, h.kids⟩
    rcases h.forested.enter_mem_marksOf.mp hp with rfl | hp
    · simp
    · simp at hp
  obtain ⟨value', part, hloop, hix', hpart, hclosed⟩ := buildSequenceLoop_spec pkg hvalid
    (n := nodes.size + 1) {value with nodes, tombstones} rfl hix (by simp)
    ⟨nodup_byParent nodes .zero, fun x => by simp [mem_byParent]⟩
    (Nat.le_succ_of_le (remaining_le_size _ _))
  have hrun : buildSequence pkg nodes tombstones =
      some (if part.size ≠ nodes.size then none else some (value'.sequence, value'.children)) := by
    unfold buildSequence
    rw [hnew]
    simp only [Option.bind_eq_bind, Option.bind_some]
    rw [show (0 : Nat) = (∅ : TagMap (Node V)).size by simp, hloop]
    rfl
  refine ⟨_, hrun, ?_, ?_⟩
  · split_ifs with hsize
    · refine ⟨fun h => by simp at h, fun hf => (hsize ?_).elim⟩
      have hall : ∀ x ∈ nodes, x ∈ part := fun x hx =>
        (hf.rooted x hx).least (fun x => x ∈ part) hclosed
      refine congrArg _ (ext_getElem? fun x => ?_)
      cases hx : nodes[x]? with
      | none =>
        refine not_mem_iff.mp fun hm => ?_
        obtain ⟨item, hitem⟩ := mem_iff.mp hm
        rw [hpart x item hitem] at hx
        simp at hx
      | some item =>
        obtain ⟨it, hit⟩ := mem_iff.mp (hall x (mem_iff.mpr ⟨item, hx⟩))
        rw [hit, ← hpart x it hit, hx]
    · have := eq_of_size hpart (not_not.mp hsize)
      exact ⟨fun _ => this ▸ hix'.forested, fun _ => rfl⟩
  intro s ch hs
  split_ifs at hs with hsize
  cases hs
  have := eq_of_size hpart (not_not.mp hsize)
  exact this ▸ hix'

end Crdt.Rga
