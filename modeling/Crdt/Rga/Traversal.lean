import Crdt.Rga.Acyclic
import Crdt.Rga.Rebuild

/-! Local edits, as the traversal sees them.

A local insertion is a chain of new nodes with tags greater than all before. Such a
chain stands right behind its anchor in the traversal (`traversal_growChain`), and so it
is spliced into the visible positions behind those up to the anchor
(`projection_growChain`). Tombstones take positions out and move nothing else. -/
namespace Crdt.Rga

open Sequence Forest MapLoop List

variable {V : Type} {nodes : TagMap (Node V)} {tombstones : TagSet} {p id : Position}

/-! ### The traversal -/

theorem traversal_eq (nodes : TagMap (Node V)) : traversal nodes = (marksOf nodes).filterMap Mark.entered := by
  rw [traversal, preorder_eq_walk]
  rfl

section
variable (h : Forested nodes)
include h

theorem nodup_traversal : (traversal nodes).Nodup := by
  rw [traversal_eq]
  refine h.nodup_marksOf.filterMap fun m m' p hm hm' => ?_
  cases m <;> cases m' <;> simp_all [Mark.entered]

theorem mem_traversal : p ∈ traversal nodes ↔ p = .zero ∨ p ∈ nodes := by
  rw [traversal_eq, mem_filterMap, ← h.enter_mem_marksOf]
  constructor
  · rintro ⟨m, hm, he⟩
    cases m with
    | enter q => exact Option.some.inj he ▸ hm
    | exit q => simp [Mark.entered] at he
  · exact fun hm => ⟨_, hm, rfl⟩

theorem mem_projection : p ∈ projection nodes tombstones ↔ p ∈ nodes ∧ p ∉ tombstones := by
  rw [projection, List.mem_filter, mem_traversal h]
  simp only [shown, Bool.and_eq_true, decide_eq_true_eq, Bool.not_eq_true', TagSet.contains_eq_false]
  constructor
  · rintro ⟨hp | hp, hz, ht⟩
    · exact (hz hp).elim
    · exact ⟨hp, ht⟩
  rintro ⟨hp, ht⟩
  refine ⟨.inr hp, ?_, ht⟩
  rintro rfl
  exact h.zero_not_mem hp

theorem nodup_projection : (projection nodes tombstones).Nodup := (nodup_traversal h).filter _

end

variable {before after : List Position}

/-- A new node with the greatest tag is the first child of its parent, and stands right
behind it. -/
theorem traversal_insert (item : Node V) (h : Forested nodes) (hid : id ∉ nodes)
    (hv : id.valid = true) (hp : item.parent = .zero ∨ item.parent ∈ nodes) (hgreat : ∀ x ∈ nodes, x < id)
    (ht : traversal nodes = before ++ item.parent :: after) :
    traversal (nodes.insert id item) = before ++ item.parent :: id :: after := by
  obtain ⟨mb, ma, hm⟩ := append_of_mem (h.enter_mem_marksOf.mpr hp)
  have hsplit : traversal nodes =
      mb.filterMap Mark.entered ++ item.parent :: ma.filterMap Mark.entered := by
    rw [traversal_eq, hm, filterMap_append]
    rfl
  have hnodup := h.nodup_marksOf
  obtain ⟨rfl, rfl⟩ := append_inj_of_nodup (ht ▸ nodup_traversal h) (ht.symm.trans hsplit)
  have hkids : kidsOf nodes item.parent = [] ++ kidsOf nodes item.parent := rfl
  have hmarks := marksOf_insert h hid hv hp hkids (by simp) fun x hx =>
    hgreat x (mem_of_parentOf (mem_kidsOf.mp hx))
  rw [traversal_eq, hmarks, hm]
  rw [hm] at hnodup
  change (splice (Mark.enter item.parent) _ _).filterMap _ = _
  rw [splice_of_nodup hnodup, filterMap_append]
  rfl

/-! ### Chains -/

/-- A chain of new nodes below `parent`. -/
def growChain (nodes : TagMap (Node V)) (parent : Position) : List (Position × V) → TagMap (Node V)
  | [] => nodes
  | (id, value) :: rest => growChain (nodes.insert id ⟨parent, value⟩) id rest

/-- Tags in ascending order, all of them new. -/
structure FreshTags (nodes : TagMap (Node V)) (tombstones : TagSet) (ids : List Position) : Prop where
  valid : ∀ x ∈ ids, x.valid = true
  ascending : ids.Pairwise (· < ·)
  above : ∀ x ∈ ids, ∀ y ∈ nodes, y < x
  shown : ∀ x ∈ ids, x ∉ tombstones

variable {ids : List Position} {x : Position}

theorem FreshTags.not_mem (h : FreshTags nodes tombstones ids)
    (hx : x ∈ ids) : x ∉ nodes := fun hm => lt_irrefl x (h.above x hx x hm)

theorem FreshTags.tail {item : Node V} (h : FreshTags nodes tombstones (id :: ids)) :
    FreshTags (nodes.insert id item) tombstones ids := by
  obtain ⟨hlt, hasc⟩ := pairwise_cons.mp h.ascending
  refine ⟨fun x hx => h.valid x (by simp [hx]), hasc, fun x hx y hy => ?_,
    fun x hx => h.shown x (by simp [hx])⟩
  rw [mem_insert] at hy
  rcases hy with rfl | hy
  · exact hlt x hx
  · exact h.above x (by simp [hx]) y hy

variable {l : List (Position × V)}

/-- A chain grows below its anchor and keeps a forest a forest. -/
theorem traversal_growChain (h : Forested nodes)
    (hf : FreshTags nodes tombstones (l.map Prod.fst)) (hp : p = .zero ∨ p ∈ nodes)
    (ht : traversal nodes = before ++ p :: after) : Forested (growChain nodes p l) ∧
      traversal (growChain nodes p l) = before ++ p :: (l.map Prod.fst ++ after) := by
  induction l generalizing nodes p before with
  | nil => exact ⟨h, ht⟩
  | cons x l ih =>
    obtain ⟨id, value⟩ := x
    have hid : id ∉ nodes := hf.not_mem (by simp)
    have hv := hf.valid id (by simp)
    have hins := traversal_insert ⟨p, value⟩ h hid hv hp (hf.above id (by simp)) ht
    have hins' : traversal (nodes.insert id ⟨p, value⟩) = (before ++ [p]) ++ id :: after := by
      simpa using hins
    obtain ⟨hfor, htrav⟩ := ih (h.insert hv hid hp) hf.tail (.inr (by simp)) hins'
    exact ⟨hfor, by simpa [growChain] using htrav⟩

theorem getElem?_growChain (hl : (l.map Prod.fst).Nodup) (x : Position) :
    (growChain nodes p l)[x]? = ((growChain ∅ p l)[x]?).or nodes[x]? := by
  induction l generalizing nodes p with
  | nil => simp [growChain]
  | cons y l ih =>
    obtain ⟨id, value⟩ := y
    obtain ⟨hid, hl⟩ := nodup_cons.mp hl
    simp only [growChain]
    rw [ih hl, @ih ((∅ : TagMap (Node V)).insert id ⟨p, value⟩) id hl, get?_insert, get?_insert]
    cases (growChain (∅ : TagMap (Node V)) id l)[x]? with
    | some item => rfl
    | none =>
      split_ifs <;> simp

theorem mem_growChain : x ∈ growChain nodes p l ↔ x ∈ nodes ∨ x ∈ l.map Prod.fst := by
  induction l generalizing nodes p with
  | nil => simp [growChain]
  | cons y l ih =>
    rw [growChain, ih, mem_insert]
    simp only [map_cons, mem_cons, eq_comm (a := x)]
    tauto

theorem value_growChain (hl : (l.map Prod.fst).Nodup) {value : V}
    (hid : (id, value) ∈ l) : (growChain nodes p l)[id]?.map Node.value = some value := by
  induction l generalizing nodes p with
  | nil => simp at hid
  | cons y l ih =>
    obtain ⟨hnot, hl'⟩ := nodup_cons.mp hl
    rcases mem_cons.mp hid with he | hid
    · cases he
      have hout : (growChain (∅ : TagMap (Node V)) id l)[id]? = none :=
        not_mem_iff.mp fun hm => (mem_growChain.mp hm).elim (by simp) hnot
      rw [growChain, getElem?_growChain hl', hout]
      simp
    · exact ih hl' hid

theorem keys_growChain (hl : (l.map Prod.fst).Pairwise (· < ·)) :
    (growChain (∅ : TagMap (Node V)) p l).keys = l.map Prod.fst := by
  have hkeys : (growChain (∅ : TagMap (Node V)) p l).keys.Pairwise (· < ·) :=
    (growChain (∅ : TagMap (Node V)) p l).ordered_keys.imp fun h => (Tag.compare_eq_lt_iff _ _).mp h
  refine List.Perm.eq_of_pairwise (fun a b _ _ hab hba => absurd hab (not_lt.mpr hba.le)) hkeys hl ?_
  refine (perm_ext_iff_of_nodup (hkeys.imp ne_of_lt) (hl.imp ne_of_lt)).mpr fun x => ?_
  rw [Std.ExtTreeMap.mem_keys, mem_growChain]
  simp

theorem size_growChain (hl : (l.map Prod.fst).Nodup)
    (hnew : ∀ x ∈ l.map Prod.fst, x ∉ nodes) : (growChain nodes p l).size = nodes.size + l.length := by
  induction l generalizing nodes p with
  | nil => rfl
  | cons y l ih =>
    obtain ⟨id, value⟩ := y
    obtain ⟨hid, hl⟩ := nodup_cons.mp hl
    rw [growChain, ih hl fun x hx hm => ?_, Std.ExtTreeMap.size_insert, if_neg (by simpa using hnew id (by simp)),
      length_cons]
    · omega
    rw [mem_insert] at hm
    rcases hm with rfl | hm
    · exact hid hx
    · exact hnew x (by simp [hx]) hm

/-! ### Visible positions -/

/-- How many of the visible positions stand at or before `p` in the traversal. -/
def visibleThrough (nodes : TagMap (Node V)) (tombstones : TagSet) (p : Position) : Nat :=
  (((traversal nodes).take ((traversal nodes).idxOf p + 1)).filter (shown tombstones)).length

section
variable (h : Forested nodes)
include h

theorem visibleThrough_eq (ht : traversal nodes = before ++ p :: after) :
    visibleThrough nodes tombstones p = ((before ++ [p]).filter (shown tombstones)).length := by
  have hp : p ∉ before := fun hm =>
    (nodup_append.mp (ht ▸ nodup_traversal h)).2.2 p hm p (by simp) rfl
  rw [visibleThrough, ht, idxOf_append_of_notMem hp]
  simp [take_append, take_of_length_le (Nat.le_succ before.length)]

/-- A fresh chain is spliced into the visible positions behind its anchor. -/
theorem projection_growChain
    (hf : FreshTags nodes tombstones (l.map Prod.fst)) (hp : p = .zero ∨ p ∈ nodes) :
    projection (growChain nodes p l) tombstones =
      (projection nodes tombstones).take (visibleThrough nodes tombstones p) ++ l.map Prod.fst ++
        (projection nodes tombstones).drop (visibleThrough nodes tombstones p) := by
  obtain ⟨before, after, ht⟩ := append_of_mem ((mem_traversal h).mpr hp)
  have hsplit : projection nodes tombstones =
      (before ++ [p]).filter (shown tombstones) ++ after.filter (shown tombstones) := by
    rw [projection, ht, ← filter_append]
    simp
  have hshown : (l.map Prod.fst).filter (shown tombstones) = l.map Prod.fst := by
    refine filter_eq_self.mpr fun x hx => ?_
    simp [shown, Tag.ne_zero_of_valid (hf.valid x hx), TagSet.contains_eq_false.mpr (hf.shown x hx)]
  rw [visibleThrough_eq h ht, hsplit, take_left, drop_left, projection, (traversal_growChain h hf hp ht).2]
  have : before ++ p :: (l.map Prod.fst ++ after) = before ++ [p] ++ l.map Prod.fst ++ after := by simp
  rw [this, filter_append, filter_append, hshown]

theorem visibleThrough_getElem {k : Nat}
    (hk : (projection nodes tombstones)[k]? = some p) : visibleThrough nodes tombstones p = k + 1 := by
  have hmem := mem_of_getElem? hk
  obtain ⟨before, after, ht⟩ := append_of_mem ((mem_traversal h).mpr (.inr ((mem_projection h).mp hmem).1))
  have hshown : shown tombstones p = true := (List.mem_filter.mp hmem).2
  rw [visibleThrough_eq h ht]
  have hsplit : projection nodes tombstones =
      before.filter (shown tombstones) ++ p :: after.filter (shown tombstones) := by
    rw [projection, ht, filter_append, filter_cons_of_pos hshown]
  have hnodup : (projection nodes tombstones).Nodup := nodup_projection h
  have hk' : (projection nodes tombstones)[(before.filter (shown tombstones)).length]? = some p := by
    rw [hsplit]
    simp
  rw [(List.getElem?_inj (List.getElem?_eq_some_iff.mp hk).1 hnodup).mp (hk.trans hk'.symm)]
  simp [hshown]

theorem visibleThrough_zero : visibleThrough nodes tombstones .zero = 0 := by
  have ht : traversal nodes = [] ++ .zero :: (traversal nodes).tail := by
    rfl
  rw [visibleThrough_eq h ht]
  simp

end

/-- More tombstones take positions out, and leave the others in their order. -/
theorem projection_tombstones {tombstones' : TagSet}
    (ht : ∀ x, x ∈ tombstones' ↔ x ∈ tombstones ∨ x ∈ ids) :
    projection nodes tombstones' = (projection nodes tombstones).filter (· ∉ ids) := by
  rw [projection, projection, filter_filter]
  refine filter_congr fun x _ => ?_
  have : tombstones'.contains x = (tombstones.contains x || decide (x ∈ ids)) := by
    rw [Bool.eq_iff_iff, Bool.or_eq_true, Std.ExtTreeSet.contains_iff_mem,
      Std.ExtTreeSet.contains_iff_mem, decide_eq_true_eq, ht]
  rw [shown, shown, this]
  cases tombstones.contains x <;> simp [Bool.and_comm]

end Crdt.Rga
