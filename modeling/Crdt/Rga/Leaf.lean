import Crdt.Rga.Pending

/-! Leaves leave the index.

Compaction takes leaves out of the forest, one by one or a batch at a time. Seen from
the child index, that is two steps: the child lists of the parents shrink
(`ChildIndex.Rep.shrink`), and the removed positions, which have no children left, are no
longer registered (`ChildIndex.Rep.unregister`). The sequence index loses the two marks
of each leaf (`removeLeaf_marks`). -/
namespace Crdt.Rga

open Sequence Forest MapLoop List

variable {V : Type}

namespace ChildIndex

variable {index index' : ChildIndex} {s s' : SequenceIndex} {kids : Position → List Position}
  {p : Position} {parent : Nat}

variable (h : index.Rep s kids) (hpos : ∀ (q : Position) x, s.pairs[q]? = some x → s.position x = q)
include h hpos

theorem Rep.shrink (hparent : s.pairs[p]? = some parent) (keep : Position → Bool)
    (hup : index.Updates s parent ((index.siblings s parent).filter fun x => keep (s.position x))
      index' s') : index'.Rep s' fun q => if q = p then (kids p).filter keep else kids q := by
  have hupd := h.update hpos hparent hup fun x hx => h.registered p parent hparent x (mem_of_mem_filter hx)
  rw [← h.siblings p parent hparent, filter_map]
  exact hupd

theorem Rep.unregister (hk : s.Kept s') (gone : Position → Prop)
    (hpairs : ∀ (q : Position) x, s'.pairs[q]? = some x ↔ ¬ gone q ∧ s.pairs[q]? = some x)
    (hkids : ∀ q, ¬ gone q → ∀ x ∈ kids q, ¬ gone x) (hgone : ∀ q, gone q → kids q = []) :
    index.Rep s' kids := by
  suffices hrep : index.Rep {s with pairs := s'.pairs} kids from
    hrep.kept ⟨hk.position, hk.singleChild, hk.allocated⟩ rfl
  refine ⟨fun q x hx => ?_, fun q x hx y hy => ?_, fun q x hx => ?_, fun q hq => ?_, h.several⟩
  · exact h.siblings q x ((hpairs q x).mp hx).2
  · obtain ⟨hq, hx⟩ := (hpairs q x).mp hx
    refine (hpairs _ y).mpr ⟨hkids q hq _ ?_, h.registered q x hx y hy⟩
    rw [← h.siblings q x hx]
    exact mem_map_of_mem hy
  · exact h.exclusive q x ((hpairs q x).mp hx).2
  obtain ⟨x, hx⟩ := Option.isSome_iff_exists.mp (h.known q hq)
  refine Option.isSome_iff_exists.mpr ⟨x, (hpairs q x).mpr ⟨fun hg => ?_, hx⟩⟩
  -- a stored sibling list is not empty, but a removed position has no children
  have hnil : index.siblings s x = [] := map_eq_nil_iff.mp ((h.siblings q x hx).trans (hgone q hg))
  obtain ⟨l, hl⟩ := Option.isSome_iff_exists.mp hq
  unfold ChildIndex.siblings at hnil
  rw [hpos q x hx, hl] at hnil
  exact h.several q (hl.trans (congrArg some hnil))

end ChildIndex

variable {nodes : TagMap (Node V)} {id : Position} {item : Node V} {s : SequenceIndex}
  {tombstones : TagSet} {l : List MarkerRef}

theorem kidsOf_erase (nodes : TagMap (Node V)) (id q : Position) :
    kidsOf (nodes.erase id) q = (kidsOf nodes q).filter (· ≠ id) := by
  refine (eq_kidsOf ((pairwise_kidsOf nodes q).filter _) fun x => ?_).symm
  rw [parentOf_erase]
  split_ifs with he
  · simp [he]
  · simp [Ne.symm he]

theorem Holds.visibility {marks : List (Mark Position)}
    {vis vis' : Position → Bool} (h : s.Holds l marks vis)
    (heq : ∀ p, .enter p ∈ marks → vis' p = vis p) : s.Holds l marks vis' := by
  refine ⟨h.rep, h.labels, h.nodup, fun m hm => ?_, h.pairs, h.both⟩
  rw [h.visible m hm]
  rcases m with ⟨x, side⟩
  cases side with
  | exit => rfl
  | entry => rw [heq _ (h.labels ▸ mem_map_of_mem hm)]

theorem exists_split_of_descending {l : List Position} (hl : l.Pairwise (· > ·)) (hid : id ∉ l) :
    ∃ before after, l = before ++ after ∧ (∀ x ∈ before, id < x) ∧ ∀ x ∈ after, x < id := by
  induction l with
  | nil => exact ⟨[], [], rfl, by simp, by simp⟩
  | cons a l ih =>
    obtain ⟨ha, hl⟩ := pairwise_cons.mp hl
    simp only [mem_cons, not_or] at hid
    rcases lt_or_gt_of_ne hid.1 with hlt | hgt
    · obtain ⟨before, after, rfl, hb, haft⟩ := ih hl hid.2
      exact ⟨a :: before, after, rfl, by simpa using ⟨hlt, hb⟩, haft⟩
    exact ⟨[], a :: l, rfl, by simp, forall_mem_cons.mpr ⟨hgt, fun x hx => lt_trans (ha x hx) hgt⟩⟩

theorem marksOf_erase (h : Forested nodes) (hid : nodes[id]? = some item) (hleaf : kidsOf nodes id = []) :
    ∃ mb m ma, marksOf nodes = mb ++ m :: ([.enter id, .exit id] ++ ma) ∧
      marksOf (nodes.erase id) = mb ++ m :: ma := by
  have hv := h.valid id (mem_iff.mpr ⟨item, hid⟩)
  have hne : item.parent ≠ id := fun he => by
    have : id ∈ kidsOf nodes id := mem_kidsOf.mpr (by rw [parentOf, hid]; exact congrArg some he)
    simp [hleaf] at this
  have hparent : item.parent = .zero ∨ item.parent ∈ nodes.erase id := by
    refine (h.parent_known (parentOf_eq_some.mpr ⟨item, hid, rfl⟩)).imp_right fun hp => ?_
    rw [Std.ExtTreeMap.mem_erase]
    exact ⟨by simpa using Ne.symm hne, hp⟩
  have hgone : id ∉ nodes.erase id := by simp
  obtain ⟨before, after, hk, hb, ha⟩ := exists_split_of_descending
    (pairwise_kidsOf (nodes.erase id) item.parent)
    (fun hm => hgone (mem_of_parentOf (mem_kidsOf.mp hm)))
  have hmarks := marksOf_insert (h.erase hleaf) hgone hv hparent hk hb ha
  rw [insert_erase hid] at hmarks
  have hanchor : anchor item.parent before ∈ marksOf (nodes.erase id) := by
    by_contra hnot
    rw [splice_of_not_mem hnot] at hmarks
    have hin : .enter id ∈ marksOf nodes := h.enter_mem_marksOf.mpr (.inr (mem_iff.mpr ⟨item, hid⟩))
    rw [hmarks, (h.erase hleaf).enter_mem_marksOf] at hin
    exact hin.elim (Tag.ne_zero_of_valid hv) hgone
  obtain ⟨mb, ma, hsplit⟩ := append_of_mem hanchor
  refine ⟨mb, _, ma, ?_, hsplit⟩
  rw [hmarks, hsplit]
  exact splice_of_nodup (hsplit ▸ (h.erase hleaf).nodup_marksOf)

theorem removeLeaf_marks (h : Forested nodes) (hl : s.Holds l (marksOf nodes) (shown tombstones))
    (hid : nodes[id]? = some item) (hleaf : kidsOf nodes id = []) :
    ∃ s' l', s.removeLeaf id = some (s', true) ∧
      s'.Holds l' (marksOf (nodes.erase id)) (shown (tombstones.erase id)) ∧ s.Kept s' ∧
      s'.pairs = s.pairs.erase id := by
  obtain ⟨mb, m, ma, hm, hm'⟩ := marksOf_erase h hid hleaf
  obtain ⟨s', l', hrem, hl', hkept, hpairs⟩ := SequenceIndex.removeLeaf_spec hl hm
  refine ⟨s', l', hrem, ?_, hkept, hpairs⟩
  rw [← hm'] at hl'
  refine Holds.visibility hl' fun p hp => ?_
  rw [(h.erase hleaf).enter_mem_marksOf] at hp
  rcases hp with rfl | hp
  · simp
  have hne : id ≠ p := by
    rintro rfl
    simp at hp
  have : (tombstones.erase id).contains p = tombstones.contains p := by
    rw [Bool.eq_iff_iff, Std.ExtTreeSet.contains_iff_mem, Std.ExtTreeSet.contains_iff_mem, TagSet.mem_erase]
    exact ⟨fun h => h.2, fun h => ⟨hne, h⟩⟩
  simp [shown, this]

theorem kidsOf_eq_filter {nodes' : TagMap (Node V)} (gone : Position → Bool)
    (h : ∀ x : Position, nodes'[x]? = if gone x then none else nodes[x]?) (q : Position) :
    kidsOf nodes' q = (kidsOf nodes q).filter fun x => !gone x := by
  refine (eq_kidsOf ((pairwise_kidsOf nodes q).filter _) fun x => ?_).symm
  rw [List.mem_filter, mem_kidsOf, parentOf, parentOf, h]
  split_ifs with hg <;> simp [hg]

theorem Indexed.removeLeaf {ch : ChildIndex}
    (h : Indexed nodes tombstones s ch) (hid : nodes[id]? = some item) (hleaf : kidsOf nodes id = []) :
    ∃ parent child ch' s₂ s', s.pair item.parent = some parent ∧ s.pair id = some child ∧
      ch.remove s parent child = (ch', s₂, true) ∧ s₂.removeLeaf id = some (s', true) ∧
      Indexed (nodes.erase id) (tombstones.erase id) s' ch' := by
  obtain ⟨l, hl⟩ := h.holds
  have hf := h.forested
  have hpos : ∀ (q : Position) x, s.pairs[q]? = some x → s.position x = q := fun q x hx =>
    (hl.of_pair hx).1
  have hparentOf : parentOf nodes id = some item.parent := parentOf_eq_some.mpr ⟨item, hid, rfl⟩
  obtain ⟨parent, hparent⟩ : ∃ x, s.pairs[item.parent]? = some x :=
    hl.exists_pair_iff.mpr (hf.enter_mem_marksOf.mpr (hf.parent_known hparentOf))
  obtain ⟨child, hchild⟩ : ∃ x, s.pairs[id]? = some x :=
    hl.exists_pair_iff.mpr (hf.enter_mem_marksOf.mpr (.inr (mem_iff.mpr ⟨item, hid⟩)))
  have hkids := h.kids.siblings item.parent parent hparent
  have hown : ∀ x ∈ ch.siblings s parent, x ≠ child ↔ s.position x ≠ id := by
    intro x hx
    have hreg := h.kids.registered _ parent hparent x hx
    refine not_congr ⟨fun he => by rw [he]; exact hpos id child hchild, fun he => ?_⟩
    rw [he, hchild] at hreg
    exact (Option.some.inj hreg).symm
  have hmem : child ∈ ch.siblings s parent := by
    have : id ∈ (ch.siblings s parent).map s.position := by rw [hkids]; exact mem_kidsOf.mpr hparentOf
    obtain ⟨x, hx, he⟩ := mem_map.mp this
    by_contra hne
    exact (hown x hx).mp (fun hxc => hne (hxc ▸ hx)) he
  obtain ⟨ch', s₂, hrem, hup⟩ := ChildIndex.remove_spec (by rw [hkids]; exact pairwise_kidsOf _ _) hmem
    (h.kids.exclusive _ parent hparent)
  have hfilter : (ch.siblings s parent).filter (· ≠ child) =
      (ch.siblings s parent).filter fun x => decide (s.position x ≠ id) :=
    filter_congr fun x hx => by simp only [hown x hx]
  rw [hfilter] at hup
  have hshrink := h.kids.shrink hpos hparent (fun q => decide (q ≠ id)) hup
  have hl₂ : s₂.Holds l (marksOf nodes) (shown tombstones) := by
    rw [hup.rest]
    exact hl.withSingleChild _
  obtain ⟨s', l', hleafrem, hl', hkept, hpairs⟩ := removeLeaf_marks hf hl₂ hid hleaf
  refine ⟨parent, child, ch', s₂, s', hparent, hchild, hrem, hleafrem, hf.erase hleaf, ⟨l', hl'⟩, ?_⟩
  have hkids' : (fun q => if q = item.parent then (kidsOf nodes item.parent).filter (· ≠ id)
      else kidsOf nodes q) = kidsOf (nodes.erase id) := by
    funext q
    rw [kidsOf_erase]
    split_ifs with hq
    · rw [hq]
    refine (filter_eq_self.mpr fun x hx => ?_).symm
    have : x ≠ id := by
      rintro rfl
      rw [mem_kidsOf, hparentOf] at hx
      exact hq (Option.some.inj hx).symm
    simpa using this
  rw [hkids'] at hshrink
  refine hshrink.unregister (fun q x hx => (hl₂.of_pair hx).1) hkept (· = id) (fun q x => ?_)
    (fun q _ x hx he => ?_) fun q hq => ?_
  · rw [hpairs, getElem?_erase]
    split_ifs with he <;> simp [he, eq_comm]
  · rw [kidsOf_erase] at hx
    simp [he] at hx
  · rw [hq, kidsOf_erase, hleaf]
    rfl

end Crdt.Rga
