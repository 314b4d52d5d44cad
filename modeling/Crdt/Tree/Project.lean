import Crdt.Rga.Acyclic
import Crdt.Rga.Rebuild
import Crdt.Tree.OrTree

/-! The three walks agree.

A node is live if its chain of parents arrives at the root without a tombstone or a missing node
on the way (`LiveRooted`). The walk up decides this (`liveReachable_iff`), and both walks down
pass exactly the live nodes, each once and after its parent (`visitLoop_spec`), so they list and
count the same nodes (`visibleNodeIDs_spec`, `countVisible_eq`). All this needs that a parent
that is no valid ID is the root. -/
namespace Crdt.Tree

open Rga MapLoop List Std.ExtTreeMap

variable {nodes : TagMap StoredNode} {tombstones : TagSet} {id x p : NodeID}

section
variable (nodes : TagMap StoredNode)

/-- Valid IDs, under the root or a valid ID. -/
def WellFormed : Prop :=
  ∀ (id : NodeID) (node : StoredNode), nodes[id]? = some node →
    id.valid = true ∧ (node.parent = .zero ∨ node.parent.valid = true)

/-- The parent of a node that has no tombstone. -/
def liveParent (tombstones : TagSet) (id : NodeID) : Option NodeID :=
  if tombstones.contains id then none else parentOf nodes id

def LiveRooted (tombstones : TagSet) : NodeID → Prop :=
  Rooted (liveParent nodes tombstones) .zero

end

theorem liveParent_eq_some : liveParent nodes tombstones x = some p ↔
    x ∉ tombstones ∧ parentOf nodes x = some p := by
  unfold liveParent
  cases hc : tombstones.contains x with
  | true => simp [Std.ExtTreeSet.contains_iff_mem.mp hc]
  | false => simp [TagSet.contains_eq_false.mp hc]

theorem WellFormed.valid (h : WellFormed nodes) (x : NodeID) (hx : x ∈ nodes) : x.valid = true := by
  obtain ⟨node, hnode⟩ := mem_iff.mp hx
  exact (h x node hnode).1

theorem WellFormed.zero_not_mem (h : WellFormed nodes) : Tag.zero ∉ nodes := fun hz => by
  simpa using h.valid .zero hz

theorem WellFormed.liveParent_zero (h : WellFormed nodes) : liveParent nodes tombstones .zero = none := by
  rw [Option.eq_none_iff_forall_ne_some]
  intro p hp
  exact h.zero_not_mem (mem_of_parentOf (liveParent_eq_some.mp hp).2)

theorem LiveRooted.iff_parent (hp : liveParent nodes tombstones x = some p) :
    LiveRooted nodes tombstones x ↔ p = .zero ∨ LiveRooted nodes tombstones p := by
  refine ⟨fun h => h.parent_eq hp, ?_⟩
  rintro (rfl | h)
  · exact .top hp
  · exact .step hp h

theorem not_liveRooted (hp : liveParent nodes tombstones x = none) : ¬ LiveRooted nodes tombstones x := by
  intro h
  cases h with
  | top hx => simp [hp] at hx
  | step hx _ => simp [hp] at hx

/-! ### Up -/

theorem nodup_tags (s : TagSet) : s.toList.Nodup :=
  s.ordered_toList.imp fun h => ((Tag.compare_eq_lt_iff _ _).mp h).ne

theorem size_le_of_subset {s : TagSet} (h : ∀ x ∈ s, x ∈ nodes) : s.size ≤ nodes.size := by
  rw [← Std.ExtTreeSet.length_toList, ← length_keys]
  refine (subperm_of_subset (nodup_tags s) fun x hx => ?_).length_le
  exact Std.ExtTreeMap.mem_keys.mpr (h x (Std.ExtTreeSet.mem_toList.mp hx))

/-- `seen` are nodes whose chains have led to `id`. -/
theorem liveReachableLoop_iff (h : WellFormed nodes) {n : Nat} {seen : TagSet}
    (hid : id = .zero ∨ id.valid = true) (hseen : ∀ x ∈ seen, x ∈ nodes)
    (hup : ∀ x ∈ seen, Relation.TransGen (fun a b => liveParent nodes tombstones a = some b) x id)
    (hn : nodes.size + 1 < n + seen.size) :
    liveReachableLoop nodes tombstones n seen id = true ↔ id = .zero ∨ LiveRooted nodes tombstones id := by
  induction n generalizing seen id with
  | zero =>
    have := size_le_of_subset hseen
    omega
  | succ n ih =>
    rw [liveReachableLoop]
    cases hv : id.valid with
    | false =>
      have hz : id = .zero := hid.resolve_right (by simp [hv])
      simp [hz]
    | true =>
      have hz : id ≠ .zero := Tag.ne_zero_of_valid hv
      simp only [Bool.not_true, Bool.false_eq_true, if_false, hz, false_or]
      cases hs : seen.contains id with
      | true =>
        -- the chain has come round
        have hcycle := hup id (Std.ExtTreeSet.contains_iff_mem.mp hs)
        simp only [if_true, Bool.false_eq_true, false_iff]
        exact fun hr => (Grounded.of_rooted hr h.liveParent_zero).not_on_cycle hcycle
      | false =>
        have hs := TagSet.contains_eq_false.mp hs
        simp only [Bool.false_eq_true, if_false]
        cases ht : tombstones.contains id with
        | true =>
          simp only [if_true, Bool.false_eq_true, false_iff]
          exact not_liveRooted (by simp [liveParent, ht])
        | false =>
          simp only [Bool.false_eq_true, if_false]
          cases hnode : nodes[id]? with
          | none =>
            simp only [Bool.false_eq_true, false_iff]
            exact not_liveRooted (by simp [liveParent, parentOf, hnode])
          | some node =>
            have hp : liveParent nodes tombstones id = some node.parent :=
              liveParent_eq_some.mpr ⟨TagSet.contains_eq_false.mp ht, by simp [parentOf, hnode]⟩
            rw [ih (h id node hnode).2, LiveRooted.iff_parent hp]
            · intro x hx
              rcases TagSet.mem_insert.mp hx with rfl | hx
              · exact mem_iff.mpr ⟨node, hnode⟩
              · exact hseen x hx
            · intro x hx
              rcases TagSet.mem_insert.mp hx with rfl | hx
              · exact .single hp
              · exact .tail (hup x hx) hp
            · rw [Std.ExtTreeSet.size_insert, if_neg (by simpa using hs)]
              omega

theorem liveReachable_iff (h : WellFormed nodes) (hid : id.valid = true) :
    liveReachable id nodes tombstones = true ↔ LiveRooted nodes tombstones id := by
  rw [liveReachable, liveReachableLoop_iff h (.inr hid) (by simp) (by simp) (by simp)]
  exact or_iff_right (Tag.ne_zero_of_valid hid)

/-! ### Down -/

section Visit
variable {children : NodeID → List NodeID}

/-- A walk down that has listed `result`, passed over the tombstones `dropped` and still has
`stack` to visit. -/
structure Visiting (nodes : TagMap StoredNode) (tombstones : TagSet) (children : NodeID → List NodeID)
    (result dropped stack : List NodeID) : Prop where
  nodup : (result ++ (dropped ++ stack)).Nodup
  reached : ∀ x ∈ result ++ (dropped ++ stack), ∃ p, parentOf nodes x = some p ∧ (p = .zero ∨ p ∈ result)
  closed : ∀ x p, parentOf nodes x = some p → p = .zero ∨ p ∈ result → x ∈ result ++ (dropped ++ stack)
  live : ∀ x ∈ result, LiveRooted nodes tombstones x
  dead : ∀ x ∈ dropped, x ∈ tombstones
  parentFirst : ∀ before x after, result = before ++ x :: after →
    ∃ p, parentOf nodes x = some p ∧ (p = .zero ∨ p ∈ before)
  siblings : (∀ p, (children p).Pairwise (· > ·)) →
    (result ++ stack).Pairwise fun a b => parentOf nodes a = parentOf nodes b → a > b

variable {result dropped stack : List NodeID}

section
variable (h : Visiting nodes tombstones children result dropped stack)
include h

theorem Visiting.mem (hx : x ∈ result ++ (dropped ++ stack)) : x ∈ nodes := by
  obtain ⟨p, hp, -⟩ := h.reached x hx
  exact mem_of_parentOf hp

theorem Visiting.length_le : result.length + dropped.length + stack.length ≤ nodes.size := by
  have hle := (subperm_of_subset h.nodup fun x hx =>
    Std.ExtTreeMap.mem_keys.mpr (h.mem hx)).length_le
  rw [length_keys] at hle
  simp only [length_append] at hle
  omega

end

section
variable (h : Visiting nodes tombstones children result dropped (id :: stack))
include h

theorem Visiting.parent_ne
    (hw : WellFormed nodes) (hx : x ∈ result ++ (dropped ++ id :: stack)) : parentOf nodes x ≠ some id := by
  intro hid
  obtain ⟨p, hp, hpar⟩ := h.reached x hx
  rw [hid] at hp
  cases hp
  rcases hpar with rfl | hm
  · exact hw.zero_not_mem (h.mem (x := Tag.zero) (by simp))
  · exact (nodup_append.mp h.nodup).2.2 id hm id (by simp) rfl

theorem Visiting.drop
    (hid : id ∈ tombstones) : Visiting nodes tombstones children result (dropped ++ [id]) stack := by
  have heq : result ++ (dropped ++ [id] ++ stack) = result ++ (dropped ++ id :: stack) := by simp
  refine ⟨heq ▸ h.nodup, heq ▸ h.reached, heq ▸ h.closed, h.live, ?_, h.parentFirst,
    fun hs => (h.siblings hs).sublist ?_⟩
  · exact forall_mem_append.mpr ⟨h.dead, forall_mem_singleton.mpr hid⟩
  · exact (List.Sublist.refl result).append (sublist_cons_self id stack)

theorem Visiting.visit
    (hw : WellFormed nodes) (hchildren : ∀ p x, x ∈ children p ↔ parentOf nodes x = some p)
    (hnodup : ∀ p, (children p).Nodup) (hid : id ∉ tombstones) :
    Visiting nodes tombstones children (result ++ [id]) dropped (children id ++ stack) := by
  have hmem : ∀ x, x ∈ (result ++ [id]) ++ (dropped ++ (children id ++ stack)) ↔
      x ∈ result ++ (dropped ++ id :: stack) ∨ x ∈ children id := by
    intro x
    simp only [mem_append, mem_cons]
    tauto
  have hnew : ∀ x ∈ children id, x ∉ result ++ (dropped ++ id :: stack) := fun x hx hx' =>
    h.parent_ne hw hx' ((hchildren id x).mp hx)
  obtain ⟨q, hq, hqr⟩ := h.reached id (by simp)
  refine ⟨?_, fun x hx => ?_, fun x p hp hpar => ?_, fun x hx => ?_, h.dead, fun before x after heq => ?_,
    fun hs => ?_⟩
  · have hperm : ((result ++ [id]) ++ (dropped ++ (children id ++ stack))).Perm
        (children id ++ (result ++ (dropped ++ id :: stack))) := by
      grind
    rw [hperm.nodup_iff, nodup_append]
    exact ⟨hnodup id, h.nodup, fun x hx y hy he => hnew x hx (he ▸ hy)⟩
  · rcases (hmem x).mp hx with hx | hx
    · obtain ⟨p, hp, hpar⟩ := h.reached x hx
      exact ⟨p, hp, hpar.imp_right (mem_append_left _)⟩
    · exact ⟨id, (hchildren id x).mp hx, .inr (by simp)⟩
  · rw [hmem]
    rcases hpar with hz | hpar
    · exact .inl (h.closed x p hp (.inl hz))
    rcases mem_append.mp hpar with hpar | hpar
    · exact .inl (h.closed x p hp (.inr hpar))
    · rw [mem_singleton.mp hpar] at hp
      exact .inr ((hchildren id x).mpr hp)
  · rcases mem_append.mp hx with hx | hx
    · exact h.live x hx
    · rw [mem_singleton.mp hx, LiveRooted.iff_parent (liveParent_eq_some.mpr ⟨hid, hq⟩)]
      exact hqr.imp_right (h.live q)
  · rcases eq_nil_or_concat' after with rfl | ⟨after', y, rfl⟩
    · obtain ⟨rfl, hx⟩ := append_inj' heq rfl
      cases hx
      exact ⟨q, hq, hqr⟩
    · have heq : result ++ [id] = (before ++ x :: after') ++ [y] := by simpa using heq
      exact h.parentFirst before x after' (append_inj' heq rfl).1
  have hold := h.siblings hs
  have hother : ∀ a ∈ result ++ id :: stack, parentOf nodes a ≠ some id := fun a ha =>
    h.parent_ne hw (by
      simp only [mem_append] at ha ⊢
      tauto)
  have hchild : ∀ c ∈ children id, parentOf nodes c = some id := fun c hc => (hchildren id c).mp hc
  have heq : result ++ id :: stack = (result ++ [id]) ++ stack := by simp
  rw [heq] at hold hother
  obtain ⟨hleft, hstack, hcross⟩ := pairwise_append.mp hold
  have hright : (children id ++ stack).Pairwise fun a b => parentOf nodes a = parentOf nodes b → a > b := by
    have hkids : (children id).Pairwise fun a b => parentOf nodes a = parentOf nodes b → a > b := by
      refine (hs id).imp ?_
      exact fun hlt _ => hlt
    refine pairwise_append.mpr ⟨hkids, hstack, fun c hc b hb hpar => ?_⟩
    exact absurd (hpar ▸ hchild c hc) (hother b (mem_append_right _ hb))
  refine pairwise_append.mpr ⟨hleft, hright, fun a ha b hb hpar => ?_⟩
  rcases mem_append.mp hb with hb | hb
  · exact absurd (hpar.trans (hchild b hb)) (hother a (mem_append_left _ ha))
  · exact hcross a ha b hb hpar

end

theorem visitLoop_spec (hw : WellFormed nodes)
    (hchildren : ∀ p x, x ∈ children p ↔ parentOf nodes x = some p) (hnodup : ∀ p, (children p).Nodup)
    {n : Nat} (h : Visiting nodes tombstones children result dropped stack)
    (hn : nodes.size ≤ n + result.length + dropped.length) :
    ∃ ids dropped', visitLoop children tombstones n stack result = some ids ∧
      Visiting nodes tombstones children ids dropped' [] := by
  induction n generalizing result dropped stack with
  | zero =>
    cases stack with
    | nil => exact ⟨result, dropped, rfl, h⟩
    | cons id stack =>
      have := h.length_le
      rw [length_cons] at this
      omega
  | succ n ih =>
    cases stack with
    | nil => exact ⟨result, dropped, rfl, h⟩
    | cons id stack =>
      rw [visitLoop]
      cases ht : tombstones.contains id with
      | true =>
        refine ih (h.drop (Std.ExtTreeSet.contains_iff_mem.mp ht)) ?_
        rw [length_append, length_singleton]
        omega
      | false =>
        refine ih (h.visit hw hchildren hnodup (TagSet.contains_eq_false.mp ht)) ?_
        rw [length_append, length_singleton]
        omega

theorem visiting_start (tombstones : TagSet) (hchildren : ∀ p x, x ∈ children p ↔ parentOf nodes x = some p)
    (hnodup : ∀ p, (children p).Nodup) : Visiting nodes tombstones children [] [] (children .zero) := by
  refine ⟨hnodup .zero, fun x hx => ⟨.zero, (hchildren .zero x).mp hx, .inl rfl⟩, fun x p hp hz => ?_,
    by simp, by simp, by simp, fun hs => (hs .zero).imp ?_⟩
  · rcases hz with rfl | hz
    · exact (hchildren .zero x).mpr hp
    · simp at hz
  · exact fun hlt _ => hlt

theorem Visiting.mem_iff (h : Visiting nodes tombstones children result dropped []) :
    x ∈ result ↔ LiveRooted nodes tombstones x := by
  refine ⟨h.live x, fun hx => ?_⟩
  have hlisted : ∀ x p, liveParent nodes tombstones x = some p → p = .zero ∨ p ∈ result → x ∈ result := by
    intro x p hp hpar
    obtain ⟨hnot, hp⟩ := liveParent_eq_some.mp hp
    rcases mem_append.mp (h.closed x p hp hpar) with hm | hm
    · exact hm
    · rw [append_nil] at hm
      exact absurd (h.dead x hm) hnot
  exact hx.least (· ∈ result) hlisted

end Visit

/-- The list of the visible nodes: the live ones, each once, parents first and siblings in
descending order. -/
structure Projects (nodes : TagMap StoredNode) (tombstones : TagSet) (ids : List NodeID) : Prop where
  mem_iff : ∀ x, x ∈ ids ↔ x ∈ nodes ∧ liveReachable x nodes tombstones = true
  nodup : ids.Nodup
  parentFirst : ∀ before x after, ids = before ++ x :: after →
    ∃ node, nodes[x]? = some node ∧ (node.parent = .zero ∨ node.parent ∈ before)
  siblings : ids.Pairwise fun a b => parentOf nodes a = parentOf nodes b → a > b

theorem mem_and_liveReachable_iff (h : WellFormed nodes) :
    x ∈ nodes ∧ liveReachable x nodes tombstones = true ↔ LiveRooted nodes tombstones x := by
  constructor
  · rintro ⟨hx, hr⟩
    exact (liveReachable_iff h (h.valid x hx)).mp hr
  intro hr
  have hx : x ∈ nodes := by
    cases hr with
    | top hp => exact mem_of_parentOf (liveParent_eq_some.mp hp).2
    | step hp _ => exact mem_of_parentOf (liveParent_eq_some.mp hp).2
  exact ⟨hx, (liveReachable_iff h (h.valid x hx)).mpr hr⟩

theorem visibleNodeIDs_spec (h : WellFormed nodes) (tombstones : TagSet) :
    ∃ ids, visibleNodeIDs nodes tombstones = some ids ∧ Projects nodes tombstones ids := by
  have hchildren : ∀ p x, x ∈ kidsOf nodes p ↔ parentOf nodes x = some p := fun p x => mem_kidsOf
  obtain ⟨ids, dropped, he, hv⟩ := visitLoop_spec h hchildren (nodup_kidsOf nodes)
    (visiting_start tombstones hchildren (nodup_kidsOf nodes)) (n := nodes.size) (by simp)
  refine ⟨ids, he, fun x => ?_, ?_, fun before x after heq => ?_, ?_⟩
  · rw [hv.mem_iff, mem_and_liveReachable_iff h]
  · exact (nodup_append.mp hv.nodup).1
  · obtain ⟨p, hp, hpar⟩ := hv.parentFirst before x after heq
    obtain ⟨node, hnode, rfl⟩ := parentOf_eq_some.mp hp
    exact ⟨node, hnode, hpar⟩
  · simpa using hv.siblings (pairwise_kidsOf nodes)

theorem countLoop_eq (children : NodeID → List NodeID) (tombstones : TagSet) (n : Nat)
    (stack result : List NodeID) : countLoop children tombstones n stack result.length =
      (visitLoop (fun p => (children p).reverse) tombstones n stack result).map List.length := by
  induction n generalizing stack result with
  | zero => cases stack <;> rfl
  | succ n ih =>
    cases stack with
    | nil => rfl
    | cons id stack =>
      rw [countLoop, visitLoop]
      split_ifs
      · exact ih stack result
      · rw [← ih, length_append, length_singleton]

/-- The order of the children makes no difference to the number of nodes. -/
theorem countVisible_eq (h : WellFormed nodes) {ids : List NodeID} (hp : Projects nodes tombstones ids) :
    countVisible nodes tombstones = some ids.length := by
  have hchildren : ∀ p x, x ∈ (byParent nodes p).reverse ↔ parentOf nodes x = some p := fun p x => by
    rw [mem_reverse, mem_byParent]
  have hnodup : ∀ p, (byParent nodes p).reverse.Nodup := fun p =>
    nodup_reverse.mpr (nodup_byParent nodes p)
  obtain ⟨listed, dropped, he, hv⟩ := visitLoop_spec h hchildren hnodup
    (visiting_start tombstones hchildren hnodup) (n := nodes.size) (by simp)
  have hcount := countLoop_eq (byParent nodes) tombstones nodes.size (byParent nodes .zero).reverse []
  rw [he] at hcount
  refine hcount.trans (congrArg some ?_)
  refine List.Perm.length_eq ((perm_ext_iff_of_nodup (nodup_append.mp hv.nodup).1 hp.nodup).mpr fun x => ?_)
  rw [hv.mem_iff, hp.mem_iff, mem_and_liveReachable_iff h]

end Crdt.Tree
