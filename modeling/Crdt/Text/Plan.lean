import Crdt.Rga.Rebuild
import Crdt.Text.Rga

/-! Plans: which new nodes of a delta are within reach, and their integration.

`planDelta_spec` says which new nodes must wait: those without a parent chain to the root
through the plan and the integrated nodes. The loop of `integrateResolved` reaches every
node of a plan that has none (`integrateResolved_spec`). -/
namespace Crdt.Text

open Rga Sequence Forest MapLoop List

/-! ### Plans -/

variable {r r' : Replica Rune} {delta : Delta} {plan : DeltaPlan}

/-- The parent of a node that is integrated or in the plan. -/
def jointParent (r : Replica Rune) (nodes : TagMap (Node Rune)) (x : Position) : Option Position :=
  (r.nodes[x]?.or nodes[x]?).map Node.parent

/-- What the checks on a delta's nodes leave. -/
structure ValidNodes (nodes : TagMap (Node Rune)) : Prop where
  valid : ∀ (id : Position) (item : Node Rune), nodes[id]? = some item →
    id.valid = true ∧ validRune item.value = true ∧ (item.parent = .zero ∨ item.parent.valid = true) ∧
      id ≠ item.parent

/-- What a plan is: the nodes of the delta that are not known, and its roots. -/
structure Plans (r : Replica Rune) (delta : Delta) (plan : DeltaPlan) : Prop where
  nodes : ∀ x : Position, plan.nodes[x]? = if (r.known x).isNone then delta.nodes[x]? else none
  nodup : plan.roots.Nodup
  roots : ∀ x, x ∈ plan.roots ↔ ∃ p, parentOf plan.nodes x = some p ∧ r.Reached p
  resolved : plan.pendingNodes = 0 → ∀ x ∈ plan.nodes, Rooted (jointParent r plan.nodes) .zero x

theorem Plans.new (hplan : Plans r delta plan) (x : Position) (item : Node Rune)
    (hx : plan.nodes[x]? = some item) : r.known x = none ∧ delta.nodes[x]? = some item := by
  rw [hplan.nodes] at hx
  split_ifs at hx with hk
  exact ⟨Option.isNone_iff_eq_none.mp hk, hx⟩

/-- The nodes of a plan that must wait are those the root does not reach. -/
structure Waits (r : Replica Rune) (plan : DeltaPlan) (waiting : List (Position × Node Rune)) :
    Prop where
  mem : ∀ (x : Position) item, (x, item) ∈ waiting ↔
    plan.nodes[x]? = some item ∧ ¬ Rooted (jointParent r plan.nodes) .zero x
  count : plan.pendingNodes = waiting.length
  bytes : plan.pendingBytes = (waiting.map fun p => nodeBytes p.1 p.2).sum

/-! ### The loop -/

/-- What the integration of nodes of a plan does. -/
structure Grows (r r' : Replica Rune) (nodes : TagMap (Node Rune)) : Prop where
  indexed : Indexed r'.nodes r'.tombstones r'.sequence r'.children
  rest : r' = {r with nodes := r'.nodes, sequence := r'.sequence, children := r'.children}
  kept : ∀ (x : Position) item, r.nodes[x]? = some item → r'.nodes[x]? = some item
  planned : ∀ (x : Position) item, r'.nodes[x]? = some item →
    r.nodes[x]? = some item ∨ nodes[x]? = some item

theorem integrateResolvedLoop_spec
    (hvalid : ∀ x ∈ plan.nodes, x.valid = true) {n : Nat} {ready : List Position}
    (h : Indexed r.nodes r.tombstones r.sequence r.children)
    (hagree : ∀ x ∈ plan.nodes, x ∈ r.nodes → r.nodes[x]? = plan.nodes[x]?)
    (hready : ReadyQueue plan.nodes r.nodes ready) (hn : remaining plan.nodes (r.nodes.contains ·) ≤ n) :
    ∃ r', integrateResolvedLoop plan n r ready = some r' ∧ Grows r r' plan.nodes ∧
      (∀ x p, parentOf plan.nodes x = some p → r'.Reached p → x ∈ r'.nodes) ∧
      ∀ resolved : TagSet, (∀ x ∈ resolved, x ∈ r.nodes) →
        ∃ resolved', resolveLoop (byParent plan.nodes) n ready resolved = some resolved' ∧
          ∀ x, x ∈ resolved' ↔ x ∈ resolved ∨ x ∈ r'.nodes ∧ x ∉ r.nodes := by
  induction n generalizing r ready with
  | zero =>
    cases ready with
    | nil => exact ⟨r, rfl, ⟨h, rfl, fun _ _ => id, fun _ _ => .inl⟩, hready.closed, fun resolved _ => ⟨resolved, rfl, by simp⟩⟩
    | cons id ready => exact absurd (Nat.le_zero.mp hn) hready.remaining_ne_zero
  | succ n ih =>
    cases ready with
    | nil => exact ⟨r, rfl, ⟨h, rfl, fun _ _ => id, fun _ _ => .inl⟩, hready.closed, fun resolved _ => ⟨resolved, rfl, by simp⟩⟩
    | cons id ready =>
      obtain ⟨item, s', ch', hitem, hid, hint, hix, hready, hlt, hagree₁⟩ := hready.integrate package hvalid h hagree
      set r₁ : Replica Rune :=
        {r with nodes := r.nodes.insert id item, sequence := s', children := ch'} with hr₁
      obtain ⟨r', hloop, hg, hclosed, hresolve⟩ := ih (r := r₁) hix hagree₁ hready
        (Nat.lt_succ_iff.mp (hlt.trans_le hn))
      refine ⟨r', ?_, ⟨hg.indexed, hg.rest, fun x it hx => hg.kept x it ?_, fun x it hx => ?_⟩, hclosed,
        fun resolved hsub => ?_⟩
      · rw [integrateResolvedLoop, hitem, Option.getD_some, hint]
        exact hloop
      · rw [hr₁, get?_insert, if_neg]
        · exact hx
        · rintro rfl
          exact hid (mem_iff.mpr ⟨it, hx⟩)
      · rcases hg.planned x it hx with hx | hx
        · rw [hr₁, get?_insert] at hx
          split_ifs at hx with he
          · exact .inr (by rw [← he, hitem, ← hx])
          · exact .inl hx
        · exact .inr hx
      have hnot : resolved.contains id = false := TagSet.contains_eq_false.mpr fun hm => hid (hsub id hm)
      obtain ⟨resolved', hrun, hmem⟩ := hresolve (resolved.insert id) fun x hx => by
        rw [hr₁, mem_insert]
        exact (TagSet.mem_insert.mp hx).imp_right (hsub x)
      refine ⟨resolved', by simpa [resolveLoop, hnot] using hrun, fun x => ?_⟩
      rw [hmem, TagSet.mem_insert, hr₁, mem_insert]
      by_cases he : id = x
      · have hin : id ∈ r'.nodes := mem_iff.mpr ⟨item, hg.kept id item (by rw [hr₁, get?_insert, if_pos rfl])⟩
        simp [← he, hid, hin]
      · simp [he]

/-! ### Whole plans -/

theorem planDelta_spec (h : r.Inv) (hd : ValidNodes delta.nodes) :
    ∃ plan waiting, planDelta r delta = some plan ∧ Plans r delta plan ∧ Waits r plan waiting := by
  set nodes := delta.nodes.filter fun id _ => !r.nodes.contains id && !r.pending.contains id with hnodes
  have hget : ∀ x : Position, nodes[x]? = if (r.known x).isNone then delta.nodes[x]? else none :=
    getElem?_newNodes r delta.nodes
  have hvalid : ∀ x p, parentOf nodes x = some p → (x.valid = true ∧ x ∉ r.nodes) ∧
      (p = .zero ∨ p.valid = true) := by
    intro x p hp
    obtain ⟨item, hitem, rfl⟩ := parentOf_eq_some.mp hp
    rw [hget] at hitem
    split_ifs at hitem with hk
    obtain ⟨h₁, _, h₂, _⟩ := hd.valid x item hitem
    exact ⟨⟨h₁, (not_mem_of_known (Option.isNone_iff_eq_none.mp hk)).1⟩, h₂⟩
  have hnew : ∀ x ∈ nodes, x.valid = true ∧ x ∉ r.nodes := by
    intro x hx
    obtain ⟨item, hitem⟩ := mem_iff.mp hx
    exact (hvalid x item.parent (parentOf_eq_some.mpr ⟨item, hitem, rfl⟩)).1
  set roots := nodes.keys.filter fun id =>
    (parentOf nodes id).any fun parent => !parent.valid || r.nodes.contains parent with hroots
  have hqueue : ReadyQueue nodes r.nodes roots :=
    readyQueue_roots (fun x hx => (hnew x hx).2) fun x p hp => (hvalid x p hp).2
  have hmem : ∀ x, x ∈ roots ↔ ∃ p, parentOf nodes x = some p ∧ r.Reached p := fun x =>
    (hqueue.mem x).trans ⟨And.right, fun hx => ⟨hx.elim fun p hp => (hvalid x p hp.1).1.2, hx⟩⟩
  -- the nodes that are marked are those that an integration would reach
  obtain ⟨r', -, hg, hclosed, hresolve⟩ := @integrateResolvedLoop_spec r ⟨nodes, roots, 0, 0⟩
    (fun x hx => (hnew x hx).1) nodes.size roots h.indexed (fun x hx hxn => ((hnew x hx).2 hxn).elim) hqueue
    (remaining_le_size _ _)
  obtain ⟨resolved, hres, hresolved⟩ := hresolve ∅ (by simp)
  have hrooted : ∀ x, Rooted (jointParent r nodes) .zero x ↔ x ∈ r'.nodes := by
    refine fun x => Rooted.iff_of_split (· ∈ r'.nodes) (fun x hx => ?_) fun x y hxy hx => ?_
    · refine (hg.indexed.forested.rooted x hx).mono fun x y hxy => ?_
      obtain ⟨item, hitem, rfl⟩ := parentOf_eq_some.mp hxy
      rcases hg.planned x item hitem with hx | hx
      · simp [jointParent, hx]
      · simp [jointParent, not_mem_iff.mp (hnew x (mem_iff.mpr ⟨item, hx⟩)).2, hx]
    have hxn : r.nodes[x]? = none := Option.eq_none_iff_forall_ne_some.mpr fun item hitem =>
      hx (mem_iff.mpr ⟨item, hg.kept x item hitem⟩)
    rw [jointParent, hxn] at hxy
    exact not_or.mp fun hy => hx (hclosed x y hxy hy)
  set waiting := nodes.toList.filter fun p => !resolved.contains p.1 with hwaiting
  have hwaits : ∀ (x : Position) item, (x, item) ∈ waiting ↔
      nodes[x]? = some item ∧ ¬ Rooted (jointParent r nodes) .zero x := by
    intro x item
    rw [List.mem_filter, mem_toList, Bool.not_eq_true', TagSet.contains_eq_false, hrooted, hresolved]
    refine and_congr_right fun hx => not_congr ?_
    simp [(hnew x (mem_iff.mpr ⟨item, hx⟩)).2]
  refine ⟨_, waiting, by rw [planDelta]; simp only [← hnodes, ← hroots, hres]; rfl,
    ⟨hget, hqueue.nodup, hmem, fun hpending x hx => ?_⟩, hwaits, rfl, rfl⟩
  obtain ⟨item, hitem⟩ := mem_iff.mp hx
  by_contra hnot
  have hin := (hwaits x item).mpr ⟨hitem, hnot⟩
  rw [eq_nil_of_length_eq_zero (l := waiting) hpending] at hin
  simp at hin

theorem integrateResolved_spec (h : r.Inv) (hd : ValidNodes delta.nodes)
    (hplan : Plans r delta plan) (hpending : plan.pendingNodes = 0) :
    ∃ r' changed, integrateResolved r plan = some (r', changed) ∧ Grows r r' plan.nodes ∧
      ∀ x ∈ plan.nodes, x ∈ r'.nodes := by
  unfold integrateResolved
  by_cases hsize : plan.nodes.size = 0
  · rw [if_pos (.inl hsize)]
    refine ⟨r, false, rfl, ⟨h.indexed, rfl, fun _ _ => id, fun _ _ => .inl⟩, fun x hx => ?_⟩
    rw [Std.ExtTreeMap.eq_empty_iff_size_eq_zero.mpr hsize] at hx
    simp at hx
  have hnew : ∀ x ∈ plan.nodes, x.valid = true ∧ x ∉ r.nodes := by
    intro x hx
    obtain ⟨item, hitem⟩ := mem_iff.mp hx
    obtain ⟨hk, hx⟩ := hplan.new x item hitem
    exact ⟨(hd.valid x item hx).1, (not_mem_of_known hk).1⟩
  obtain ⟨r', hloop, hg, hclosed, -⟩ := integrateResolvedLoop_spec (n := plan.nodes.size)
    (fun x hx => (hnew x hx).1) h.indexed (fun x hx hxn => ((hnew x hx).2 hxn).elim)
    ⟨hplan.nodup, fun x => by
      rw [hplan.roots]
      refine ⟨fun hx => ⟨?_, hx⟩, fun hx => hx.2⟩
      obtain ⟨p, hp, _⟩ := hx
      exact (hnew x (mem_of_parentOf hp)).2⟩
    (remaining_le_size _ _)
  refine ⟨r', true, ?_, hg, fun x hx => ?_⟩
  · rw [if_neg (by simp [hsize, hpending]), hloop]
    rfl
  refine (hplan.resolved hpending x hx).least (fun x => x ∈ r'.nodes) fun x y hxy hy => ?_
  cases hxn : r.nodes[x]? with
  | some item => exact mem_iff.mpr ⟨item, hg.kept x item hxn⟩
  | none =>
    rw [jointParent, hxn] at hxy
    exact hclosed x y hxy hy

end Crdt.Text
