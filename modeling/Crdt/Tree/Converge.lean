import Crdt.Tree.Step

/-! Trees converge.

A tree that has received deltas has the union of their nodes and of their tombstones
(`Delivered.covers`), and it refuses none for its structure (`Delivered.accepts`). With that and
the walks, `or_tree_converges` says what a tree shows. An `Add` below a parent that is neither the
root nor a valid ID breaks it: the node is one that no walk down reaches, that the walk up takes
for live, and that no other replica accepts (`add_below_invalid_parent`). -/
namespace Crdt.Tree

open Clock Rga MapLoop Option List

variable {t t' other : ORTree} {d e f : Delta} {millis : Int64} {ds es got : List Delta}

/-! ### What was received -/

/-- What a tree or a delta stands for: the union of what came in. -/
structure Covers (nodes : TagMap StoredNode) (tombstones : TagSet) (ds : List Delta) : Prop where
  nodes : ∀ (id : NodeID) (node : StoredNode), nodes[id]? = some node ↔ ∃ d ∈ ds, d.nodes[id]? = some node
  tombstones : ∀ id, id ∈ tombstones ↔ ∃ d ∈ ds, id ∈ d.tombstones

/-- Deltas have one node under an ID. -/
def Agree (ds : List Delta) : Prop :=
  ∀ d ∈ ds, ∀ d' ∈ ds, ∀ (id : NodeID) (node node' : StoredNode), d.nodes[id]? = some node →
    d'.nodes[id]? = some node' → node = node'

theorem Agree.mono (h : Agree es) (hsub : ∀ d ∈ ds, d ∈ es) : Agree ds :=
  fun d hd d' hd' => h d (hsub d hd) d' (hsub d' hd')

theorem Covers.union {nodes incoming merged : TagMap StoredNode} {tombstones gone buried : TagSet}
    (h : Covers nodes tombstones ds) (hi : Covers incoming gone es) (hagree : Agree (ds ++ es))
    (hn : ∀ id : NodeID, merged[id]? = nodes[id]?.or incoming[id]?)
    (ht : ∀ id, id ∈ buried ↔ id ∈ tombstones ∨ id ∈ gone) : Covers merged buried (ds ++ es) := by
  refine ⟨fun id node => ?_, fun id => ?_⟩
  · rw [hn]
    constructor
    · intro hnode
      rcases or_eq_some_iff.mp hnode with hnode | ⟨-, hnode⟩
      · obtain ⟨d, hd, hdn⟩ := (h.nodes id node).mp hnode
        exact ⟨d, mem_append_left _ hd, hdn⟩
      · obtain ⟨d, hd, hdn⟩ := (hi.nodes id node).mp hnode
        exact ⟨d, mem_append_right _ hd, hdn⟩
    rintro ⟨d, hd, hdn⟩
    cases hold : nodes[id]? with
    | some node' =>
      -- both sides have the ID, and the same node under it
      obtain ⟨d', hd', hdn'⟩ := (h.nodes id node').mp hold
      rw [some_or, hagree d hd d' (mem_append_left _ hd') id node node' hdn hdn']
    | none =>
      rcases mem_append.mp hd with hd | hd
      · rw [(h.nodes id node).mpr ⟨d, hd, hdn⟩] at hold
        cases hold
      · exact (hi.nodes id node).mpr ⟨d, hd, hdn⟩
  · rw [ht, h.tombstones, hi.tombstones]
    simp [or_and_right, exists_or]

theorem merge_spec (h : d.merge e = .ok f) :
    Valid f ∧ (∀ id : NodeID, f.nodes[id]? = d.nodes[id]?.or e.nodes[id]?) ∧
      ∀ id, id ∈ f.tombstones ↔ id ∈ d.tombstones ∨ id ∈ e.tombstones := by
  unfold Delta.merge at h
  split at h
  · cases h
  rename_i hd
  split at h
  · cases h
  rename_i he
  split_ifs at h with hconflict
  cases h
  have hvd := validate_iff.mp hd
  have hve := validate_iff.mp he
  have hnodes : ∀ id : NodeID, (e.nodes.toList.foldl (fun nodes p => nodes.insert p.1 p.2) d.nodes)[id]? =
      d.nodes[id]?.or e.nodes[id]? := by
    intro id
    rw [getElem?_foldl_toList]
    cases hn : e.nodes[id]? with
    | none => simp
    | some node =>
      cases hn' : d.nodes[id]? with
      | none => rfl
      | some node' =>
        -- the check has made sure that both have the same node
        rw [any_toList_ne.mp (eq_false_of_ne_true hconflict) id node' node hn' hn]
  have htombs : ∀ id, id ∈ e.tombstones.toList.foldl (fun tombstones id => tombstones.insert id)
      d.tombstones ↔ id ∈ d.tombstones ∨ id ∈ e.tombstones := by
    intro id
    rw [TagSet.mem_foldl_insert, Std.ExtTreeSet.mem_toList]
    exact or_comm
  refine ⟨⟨fun id node hnode => ?_, fun id node hnode => ?_, fun id hid => ?_⟩, hnodes, htombs⟩
  · rcases or_eq_some_iff.mp ((hnodes id).symm.trans hnode) with hnode | ⟨-, hnode⟩
    · exact hvd.nodes id node hnode
    · exact hve.nodes id node hnode
  · rcases or_eq_some_iff.mp ((hnodes id).symm.trans hnode) with hnode | ⟨-, hnode⟩
    · exact hvd.loopless id node hnode
    · exact hve.loopless id node hnode
  rcases (htombs id).mp hid with hid | hid
  · exact hvd.tombstones id hid
  · exact hve.tombstones id hid

/-- Deltas that travel as one. -/
inductive Bundle : List Delta → Delta → Prop
  | single (d : Delta) : Bundle [d] d
  | merge {ds es : List Delta} {d e f : Delta} (hd : Bundle ds d) (he : Bundle es e)
      (h : d.merge e = .ok f) : Bundle (ds ++ es) f

/-- A tree and the deltas that went into it, by whatever way. -/
inductive Delivered : List Delta → ORTree → Prop
  | fresh {state : Clock.State} {options : Options} {t : ORTree}
      (h : newFromClockWithOptions state options = .ok t) : Delivered [] t
  | add {got : List Delta} {t t' : ORTree} {parent id : NodeID} {value : List UInt8} {d : Delta}
      {millis : Int64} (ht : Delivered got t) (hp : parent = .zero ∨ parent.valid = true)
      (h : t.add parent value millis = (t', .ok (id, d))) : Delivered (got ++ [d]) t'
  | remove {got : List Delta} {t t' : ORTree} {id : NodeID} {d : Delta} {millis : Int64}
      (ht : Delivered got t) (h : t.remove id millis = (t', .ok d)) : Delivered (got ++ [d]) t'
  | apply {got ds : List Delta} {t t' : ORTree} {d : Delta} {millis : Int64} (ht : Delivered got t)
      (hd : Bundle ds d) (h : t.applyDelta d millis = (t', .ok ())) : Delivered (got ++ ds) t'
  | merge {got got' : List Delta} {t t' other : ORTree} {millis : Int64} (ht : Delivered got t)
      (ho : Delivered got' other) (h : t.merge other millis = (t', .ok ())) : Delivered (got ++ got') t'
  | look {got : List Delta} {t t' : ORTree} {listed : List VisibleNode} (ht : Delivered got t)
      (h : t.visibleNodes = some (t', listed)) : Delivered got t'
  | count {got : List Delta} {t t' : ORTree} {counts : Nat × Nat} (ht : Delivered got t)
      (h : t.state = some (t', counts)) : Delivered got t'

theorem covers_single (d : Delta) : Covers d.nodes d.tombstones [d] := by
  constructor <;> simp

theorem Bundle.covers (h : Bundle ds d) (hagree : Agree ds) : Covers d.nodes d.tombstones ds := by
  induction h with
  | single d => exact covers_single d
  | merge _ _ hm ihd ihe =>
    have hd := ihd (hagree.mono fun x hx => mem_append_left _ hx)
    have he := ihe (hagree.mono fun x hx => mem_append_right _ hx)
    exact hd.union he hagree (merge_spec hm).2.1 (merge_spec hm).2.2

theorem Bundle.valid (h : Bundle ds d) (hds : ∀ x ∈ ds, Valid x) : Valid d := by
  cases h with
  | single d => exact hds d (mem_singleton_self d)
  | merge _ _ hm => exact (merge_spec hm).1

theorem visibleNodes_same {listed : List VisibleNode} (h : t.visibleNodes = some (t', listed)) :
    t'.nodes = t.nodes ∧ t'.tombstones = t.tombstones ∧ t'.clock = t.clock := by
  unfold ORTree.visibleNodes at h
  split_ifs at h
  · cases h
    exact ⟨rfl, rfl, rfl⟩
  obtain ⟨ids, -, h⟩ := bind_eq_some_iff.mp h
  cases h
  exact ⟨rfl, rfl, rfl⟩

theorem state_same {counts : Nat × Nat} (h : t.state = some (t', counts)) :
    t'.nodes = t.nodes ∧ t'.tombstones = t.tombstones ∧ t'.clock = t.clock := by
  unfold ORTree.state at h
  split_ifs at h
  · cases h
    exact ⟨rfl, rfl, rfl⟩
  obtain ⟨count, -, h⟩ := bind_eq_some_iff.mp h
  cases h
  exact ⟨rfl, rfl, rfl⟩

theorem Formed.same (h : Formed t)
    (hs : t'.nodes = t.nodes ∧ t'.tombstones = t.tombstones ∧ t'.clock = t.clock) : Formed t' := by
  obtain ⟨hn, ht, hc⟩ := hs
  exact ⟨hc ▸ h.replicaID, hn ▸ h.nodes, ht ▸ h.tombstones⟩

theorem Formed.added_of_ok (hf : Formed t) {parent id : NodeID} {value : List UInt8}
    (h : t.add parent value millis = (t', .ok (id, d))) : Added t parent value id d t' := by
  rcases hf.add_cases parent value millis with ⟨u, id', d', he, ha⟩ | ⟨err, he⟩
  · rw [h] at he
    cases he
    exact ha
  · rw [h] at he
    cases he

theorem joined_of_remove {id : NodeID} (h : t.remove id millis = (t', .ok d)) : Joined t d t' := by
  rcases remove_cases t id millis with ⟨u, d', he, hj⟩ | ⟨err, he⟩
  · rw [h] at he
    cases he
    exact hj
  · rw [h] at he
    cases he

theorem Delivered.formed (h : Delivered got t) : Formed t := by
  induction h with
  | fresh hnew => exact formed_fresh hnew
  | add _ hp ha ih => exact ih.added (ih.added_of_ok ha) hp
  | remove _ hr ih => exact ih.joined (joined_of_remove hr)
  | apply _ _ ha ih => exact ih.joined (joined_of_ok ha)
  | merge _ _ hm ih _ => exact ih.joined (joined_of_ok hm)
  | look _ hl ih => exact ih.same (visibleNodes_same hl)
  | count _ hc ih => exact ih.same (state_same hc)

theorem Delivered.covers (h : Delivered got t) (hagree : Agree got) : Covers t.nodes t.tombstones got := by
  induction h with
  | fresh hnew =>
    obtain ⟨-, he⟩ := newFromClockWithOptions_ok hnew
    rw [he]
    constructor <;> simp
  | @add got t t' parent id value d millis ht _ ha ih =>
    have ha := ht.formed.added_of_ok ha
    have hc := ih (hagree.mono fun x hx => mem_append_left _ hx)
    refine hc.union (covers_single d) hagree (fun x => ?_) fun x => ?_
    · rw [ha.nodes, ha.delta, get?_insert, get?_insert]
      split_ifs with he
      · subst he
        cases hold : t.nodes[id]? with
        | none => rfl
        | some node =>
          -- an ID that was issued twice would stand for one node
          obtain ⟨d', hd', hn⟩ := (hc.nodes id node).mp hold
          have hnew : d.nodes[id]? = some ⟨parent, value⟩ := by simp [ha.delta]
          rw [hagree d' (mem_append_left _ hd') d (by simp) id node _ hn hnew]
          rfl
      · simp
    · rw [ha.tombstones, ha.delta]
      simp
  | remove _ hr ih =>
    have hj := joined_of_remove hr
    have hc := ih (hagree.mono fun x hx => mem_append_left _ hx)
    exact hc.union (covers_single _) hagree hj.nodes hj.tombstones
  | apply _ hd ha ih =>
    have hj := joined_of_ok ha
    have hc := ih (hagree.mono fun x hx => mem_append_left _ hx)
    exact hc.union (hd.covers (hagree.mono fun x hx => mem_append_right _ hx)) hagree hj.nodes hj.tombstones
  | merge _ _ hm ih iho =>
    have hj := joined_of_ok hm
    have hc := ih (hagree.mono fun x hx => mem_append_left _ hx)
    have ho := iho (hagree.mono fun x hx => mem_append_right _ hx)
    exact hc.union ho hagree hj.nodes hj.tombstones
  | look _ hl ih =>
    obtain ⟨hn, ht, -⟩ := visibleNodes_same hl
    rw [hn, ht]
    exact ih hagree
  | count _ hc ih =>
    obtain ⟨hn, ht, -⟩ := state_same hc
    rw [hn, ht]
    exact ih hagree

theorem Covers.ext {nodes nodes' : TagMap StoredNode} {tombstones tombstones' : TagSet}
    (h : Covers nodes tombstones ds) (h' : Covers nodes' tombstones' es)
    (hsame : ∀ d, d ∈ ds ↔ d ∈ es) : nodes = nodes' ∧ tombstones = tombstones' := by
  constructor
  · refine Std.ExtTreeMap.ext_getElem? fun id => Option.ext fun node => ?_
    rw [h.nodes, h'.nodes]
    simp only [hsame]
  refine Std.ExtTreeSet.ext_mem fun id => ?_
  rw [h.tombstones, h'.tombstones]
  simp only [hsame]

/-! ### What is accepted -/

/-- The parent edges of deltas. -/
def Edge (ds : List Delta) (a b : NodeID) : Prop :=
  ∃ d ∈ ds, ∃ node, d.nodes[a]? = some node ∧ node.parent = b

/-- No chain of parents comes round. -/
def Acyclic (ds : List Delta) : Prop := ∀ x, ¬ Relation.TransGen (Edge ds) x x

section Accepted
variable {got got' ds es : List Delta}

theorem acyclic_of_covers (ht : Covers t.nodes t.tombstones got) (hd : Covers d.nodes d.tombstones ds)
    (hformed : Formed t) (hvalid : Valid d) (hacyclic : Acyclic (got ++ ds)) :
    acyclic d.nodes t.nodes = true := by
  have hedge : ∀ a b, (d.nodes[a]?.or t.nodes[a]?).map Node.parent = some b → Edge (got ++ ds) a b := by
    intro a b hab
    obtain ⟨node, hnode, rfl⟩ := map_eq_some_iff.mp hab
    rcases or_eq_some_iff.mp hnode with hnode | ⟨-, hnode⟩
    · obtain ⟨x, hx, hxn⟩ := (hd.nodes a node).mp hnode
      exact ⟨x, mem_append_right _ hx, node, hxn, rfl⟩
    · obtain ⟨x, hx, hxn⟩ := (ht.nodes a node).mp hnode
      exact ⟨x, mem_append_left _ hx, node, hxn, rfl⟩
  refine (acyclicAgainst_spec hvalid.nodes.valid hformed.nodes.valid).mpr fun x _ => ?_
  refine Grounded.of_acyclic (d.nodes.keys ++ t.nodes.keys) (fun a b hab => ?_) (fun a hloop => ?_) x
  · obtain ⟨node, hnode, -⟩ := map_eq_some_iff.mp hab
    rw [mem_append, Std.ExtTreeMap.mem_keys, Std.ExtTreeMap.mem_keys]
    rcases or_eq_some_iff.mp hnode with hnode | ⟨-, hnode⟩
    · exact .inl (mem_iff.mpr ⟨node, hnode⟩)
    · exact .inr (mem_iff.mpr ⟨node, hnode⟩)
  · exact hacyclic a (Relation.TransGen.mono hedge a a hloop)

theorem Agree.same (hagree : Agree (got ++ ds)) (ht : Covers t.nodes t.tombstones got)
    (hd : Covers d.nodes d.tombstones ds) {id : NodeID} {node node' : StoredNode}
    (hnode : d.nodes[id]? = some node) (hnode' : t.nodes[id]? = some node') : node' = node := by
  obtain ⟨x, hx, hxn⟩ := (ht.nodes id node').mp hnode'
  obtain ⟨y, hy, hyn⟩ := (hd.nodes id node).mp hnode
  exact hagree x (mem_append_left _ hx) y (mem_append_right _ hy) id node' node hxn hyn

theorem Delivered.accepts (ht : Delivered got t) (hd : Covers d.nodes d.tombstones ds)
    (hvalid : Valid d) (hagree : Agree (got ++ ds)) (hacyclic : Acyclic (got ++ ds))
    (hw : Within t d) (millis : Int64) :
    (t.applyDelta d millis).2 = .ok () ∨ ∃ err, (t.applyDelta d millis).2 = .error (.clock err) := by
  have hc := ht.covers (hagree.mono fun x hx => mem_append_left _ hx)
  rcases applyDelta_cases t d millis with ⟨t', he, -⟩ | ⟨err, he, hclock⟩
  · exact .inl (by rw [he])
  obtain ⟨e, rfl⟩ := hclock hvalid hw (fun id node node' => hagree.same hc hd)
    (acyclic_of_covers hc hd ht.formed hvalid hacyclic)
  exact .inr ⟨e, by rw [he]⟩

theorem Delivered.valid (h : Delivered got t) (hagree : Agree got) (hacyclic : Acyclic got) :
    Valid ⟨t.nodes, t.tombstones⟩ := by
  refine ⟨h.formed.nodes, fun id node hnode he => ?_, h.formed.tombstones⟩
  obtain ⟨d, hd, hdn⟩ := ((h.covers hagree).nodes id node).mp hnode
  exact hacyclic id (.single ⟨d, hd, node, hdn, he.symm⟩)

theorem Acyclic.mono (h : Acyclic es) (hsub : ∀ d ∈ ds, d ∈ es) : Acyclic ds := fun x hx =>
  h x (Relation.TransGen.mono (fun _ _ ⟨d, hd, node, hnode⟩ => ⟨d, hsub d hd, node, hnode⟩) x x hx)

theorem merge_total (hd : Bundle ds d) (he : Bundle es e) (hagree : Agree (ds ++ es))
    (hvalid : ∀ x ∈ ds ++ es, Valid x) : ∃ f, d.merge e = .ok f := by
  have hvd : Valid d := hd.valid fun x hx => hvalid x (mem_append_left _ hx)
  have hve : Valid e := he.valid fun x hx => hvalid x (mem_append_right _ hx)
  have hcd := hd.covers (hagree.mono fun x hx => mem_append_left _ hx)
  have hce := he.covers (hagree.mono fun x hx => mem_append_right _ hx)
  unfold Delta.merge
  rw [validate_iff.mpr hvd, validate_iff.mpr hve]
  rw [if_neg]
  · exact ⟨_, rfl⟩
  rw [Bool.not_eq_true, any_toList_ne]
  intro id node' node hold hnode
  obtain ⟨x, hx, hxn⟩ := (hcd.nodes id node').mp hold
  obtain ⟨y, hy, hyn⟩ := (hce.nodes id node).mp hnode
  exact hagree x (mem_append_left _ hx) y (mem_append_right _ hy) id node' node hxn hyn

end Accepted

/-- Trees that received the same deltas have the same nodes and tombstones, namely all of them, in
whatever order, groups and number the deltas came, and within the limits such deltas are refused
by nothing but the clock. In every state that calls reach that meet the condition, the walk down
lists the nodes the walk up takes for live, each once, after its parent and after its greater
siblings, there are as many of them as the other walk down counts, and `Nodes` and `State` return
what new walks would. -/
theorem or_tree_converges (got got' ds es : List Delta) (t t' : ORTree) (d e : Delta) (millis : Int64) :
    (Delivered got t → Agree got → Covers t.nodes t.tombstones got) ∧
    (Delivered got t → Delivered got' t' → Agree got → (∀ d, d ∈ got ↔ d ∈ got') →
      t.nodes = t'.nodes ∧ t.tombstones = t'.tombstones) ∧
    (Bundle ds d → Bundle es e → Agree (ds ++ es) → (∀ x ∈ ds ++ es, Valid x) → ∃ f, d.merge e = .ok f) ∧
    (Delivered got t → Bundle ds d → (∀ x ∈ ds, Valid x) → Agree (got ++ ds) →
      Acyclic (got ++ ds) → Within t d →
      (t.applyDelta d millis).2 = .ok () ∨ ∃ err, (t.applyDelta d millis).2 = .error (.clock err)) ∧
    (Delivered got t → Delivered got' t' → Agree (got ++ got') →
      Acyclic (got ++ got') → Within t ⟨t'.nodes, t'.tombstones⟩ →
      (t.merge t' millis).2 = .ok () ∨ ∃ err, (t.merge t' millis).2 = .error (.clock err)) ∧
    (Reachable t → ∃ ids, visibleNodeIDs t.nodes t.tombstones = some ids ∧
      Projects t.nodes t.tombstones ids ∧ countVisible t.nodes t.tombstones = some ids.length ∧
      (∃ t', t.visibleNodes = some (t', nodesForVisibleIDs ids t.nodes)) ∧
      ∃ t', t.state = some (t', ids.length, t.tombstones.size)) := by
  refine ⟨fun ht hagree => ht.covers hagree, fun ht ht' hagree hsame => ?_,
    fun hd he hagree hv => merge_total hd he hagree hv, fun ht hd hv hagree hacyclic hw => ?_,
    fun ht ho hagree hacyclic hw => ?_, fun ht => ?_⟩
  · exact (ht.covers hagree).ext (ht'.covers (hagree.mono fun d hd => (hsame d).mpr hd)) hsame
  · have hc := hd.covers (hagree.mono fun x hx => mem_append_right _ hx)
    exact ht.accepts hc (hd.valid hv) hagree hacyclic hw millis
  · have hagree' := hagree.mono fun x hx => mem_append_right _ hx
    have hvalid := ho.valid hagree' (hacyclic.mono fun x hx => mem_append_right _ hx)
    exact ht.accepts (ho.covers hagree') hvalid hagree hacyclic hw millis
  have hs := ht.sound
  obtain ⟨ids, hids, hp, hcount⟩ := hs.toFormed.walks
  exact ⟨ids, hids, hp, hcount, ⟨_, hs.visibleNodes_eq hids⟩, ⟨_, hs.state_eq hcount⟩⟩

/-- A child that comes before its parent. -/
theorem or_tree_converges_child_first :
    let parent : Delta := {nodes := (∅ : TagMap StoredNode).insert ⟨[1], 1, 0⟩ ⟨.zero, [9]⟩}
    let child : Delta := {nodes := (∅ : TagMap StoredNode).insert ⟨[2], 2, 0⟩ ⟨⟨[1], 1, 0⟩, [8]⟩}
    ∃ t, Delivered [child, parent] t ∧ Agree [child, parent] ∧
      Covers t.nodes t.tombstones [child, parent] ∧ Reachable t ∧
      ∃ ids, visibleNodeIDs t.nodes t.tombstones = some ids ∧ Projects t.nodes t.tombstones ids := by
  intro parent child
  let t₀ : ORTree := {replicaID := [7], clock := ⟨[7], 0, 0⟩, options := .default}
  let t₁ := (t₀.applyDelta child 0).1
  let t₂ := (t₁.applyDelta parent 0).1
  have hnew : newFromClockWithOptions ⟨[7], 0, 0⟩ .default = .ok t₀ := rfl
  have h₁ : t₀.applyDelta child 0 = (t₁, .ok ()) := Prod.ext rfl (by decide +kernel)
  have h₂ : t₁.applyDelta parent 0 = (t₂, .ok ()) := Prod.ext rfl (by decide +kernel)
  have hgot : Delivered [child, parent] t₂ :=
    ((Delivered.fresh hnew).apply (.single child) h₁).apply (.single parent) h₂
  have hmeets : ∀ t d, t.version ≠ maxUint64 → Meets t (.applyDelta d) := fun t d hv =>
    ⟨nofun, hv⟩
  have hreach₁ : Reachable t₁ := (Reachable.fresh hnew).call (c := .applyDelta child)
    nofun (hmeets t₀ child (by decide +kernel)) (congrArg some h₁)
  have hreach : Reachable t₂ := hreach₁.call (c := .applyDelta parent)
    nofun (hmeets t₁ parent (by decide +kernel)) (congrArg some h₂)
  have hsame : ∀ d ∈ [child, parent], ∀ d' ∈ [child, parent],
      (d'.nodes.toList.any fun p => (d.nodes[p.1]?).any (· ≠ p.2)) = false := by decide +kernel
  have hagree : Agree [child, parent] := fun d hd d' hd' => any_toList_ne.mp (hsame d hd d' hd')
  obtain ⟨hcovers, -, -, -, -, hwalks⟩ := or_tree_converges [child, parent] [] [] [] t₂ t₂ child parent 0
  obtain ⟨ids, hids, hp, -⟩ := hwalks hreach
  exact ⟨t₂, hgot, hagree, hcovers hgot hagree, hreach, ids, hids, hp⟩

/-- A parent without a replica ID that is not the zero ID: the node is live going up, is not among
the visible ones, and no replica accepts it. -/
theorem add_below_invalid_parent :
    let t₀ : ORTree := {replicaID := [7], clock := ⟨[7], 0, 0⟩, options := .default}
    newFromClockWithOptions ⟨[7], 0, 0⟩ .default = .ok t₀ ∧
      ∃ t id d, t₀.add ⟨[], 1, 0⟩ [9] 5 = (t, .ok (id, d)) ∧ id ∈ t.nodes ∧
        liveReachable id t.nodes t.tombstones = true ∧
        visibleNodeIDs t.nodes t.tombstones = some [] ∧ (t₀.applyDelta d 5).2 = .error .invalidDelta := by
  intro t₀
  refine ⟨rfl, (t₀.add ⟨[], 1, 0⟩ [9] 5).1, ⟨[7], 5, 0⟩,
    {nodes := (∅ : TagMap StoredNode).insert ⟨[7], 5, 0⟩ ⟨⟨[], 1, 0⟩, [9]⟩}, rfl, ?_, ?_, ?_, ?_⟩
  · exact Std.ExtTreeMap.contains_iff_mem.mp (by decide +kernel)
  all_goals decide +kernel

end Crdt.Tree
