import Crdt.Tree.Step

/-! No cycle gets into a tree.

Nodes may arrive before their parents, so a delta may close a cycle through nodes that no walk from
the root has met. `acyclic` looks at the chains of the incoming nodes only, which is enough if there
was no cycle before (`acyclic_iff`); and a delta that is a forest of its own with ascending IDs has
no chain that leaves it (`acyclic_of_rootedMonotonic`). A local node is no parent yet, because the
clock is past every ID that the tree has seen. -/
namespace Crdt.Tree

open Clock Rga MapLoop

variable {t : ORTree} {d : Delta} {millis : Int64}

/-- No chain of parents comes round. -/
def NoCycle (nodes : TagMap StoredNode) : Prop :=
  ∀ x, ¬ Relation.TransGen (fun a b => parentOf nodes a = some b) x x

theorem noCycle_iff {nodes : TagMap StoredNode} : NoCycle nodes ↔ ∀ x, Grounded (parentOf nodes) x := by
  constructor
  · intro h
    exact Grounded.of_acyclic nodes.keys (fun x y hx => Std.ExtTreeMap.mem_keys.mpr (mem_of_parentOf hx)) h
  · intro h x
    exact (h x).not_on_cycle

/-! ### The checks -/

/-- No node of the delta is another one in the tree. -/
def NoConflict (t : ORTree) (d : Delta) : Prop :=
  ∀ (id : NodeID) (node node' : StoredNode), d.nodes[id]? = some node → t.nodes[id]? = some node' → node' = node

theorem parentOf_join (x : NodeID) :
    parentOf (t.join d).nodes x = (t.nodes[x]?.or d.nodes[x]?).map Node.parent :=
  congrArg (Option.map Node.parent) (getElem?_takeNode t.nodes d.nodes false x)

theorem acyclic_iff (hv : Valid d) (hk : ∀ x ∈ t.nodes, x.valid = true)
    (hg : ∀ x, Grounded (parentOf t.nodes) x) (ha : NoConflict t d) :
    acyclic d.nodes t.nodes = true ↔ ∀ x, Grounded (parentOf (t.join d).nodes) x := by
  have hsame : (fun x : NodeID => (d.nodes[x]?.or t.nodes[x]?).map Node.parent) = parentOf (t.join d).nodes := by
    funext x
    rw [parentOf_join]
    cases hd : d.nodes[x]? with
    | none => simp
    | some node =>
      cases ht : t.nodes[x]? with
      | none => rfl
      | some node' => rw [ha x node node' hd ht]
  rw [acyclic, acyclicAgainst_spec hv.nodes.valid hk, hsame]
  constructor
  · intro h x
    induction hg x with
    | @out x hx =>
      by_cases hm : x ∈ d.nodes
      · exact h x hm
      · have hn : t.nodes[x]? = none := by simpa [parentOf] using hx
        exact .out (by simp [parentOf_join, hn, not_mem_iff.mp hm])
    | @step x y hx _ ih =>
      obtain ⟨node, hnode, rfl⟩ := parentOf_eq_some.mp hx
      exact .step (by simp [parentOf_join, hnode]) ih
  · intro h x _
    exact h x

theorem acyclic_of_rootedMonotonic (hv : Valid d) (hk : ∀ x ∈ t.nodes, x.valid = true)
    (h : rootedMonotonicDeltaAcyclic d.nodes = true) : acyclic d.nodes t.nodes = true := by
  have hstep : ∀ {x y}, parentOf d.nodes x = some y → y.valid = true → y < x ∧ y ∈ d.nodes := by
    intro x y hx hy
    obtain ⟨node, hnode, rfl⟩ := parentOf_eq_some.mp hx
    simpa [hy] using all_toList.mp h x node hnode
  have hdown : ∀ {x y}, Relation.TransGen (fun a b => parentOf d.nodes a = some b) x y → y.valid = true → y < x := by
    intro x y hxy
    induction hxy with
    | single hx => exact fun hy => (hstep hx hy).1
    | tail _ hyz ih =>
      exact fun hz => (hstep hyz hz).1.trans (ih (hv.nodes.valid _ (mem_of_parentOf hyz)))
  have hloop : NoCycle d.nodes := by
    intro x hx
    obtain ⟨y, hy, -⟩ := Relation.TransGen.head'_iff.mp hx
    exact lt_irrefl x (hdown hx (hv.nodes.valid x (mem_of_parentOf hy)))
  refine (acyclicAgainst_spec hv.nodes.valid hk).mpr fun x hx => ?_
  -- the chain stays among the nodes of the delta until it leaves the tree
  have hstay : x ∈ d.nodes ∨ ¬ x.valid = true := .inl hx
  clear hx
  induction noCycle_iff.mp hloop x with
  | @out x hx =>
    have hd : d.nodes[x]? = none := by simpa [parentOf] using hx
    have hx := hstay.resolve_left (not_mem_iff.mpr hd)
    exact .out (by simp [hd, not_mem_iff.mp (mt (hk x) hx)])
  | @step x y hx _ ih =>
    obtain ⟨node, hnode, rfl⟩ := parentOf_eq_some.mp hx
    refine .step (by simp [hnode]) (ih ?_)
    by_cases hy : node.parent.valid = true
    · exact .inl (hstep hx hy).2
    · exact .inr hy

/-! ### Runs -/

/-- Trees after calls of `Add` and `ApplyDelta`, those that failed included. -/
inductive Grown : ORTree → Prop
  | fresh {state : Clock.State} {options : Options} {t : ORTree}
      (h : newFromClockWithOptions state options = .ok t) : Grown t
  | add {t : ORTree} (ht : Grown t) (parent : NodeID) (value : List UInt8) (millis : Int64) :
    Grown (t.add parent value millis).1
  | applyDelta {t : ORTree} (ht : Grown t) (d : Delta) (millis : Int64) : Grown (t.applyDelta d millis).1

/-- An ID that the nodes name. -/
def Seen (nodes : TagMap StoredNode) (x : NodeID) : Prop :=
  ∃ (y : NodeID) (node : StoredNode), nodes[y]? = some node ∧ (x = y ∨ x.valid = true ∧ x = node.parent)

/-- The clock is past what the tree has seen, and no chain of parents goes on for ever. -/
structure Rising (t : ORTree) : Prop where
  replicaID : Tag.valid ⟨t.clock.replicaID, 0, 0⟩ = true
  valid : ∀ x ∈ t.nodes, x.valid = true
  ahead : ∀ x, Seen t.nodes x → tagStamp x ≤ t.clock.stamp
  grounded : ∀ x, Grounded (parentOf t.nodes) x

theorem greatest_eq (d : Delta) : greatest d = greatestTag d.nodes d.tombstones := by
  unfold greatest greatestTag greatestOfNodes
  simp only [Bool.and_eq_true, decide_eq_true_eq, apply_ite some]
  rfl

theorem Rising.join (h : Rising t) (hv : Valid d) (ha : NoConflict t d)
    (hc : rootedMonotonicDeltaAcyclic d.nodes = true ∨ acyclic d.nodes t.nodes = true) {clock : HLC}
    (hid : clock.replicaID = t.clock.replicaID) (hle : t.clock.stamp ≤ clock.stamp)
    (hg : ∀ tag, greatest d = some tag → tagStamp tag ≤ clock.stamp) : Rising (ORTree.join {t with clock} d) := by
  have hnodes : ∀ (x : NodeID) node, (ORTree.join {t with clock} d).nodes[x]? = some node →
      t.nodes[x]? = some node ∨ d.nodes[x]? = some node := by
    intro x node hx
    rw [show (ORTree.join {t with clock} d).nodes[x]? = _ from getElem?_takeNode t.nodes d.nodes false x] at hx
    exact (Option.or_eq_some_iff.mp hx).imp id And.right
  have hshown : ∀ x, Seen d.nodes x → tagStamp x ≤ clock.stamp := by
    rintro x ⟨y, node, hy, hx⟩
    have hx : x ∈ d.nodes ∨ x ∈ d.tombstones ∨ x.valid = true ∧ ∃ y, parentOf d.nodes y = some x := by
      rcases hx with rfl | ⟨hx, rfl⟩
      · exact .inl (mem_iff.mpr ⟨node, hy⟩)
      · exact .inr (.inr ⟨hx, y, parentOf_eq_some.mpr ⟨node, hy, rfl⟩⟩)
    obtain ⟨g, hgreatest, hxg⟩ := le_greatestTag hx
    exact (tagStamp_mono hxg).trans (hg g ((greatest_eq d).trans hgreatest))
  refine ⟨hid ▸ h.replicaID, ?_, ?_, ?_⟩
  · intro x hx
    obtain ⟨node, hnode⟩ := mem_iff.mp hx
    exact (hnodes x node hnode).elim (fun hn => h.valid x (mem_iff.mpr ⟨node, hn⟩))
      fun hn => (hv.nodes x node hn).1
  · rintro x ⟨y, node, hy, hx⟩
    exact (hnodes y node hy).elim (fun hy => (h.ahead x ⟨y, node, hy, hx⟩).trans hle)
      fun hy => hshown x ⟨y, node, hy, hx⟩
  · refine (acyclic_iff hv h.valid h.grounded ha).mp ?_
    exact hc.elim (acyclic_of_rootedMonotonic hv h.valid) id

theorem Rising.applyDelta (h : Rising t) : Rising (t.applyDelta d millis).1 := by
  unfold ORTree.applyDelta
  rcases hv : validate d with err | ⟨⟩
  · exact h
  have hvalid := validate_iff.mp hv
  split_ifs with hvalue hconflict hsub hlimit hacyclic
  · exact h
  · exact h
  · exact h
  · exact h
  · exact h
  have ha : NoConflict t d := fun id node node' hd ht =>
    any_toList_ne.mp (eq_false_of_ne_true hconflict) id node' node ht hd
  have hc : rootedMonotonicDeltaAcyclic d.nodes = true ∨ acyclic d.nodes t.nodes = true := by
    simpa [Classical.or_iff_not_imp_left] using hacyclic
  cases hg : greatest d with
  | none => exact h.join hvalid ha hc rfl le_rfl (by simp [hg])
  | some tag =>
    rcases hw : t.clock.witness tag millis with ⟨clock, err | ⟨⟩⟩
    · obtain rfl := HLC.witness_error hw
      simpa only [hw] using h
    obtain ⟨hid, hle, htag⟩ := HLC.witness_ok hw
    simp only [hw]
    refine h.join hvalid ha hc hid hle.le fun g hg' => ?_
    cases hg.symm.trans hg'
    exact htag.le

theorem Rising.add (h : Rising t) (parent : NodeID) (value : List UInt8) :
    Rising (t.add parent value millis).1 := by
  unfold ORTree.add
  split_ifs with hvalue hlimit hparent
  · exact h
  · exact h
  · exact h
  rcases hn : t.clock.now millis with ⟨clock, err | id⟩
  · obtain rfl := HLC.now_error hn
    exact h
  obtain ⟨rfl, hid, hlt⟩ := HLC.now_ok hn
  have hvalid : clock.tag.valid = true := by
    have := h.replicaID
    rwa [← hid] at this
  have hseen : ∀ {x}, x ∈ t.nodes → Seen t.nodes x := fun hx =>
    let ⟨node, hnode⟩ := mem_iff.mp hx
    ⟨_, node, hnode, .inl rfl⟩
  have hknown : parent.valid = true → Seen t.nodes parent := by
    intro hp
    apply hseen
    by_contra hm
    simp [liveReachable, liveReachableLoop, hp, not_mem_iff.mp hm] at hparent
  -- the new ID is neither a node nor the parent of one
  have hne : ∀ {x}, (x.valid = true → Seen t.nodes x) → x ≠ clock.tag := by
    rintro x hx rfl
    have := h.ahead _ (hx hvalid)
    rw [HLC.tagStamp_tag] at this
    omega
  have hold : ∀ {x}, Grounded (parentOf t.nodes) x → x ≠ clock.tag →
      Grounded (parentOf (t.nodes.insert clock.tag ⟨parent, value⟩)) x := by
    intro x hx
    induction hx with
    | out hx =>
      intro hxne
      exact .out (by rw [parentOf_insert, if_neg hxne.symm, hx])
    | step hx _ ih =>
      intro hxne
      refine .step (by rw [parentOf_insert, if_neg hxne.symm, hx]) (ih (hne fun hv => ?_))
      obtain ⟨node, hnode, rfl⟩ := parentOf_eq_some.mp hx
      exact ⟨_, node, hnode, .inr ⟨hv, rfl⟩⟩
  refine ⟨hid ▸ h.replicaID, ?_, ?_, ?_⟩
  · intro x hx
    rcases mem_insert.mp hx with rfl | hx
    · exact hvalid
    · exact h.valid x hx
  · rintro x ⟨y, node, hy, hx⟩
    rw [get?_insert] at hy
    split_ifs at hy with he
    · cases hy
      rcases hx with rfl | ⟨hx, rfl⟩
      · exact he ▸ le_rfl
      · exact (h.ahead _ (hknown hx)).trans hlt.le
    · exact (h.ahead x ⟨y, node, hy, hx⟩).trans hlt.le
  intro x
  by_cases he : x = clock.tag
  · rw [he]
    exact .step (by rw [parentOf_insert, if_pos rfl]) (hold (h.grounded _) (hne hknown))
  · exact hold (h.grounded x) he

theorem Grown.rising (h : Grown t) : Rising t := by
  induction h with
  | fresh hnew =>
    obtain ⟨hid, he⟩ := newFromClockWithOptions_ok hnew
    rw [he]
    exact ⟨hid, by simp, by simp [Seen], fun x => .out (by simp [parentOf])⟩
  | add _ parent value millis ih => exact ih.add parent value
  | applyDelta _ d millis ih => exact ih.applyDelta

/-- A tree never gets a cycle, and its two checks of a delta are right about it. -/
theorem tree_stays_acyclic (ht : Grown t) : NoCycle t.nodes ∧ ∀ d, validate d = .ok () → NoConflict t d →
        (rootedMonotonicDeltaAcyclic d.nodes = true → acyclic d.nodes t.nodes = true) ∧
          (acyclic d.nodes t.nodes = true ↔ NoCycle (t.join d).nodes) := by
  have h := ht.rising
  refine ⟨noCycle_iff.mpr h.grounded, fun d hd ha => ?_⟩
  have hv := validate_iff.mp hd
  refine ⟨acyclic_of_rootedMonotonic hv h.valid, ?_⟩
  rw [noCycle_iff]
  exact acyclic_iff hv h.valid h.grounded ha

/-- Two nodes came before `a`, the parent of the first, so no walk from the root meets them. With `a` under the
second the chain comes round, with `a` under the root it does not. -/
theorem tree_stays_acyclic_orphans :
    let a : NodeID := ⟨[98], 1, 0⟩
    let b : NodeID := ⟨[98], 2, 0⟩
    let c : NodeID := ⟨[98], 3, 0⟩
    let new : ORTree := {replicaID := [97], clock := ⟨[97], 0, 0⟩, options := .default}
    let t := (new.applyDelta {nodes := ((∅ : TagMap StoredNode).insert b ⟨a, []⟩).insert c ⟨b, []⟩} 0).1
    let closing : Delta := {nodes := (∅ : TagMap StoredNode).insert a ⟨c, []⟩}
    let rooting : Delta := {nodes := (∅ : TagMap StoredNode).insert a ⟨.zero, []⟩}
    (parentOf t.nodes c = some b ∧ parentOf t.nodes b = some a) ∧ NoCycle t.nodes ∧
      (acyclic closing.nodes t.nodes = false ∧ ¬ NoCycle (t.join closing).nodes) ∧
      rootedMonotonicDeltaAcyclic rooting.nodes = true ∧ acyclic rooting.nodes t.nodes = true ∧
      NoCycle (t.join rooting).nodes := by
  intro a b c new t closing rooting
  have hparents : parentOf t.nodes c = some b ∧ parentOf t.nodes b = some a := by decide +kernel
  obtain ⟨hno, hchecks⟩ := tree_stays_acyclic (.applyDelta (@Grown.fresh ⟨[97], 0, 0⟩ .default new rfl) _ 0 : Grown t)
  have hnew : t.nodes[a]? = none := by decide +kernel
  have hfree : ∀ node : StoredNode, NoConflict t {nodes := (∅ : TagMap StoredNode).insert a node} := by
    intro node id node₁ node₂ h₁ h₂
    rw [get?_insert] at h₁
    split_ifs at h₁ with hid
    · rw [← hid, hnew] at h₂
      cases h₂
    · simp at h₁
  have hclosing : acyclic closing.nodes t.nodes = false := by decide +kernel
  have hrooting : rootedMonotonicDeltaAcyclic rooting.nodes = true := by decide +kernel
  obtain ⟨hfast, hexact⟩ := hchecks rooting (by decide +kernel) (hfree _)
  refine ⟨hparents, hno, ⟨hclosing, fun hno' => ?_⟩, hrooting, hfast hrooting, hexact.mp (hfast hrooting)⟩
  have hacyclic := (hchecks closing (by decide +kernel) (hfree _)).2.mpr hno'
  rw [hclosing] at hacyclic
  cases hacyclic

end Crdt.Tree
