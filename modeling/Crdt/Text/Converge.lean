import Crdt.Text.Apply

/-! Replicas that got the same deltas are the same.

`Delivered got r` is a history: the replica was new and got the deltas `got`, in any
order and grouping, applied alone, merged into one delta first, or inside another
replica that was merged. Whatever the history, the replica knows exactly the nodes of
these deltas and has exactly their tombstones (`Has`), and a settled replica is
determined by that. -/
namespace Crdt.Text

open Clock Rga Sequence Forest MapLoop Option

/-- Deltas merged into one. -/
inductive Bundle : List Delta → Delta → Prop
  | single (d : Delta) : Bundle [d] d
  | merge {ds es : List Delta} {d e f : Delta} :
      Bundle ds d → Bundle es e → d.merge e = .ok f → Bundle (ds ++ es) f

/-- A new replica, and the deltas it got. -/
inductive Delivered : List Delta → RGA → Prop
  | fresh {state : Clock.State} {options : Options} {r : RGA} :
      newFromClockWithOptions state options = some (.ok r) → Delivered [] r
  | apply {got ds : List Delta} {r r' : RGA} {d : Delta} {millis : Int64} :
      Delivered got r → Bundle ds d → r.applyDelta d millis = some (r', .ok ()) →
      Delivered (got ++ ds) r'
  | merge {got got' : List Delta} {r r' other : RGA} {millis : Int64} :
      Delivered got r → Delivered got' other → r.merge other millis = some (r', .ok ()) →
      Delivered (got ++ got') r'

/-- The nodes of all deltas of a list. -/
def unionNodes (ds : List Delta) : TagMap (Node Rune) :=
  ds.foldr (fun d nodes => nodes ∪ d.nodes) ∅

def unionTombstones (ds : List Delta) : TagSet :=
  ds.foldr (fun d tombstones => tombstones ∪ d.tombstones) ∅

variable {ds : List Delta} {x : Position}

theorem mem_unionTombstones : x ∈ unionTombstones ds ↔ ∃ d ∈ ds, x ∈ d.tombstones := by
  induction ds with
  | nil => simp [unionTombstones]
  | cons d ds ih =>
    have : unionTombstones (d :: ds) = unionTombstones ds ∪ d.tombstones := rfl
    rw [this, Std.ExtTreeSet.mem_union_iff, ih]
    simp [or_comm]

theorem getElem?_unionNodes
    (hagree : ∀ d ∈ ds, ∀ e ∈ ds, ∀ (x : Position) v w, d.nodes[x]? = some v → e.nodes[x]? = some w →
      v = w) {item : Node Rune} : (unionNodes ds)[x]? = some item ↔ ∃ d ∈ ds, d.nodes[x]? = some item := by
  induction ds with
  | nil => simp [unionNodes]
  | cons d ds ih =>
    have ih := ih fun e he f hf => hagree e (by simp [he]) f (by simp [hf])
    have : unionNodes (d :: ds) = unionNodes ds ∪ d.nodes := rfl
    rw [this, Std.ExtTreeMap.getElem?_union]
    cases hd : d.nodes[x]? with
    | none => simp [ih, hd]
    | some v =>
      constructor
      · intro h
        exact ⟨d, by simp, hd.trans h⟩
      · rintro ⟨e, he, hx⟩
        rw [some_or, hagree d (by simp) e he x v item hd hx]

/-! ### What a bundle holds -/

/-- A delta that is the union of others. -/
structure Delta.Covers (d : Delta) (ds : List Delta) : Prop where
  nodes : ∀ (x : Position) item, d.nodes[x]? = some item ↔ ∃ e ∈ ds, e.nodes[x]? = some item
  tombstones : ∀ x, x ∈ d.tombstones ↔ ∃ e ∈ ds, x ∈ e.tombstones

variable {d : Delta}

theorem Delta.merge_spec {e f : Delta} (h : d.merge e = .ok f) :
    (∀ (x : Position) item, f.nodes[x]? = some item ↔ d.nodes[x]? = some item ∨ e.nodes[x]? = some item) ∧
      ∀ x, x ∈ f.tombstones ↔ x ∈ d.tombstones ∨ x ∈ e.tombstones := by
  unfold Delta.merge at h
  rcases validateDelta_cases d with ⟨hv, _⟩ | hv <;> rw [hv] at h
  swap
  · simp [bind, Except.bind] at h
  rcases validateDelta_cases e with ⟨hv, _⟩ | hv <;> rw [hv] at h
  swap
  · simp [bind, Except.bind] at h
  simp only [bind, Except.bind] at h
  split_ifs at h with hc
  cases h
  refine ⟨fun x item => ?_, fun x => ?_⟩
  · change (e.nodes.toList.foldl (fun nodes p => nodes.insert p.1 p.2) d.nodes)[x]? = _ ↔ _
    rw [getElem?_foldl_toList]
    cases he : e.nodes[x]? with
    | none => simp
    | some w =>
      cases hd : d.nodes[x]? with
      | none => simp
      | some v =>
        -- no conflict, so both deltas have the same node
        simp [any_toList_ne.mp (eq_false_of_ne_true hc) x v w hd he]
  · change x ∈ e.tombstones.toList.foldl (fun s id => s.insert id) d.tombstones ↔ _
    rw [TagSet.mem_foldl_insert, Std.ExtTreeSet.mem_toList, or_comm]

theorem Bundle.covers (h : Bundle ds d) : d.Covers ds := by
  induction h with
  | single d => exact ⟨fun x item => by simp, fun x => by simp⟩
  | merge _ _ hm ihd ihe =>
    obtain ⟨hn, ht⟩ := Delta.merge_spec hm
    refine ⟨fun x item => ?_, fun x => ?_⟩
    · rw [hn, ihd.nodes, ihe.nodes]
      simp [or_and_right, exists_or]
    · rw [ht, ihd.tombstones, ihe.tombstones]
      simp [or_and_right, exists_or]

/-! ### What a replica has -/

/-- A settled replica that knows the nodes of the deltas and has their tombstones. -/
structure Has (got : List Delta) (r : RGA) : Prop where
  inv : r.Inv
  settled : r.Settled
  known : ∀ x item, r.known x = some item ↔ ∃ d ∈ got, d.nodes[x]? = some item
  tombstones : ∀ x, x ∈ r.tombstones ↔ ∃ d ∈ got, x ∈ d.tombstones

variable {r : RGA}

theorem newFromClockWithOptions_spec {state : Clock.State} {options : Options}
    (h : newFromClockWithOptions state options = some (.ok r)) : Has [] r := by
  obtain ⟨r₀, hr₀, hinv, hs, hn, hp, ht⟩ := newReplica_spec Rune
  unfold newFromClockWithOptions at h
  split_ifs at h
  · simp at h
  · simp at h
  cases hc : newHLCFromState state with
  | error err => simp [hc] at h
  | ok clock =>
    simp only [hc, hr₀, bind_eq_bind, bind_some] at h
    cases h
    refine ⟨hinv, hs, fun x item => ?_, fun x => ?_⟩
    · simp [Replica.known, hn, hp]
    · simp [ht]

variable {got : List Delta} {r' : RGA} {millis : Int64}

theorem Has.apply (h : Has got r) (hd : d.Covers ds) (ha : Applied r d r') : Has (got ++ ds) r' := by
  refine ⟨ha.joins.inv, ha.joins.settled, fun x item => ?_, fun x => ?_⟩
  · rw [ha.joins.known_iff ha.agrees, h.known, hd.nodes]
    simp [or_and_right, exists_or]
  · rw [ha.joins.tombstones, h.tombstones, hd.tombstones]
    simp [or_and_right, exists_or]

theorem Has.asDelta (h : Has got r) : r.asDelta.Covers got := by
  refine ⟨fun x item => ?_, fun x => h.tombstones x⟩
  rw [← h.known]
  change (r.pending.toList.foldl (fun nodes p => nodes.insert p.1 p.2) r.nodes)[x]? = _ ↔ _
  rw [getElem?_foldl_toList, Replica.known]
  cases hp : r.pending[x]? with
  | none => simp
  | some it =>
    have hn := h.inv.queued.disjoint x (mem_iff.mpr ⟨it, hp⟩)
    rw [not_mem_iff.mp hn]
    rfl

theorem applied_of_ok (h : r.Inv) (hs : r.Settled)
    (happ : r.applyDelta d millis = some (r', .ok ())) : Applied r d r' := by
  rcases ends_of_run (applyDelta_spec h hs d millis) happ with ⟨_, ha⟩ | ⟨⟨err, he⟩, _⟩
  · exact ha
  · simp at he

theorem Delivered.has (h : Delivered got r) : Has got r := by
  induction h with
  | fresh hnew => exact newFromClockWithOptions_spec hnew
  | apply _ hb happ ih => exact ih.apply hb.covers (applied_of_ok ih.inv ih.settled happ)
  | merge _ _ happ ih iho => exact ih.apply iho.asDelta (applied_of_ok ih.inv ih.settled happ)

theorem Has.eq {got' : List Delta} (h : Has got r) (h' : Has got' r') (hsame : ∀ d, d ∈ got ↔ d ∈ got') :
    r.nodes = r'.nodes ∧ r.pending = r'.pending ∧ r.tombstones = r'.tombstones := by
  have hknown : ∀ x, r.known x = r'.known x := fun x => Option.ext fun item => by
    rw [h.known, h'.known]
    simp only [hsame]
  obtain ⟨hn, hp⟩ := eq_of_known h'.inv h'.settled h.inv h.settled hknown
  refine ⟨hn, hp, Std.ExtTreeSet.ext_mem fun x => ?_⟩
  rw [h.tombstones, h'.tombstones]
  simp only [hsame]

theorem Has.positions (h : Has got r) :
    r.positions = some (projection r.nodes r.tombstones) := visiblePositions_spec h.inv

theorem Has.nodes_iff {S : List Delta} (h : Has got r) (hS : ∀ d, d ∈ got ↔ d ∈ S)
    (id : Position) (item : Node Rune) : r.nodes[id]? = some item ↔ (unionNodes S)[id]? = some item ∧
      Rooted (parentOf (unionNodes S)) .zero id := by
  have hunion : ∀ x, r.known x = (unionNodes S)[x]? := fun x => Option.ext fun item => by
    rw [h.known, getElem?_unionNodes]
    · simp only [hS]
    intro d hd e he x v w hv hw
    have h₁ := (h.known x v).mpr ⟨d, (hS d).mpr hd, hv⟩
    have h₂ := (h.known x w).mpr ⟨e, (hS e).mpr he, hw⟩
    rw [h₁] at h₂
    exact some.inj h₂
  have hroot : id ∈ r.nodes ↔ _ := mem_nodes_iff_rooted h.inv h.settled
  have hparent : (fun x => (r.known x).map Node.parent) = parentOf (unionNodes S) := by
    funext x
    rw [hunion]
    rfl
  rw [hparent] at hroot
  rw [← hunion, ← hroot, Replica.known]
  cases hn : r.nodes[id]? with
  | none => simp [not_mem_iff.mpr hn]
  | some it => simp [mem_iff.mpr ⟨it, hn⟩]

/-- Convergence. Two replicas that got the same deltas agree in everything: the nodes
within reach of the root in the union of the deltas are integrated, the others are
pending, and the text is the traversal of that forest without the tombstoned positions.
Deltas that contradict each other are refused, so nothing needs to be assumed of them. -/
theorem deliveries_converge {S got got' : List Delta} {r r' : RGA} (h : Delivered got r)
    (h' : Delivered got' r') (hS : ∀ d, d ∈ got ↔ d ∈ S) (hS' : ∀ d, d ∈ got' ↔ d ∈ S) :
    (r.nodes = r'.nodes ∧ r.pending = r'.pending ∧ r.tombstones = r'.tombstones) ∧
      (r.string = r'.string ∧ r.positions = r'.positions) ∧
      (∀ (id : Position) item, r.nodes[id]? = some item ↔ (unionNodes S)[id]? = some item ∧
        Rooted (parentOf (unionNodes S)) .zero id) ∧ (∀ id, id ∈ r.tombstones ↔ id ∈ unionTombstones S) ∧
      r.positions = some (projection r.nodes (unionTombstones S)) := by
  have hsame := h.has.eq h'.has fun d => (hS d).trans (hS' d).symm
  obtain ⟨hn, hp, ht⟩ := hsame
  have hpos : r.positions = r'.positions := by rw [h.has.positions, h'.has.positions, hn, ht]
  have htomb : r.tombstones = unionTombstones S := Std.ExtTreeSet.ext_mem fun x => by
    rw [h.has.tombstones, mem_unionTombstones]
    simp only [hS]
  refine ⟨⟨hn, hp, ht⟩, ⟨?_, hpos⟩, h.has.nodes_iff hS, fun id => by rw [htomb], ?_⟩
  · unfold RGA.string RGA.visibleRunes
    rw [hpos, hn]
  · rw [h.has.positions, htomb]

/-- A list of deltas, applied one by one. -/
def applyAll (millis : Int64) : RGA → List Delta → Option RGA
  | r, [] => some r
  | r, d :: ds =>
    match r.applyDelta d millis with
    | some (r', .ok ()) => applyAll millis r' ds
    | _ => none

/-- A new replica, with the deltas of a list. -/
def newWith (replicaID : List UInt8) (ds : List Delta) : Option RGA :=
  match newWithOptions replicaID defaultOptions with
  | some (.ok r) => applyAll 100 r ds
  | _ => none

/-- What holds of new replicas and is kept when a delta is applied holds of `newWith`. -/
theorem newWith_induct {replicaID : List UInt8} {P : List Delta → RGA → Prop}
    (hnew : ∀ {r}, newWithOptions replicaID defaultOptions = some (.ok r) → P [] r)
    (happly : ∀ {got r d r'}, P got r → r.applyDelta d 100 = some (r', .ok ()) → P (got ++ [d]) r')
    (h : newWith replicaID ds = some r) : P ds r := by
  have hall : ∀ {ds got r r'}, P got r → applyAll 100 r ds = some r' → P (got ++ ds) r' := by
    intro ds
    induction ds with
    | nil =>
      rintro got r _ hP ⟨⟩
      rwa [List.append_nil]
    | cons d ds ih =>
      intro got r r' hP happ
      unfold applyAll at happ
      split at happ
      · rename_i r₁ hd
        simpa using ih (happly hP hd) happ
      · simp at happ
  unfold newWith at h
  split at h
  · rename_i r₀ hr₀
    exact hall (hnew hr₀) h
  · simp at h

theorem delivered_newWith {replicaID : List UInt8} (h : newWith replicaID ds = some r) : Delivered ds r :=
  newWith_induct .fresh (fun h hd => h.apply (.single _) hd) h

/-- A node, its child, and the tombstone of the child: a replica that gets them backwards
converges with one that gets them in order. -/
theorem deliveries_converge_backwards :
    let a : Tag := ⟨[1], 5, 0⟩
    let b : Tag := ⟨[1], 6, 0⟩
    let root : Delta := {nodes := (∅ : TagMap (Node Rune)).insert a ⟨.zero, 97⟩}
    let child : Delta := {nodes := (∅ : TagMap (Node Rune)).insert b ⟨a, 98⟩}
    let bury : Delta := {tombstones := (∅ : TagSet).insert b}
    ∃ r r', Delivered [bury, child, root] r ∧ Delivered [root, child, bury] r' ∧
      r.string = r'.string ∧ r.positions = some [a] := by
  intro a b root child bury
  have h : ((newWith [7] [bury, child, root]).bind RGA.positions) = some [a] := by decide +kernel
  have h' : (newWith [8] [root, child, bury]).isSome = true := by decide +kernel
  obtain ⟨r, hr, hpos⟩ := bind_eq_some_iff.mp h
  obtain ⟨r', hr'⟩ := isSome_iff_exists.mp h'
  have hd := delivered_newWith hr
  have hd' := delivered_newWith hr'
  have hS : ∀ d, d ∈ [bury, child, root] ↔ d ∈ [root, child, bury] := fun d =>
    (List.mem_reverse : d ∈ [root, child, bury].reverse ↔ _)
  exact ⟨r, r', hd, hd', (deliveries_converge hd hd' hS fun _ => Iff.rfl).2.1.1, hpos⟩

end Crdt.Text
