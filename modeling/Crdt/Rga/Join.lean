import Crdt.Rga.Pending

/-! What a whole call does to a replica.

`Joins r r' nodes tombstones` is the purpose of an application: afterwards the replica
knows what it knew and the new nodes, has the old and the new tombstones, and nothing
that could be integrated is left pending. Both packages reach it, each in its own way,
from a state that holds the new nodes on one side or the other (`settle_spec`). -/
namespace Crdt.Rga

open Sequence Forest MapLoop List

variable {V : Type} {x : Position}

/-- The tags that a delta shows to a clock: of its nodes, of their parents and its tombstones. -/
def shownTags (nodes : TagMap (Node V)) (tombstones : TagSet) : List Tag :=
  (nodes.toList.flatMap fun p => p.1 :: if p.2.parent.valid then [p.2.parent] else []) ++ tombstones.toList

theorem greatestTag_eq_max? (nodes : TagMap (Node V)) (tombstones : TagSet) :
    greatestTag nodes tombstones = (shownTags nodes tombstones).max? := by
  have hmax : ∀ l : List Tag, l.max? = l.foldl (fun greatest id =>
      greatest.elim (some id) fun greatest => some (if greatest.compare id = .lt then id else greatest)) none := by
    intro l
    cases l with
    | nil => rfl
    | cons a l =>
      rw [max?_cons']
      refine (foldl_hom some fun x y => ?_).symm
      simp only [Tag.compare_eq_lt_iff, max_def_lt, Option.elim_some]
  rw [hmax, shownTags, foldl_append, foldl_flatMap, greatestTag, greatestOfNodes]
  congr 2
  · funext acc id
    cases acc <;> rfl
  · funext acc p
    by_cases hv : p.2.parent.valid = true <;> cases acc <;> simp [hv]

theorem mem_shownTags {nodes : TagMap (Node V)} {tombstones : TagSet} : x ∈ shownTags nodes tombstones ↔
    x ∈ nodes ∨ x ∈ tombstones ∨ x.valid = true ∧ ∃ y, parentOf nodes y = some x := by
  simp only [shownTags, mem_append, mem_flatMap, Prod.exists, mem_toList, mem_cons, Std.ExtTreeSet.mem_toList]
  constructor
  · rintro (⟨y, item, hy, rfl | hx⟩ | hx)
    · exact .inl (mem_iff.mpr ⟨item, hy⟩)
    · split_ifs at hx with hv
      · obtain rfl := mem_singleton.mp hx
        exact .inr (.inr ⟨hv, y, parentOf_eq_some.mpr ⟨item, hy, rfl⟩⟩)
      · cases hx
    · exact .inr (.inl hx)
  rintro (hx | hx | ⟨hv, y, hy⟩)
  · obtain ⟨item, hitem⟩ := mem_iff.mp hx
    exact .inl ⟨x, item, hitem, .inl rfl⟩
  · exact .inr hx
  · obtain ⟨item, hitem, rfl⟩ := parentOf_eq_some.mp hy
    exact .inl ⟨y, item, hitem, .inr (by simp [hv])⟩

theorem le_greatestTag {nodes : TagMap (Node V)} {tombstones : TagSet}
    (hx : x ∈ nodes ∨ x ∈ tombstones ∨ x.valid = true ∧ ∃ y, parentOf nodes y = some x) :
    ∃ g, greatestTag nodes tombstones = some g ∧ x ≤ g := by
  rw [greatestTag_eq_max?]
  have hmem := mem_shownTags.mpr hx
  cases hg : (shownTags nodes tombstones).max? with
  | none => simp [max?_eq_none_iff.mp hg] at hmem
  | some g => exact ⟨g, rfl, (max?_eq_some_iff.mp hg).2 x hmem⟩

variable {r r' r'' : Replica V} {nodes : TagMap (Node V)} {tombstones : TagSet}

structure Joins (r r' : Replica V) (nodes : TagMap (Node V)) (tombstones : TagSet) : Prop where
  inv : r'.Inv
  settled : r'.Settled
  known : ∀ x, r'.known x = (r.known x).or nodes[x]?
  tombstones : ∀ x, x ∈ r'.tombstones ↔ x ∈ r.tombstones ∨ x ∈ tombstones

/-- Two nodes under one identifier are the same node. -/
def Agrees (r : Replica V) (nodes : TagMap (Node V)) : Prop :=
  ∀ (x : Position) item, nodes[x]? = some item → r.known x = none ∨ r.known x = some item

theorem Joins.known_iff (hj : Joins r r' nodes tombstones) (ha : Agrees r nodes)
    {item : Node V} : r'.known x = some item ↔ r.known x = some item ∨ nodes[x]? = some item := by
  rw [hj.known]
  cases hk : r.known x with
  | none => simp
  | some it =>
    refine ⟨.inl, ?_⟩
    rintro (h | h)
    · exact h
    rcases ha x item h with h' | h' <;> rw [hk] at h'
    · simp at h'
    · exact h'

theorem conflicts_eq_false [DecidableEq V] (h : r.Queued) : r.conflicts nodes = false ↔ Agrees r nodes := by
  have hone : ∀ (x : Position) (item : Node V),
      (r.nodes[x]?.any (· ≠ item) || r.pending[x]?.any (· ≠ item)) = false ↔
        r.known x = none ∨ r.known x = some item := by
    intro x item
    unfold Replica.known
    cases hn : r.nodes[x]? with
    | none => cases r.pending[x]? <;> simp
    | some it =>
      have hp : r.pending[x]? = none := not_mem_iff.mp fun hp =>
        h.disjoint x hp (mem_iff.mpr ⟨it, hn⟩)
      simp [hp]
  unfold Replica.conflicts Agrees
  rw [any_toList]
  simp only [hone]

/-- A call with nothing new changes nothing. -/
theorem joins_of_subsumes [DecidableEq V] (h : r.Inv) (hs : r.Settled)
    (hsub : r.subsumes nodes tombstones = true) : Joins r r nodes tombstones := by
  simp only [Replica.subsumes, Bool.and_eq_true, all_toList, Bool.or_eq_true, decide_eq_true_eq] at hsub
  refine ⟨h, hs, fun x => ?_, fun x => ⟨.inl, ?_⟩⟩
  · cases hx : nodes[x]? with
    | none => simp
    | some item =>
      have hk : r.known x = some item := by
        rcases hsub.1 x item hx with hn | hp
        · rw [Replica.known, hn]
          rfl
        · exact known_of_pending h.queued hp
      rw [hk]
      rfl
  · rintro (hx | hx)
    · exact hx
    · have := all_eq_true.mp hsub.2 x (Std.ExtTreeSet.mem_toList.mpr hx)
      simpa using this

/-! ### Queueing -/

theorem foldl_enqueuePending_spec (pkg : Package V) {l : List (Position × Node V)} (h : r.Inv)
    (hl : l.Pairwise (·.1 ≠ ·.1)) (hnew : ∀ p ∈ l, r.known p.1 = none ∧ p.1.valid = true ∧
      (p.2.parent = .zero ∨ p.2.parent.valid = true)) :
    let r' := l.foldl (fun r p => r.enqueuePending pkg p.1 p.2) r
    r'.Inv ∧ r'.tombstones = r.tombstones ∧
      ∀ x item, r'.known x = some item ↔ r.known x = some item ∨ (x, item) ∈ l := by
  induction l generalizing r with
  | nil => exact ⟨h, rfl, by simp⟩
  | cons p l ih =>
    obtain ⟨hp, hl⟩ := pairwise_cons.mp hl
    obtain ⟨hk, hv, hpv⟩ := hnew p (by simp)
    obtain ⟨hn, hpe⟩ := not_mem_of_known hk
    have hknown : ∀ x, (r.enqueuePending pkg p.1 p.2).known x = if p.1 = x then some p.2 else r.known x := by
      intro x
      simp only [Replica.known, Replica.enqueuePending, get?_insert]
      split_ifs with hx
      · rw [← hx, not_mem_iff.mp hn, Option.none_or]
      · rfl
    obtain ⟨hinv, htomb, hall⟩ := ih (enqueuePending_spec pkg h hn hpe hv hpv) hl fun q hq => by
      rw [hknown, if_neg (hp q hq)]
      exact hnew q (by simp [hq])
    refine ⟨hinv, htomb, fun x item => ?_⟩
    rw [foldl_cons, hall, hknown, mem_cons, ← or_assoc]
    refine or_congr_left ?_
    split_ifs with hx
    · simp [← hx, hk, Prod.ext_iff, eq_comm]
    · simp [Prod.ext_iff, Ne.symm hx]

/-! ### The end of a call -/

/-- Draining and burying, from a state that knows the new nodes, is a join. -/
theorem settle_spec (pkg : Package V) (recheck : Replica V → Node V → Bool)
    (hrecheck : ∀ r item, r.Reached item.parent → recheck r item = true) (h : r'.Inv)
    (hknown : ∀ x, r'.known x = (r.known x).or nodes[x]?) (htomb : r'.tombstones = r.tombstones) :
    ∃ r₁ drained r₂ buried, r'.integrateReady pkg recheck = some (r₁, drained) ∧
      r₁.applyTombstones tombstones.toList = some (r₂, buried) ∧
      ∀ version, Joins r {r₂ with version} nodes tombstones := by
  obtain ⟨r₁, drained, hdrain, hd⟩ := integrateReady_spec pkg hrecheck h
  obtain ⟨r₂, buried, hbury, hb⟩ := applyTombstones_spec hd.inv tombstones.toList
  refine ⟨r₁, drained, r₂, buried, hdrain, hbury, fun version => ⟨?_, ?_, fun x => ?_, fun x => ?_⟩⟩
  · exact ⟨hb.inv.indexed, hb.inv.queued.congr rfl rfl hb.inv.queued.disjoint⟩
  · exact hb.settled hd.settled
  · exact (hb.known x).trans ((hd.known x).trans (hknown x))
  · change x ∈ r₂.tombstones ↔ _
    rw [hb.tombstones, hd.tombstones, htomb, Std.ExtTreeSet.mem_toList]

end Crdt.Rga
