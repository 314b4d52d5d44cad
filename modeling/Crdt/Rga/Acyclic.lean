import Crdt.Rga.Join

/-! What the cycle check of an application decides.

The walk of `acyclicAgainst` colours every node it passes; it finds a cycle exactly when
some chain of parents among the incoming and the pending nodes does not end
(`acyclicAgainst_spec`). For a replica whose known nodes are acyclic, that is the question
whether the joined nodes are, whichever of the known nodes are checked again
(`acyclicAgainst_join`). -/
namespace Crdt.Rga

open Sequence Forest MapLoop Option List

variable {V : Type}

/-! ### The walk -/

section Walk
variable {lookup : Position → Option (Node V)} {state : TagMap Colour} {path : List Position}

/-- What a colouring means, while the nodes of `path` are being visited. -/
structure Colours (lookup : Position → Option (Node V)) (state : TagMap Colour)
    (path : List Position) : Prop where
  visiting : ∀ x : Position, state[x]? = some .visiting ↔ x ∈ path
  complete : ∀ x : Position, state[x]? = some .complete →
    Grounded (fun x => (lookup x).map Node.parent) x

theorem Colours.visit (h : Colours lookup state path)
    {x : Position} : Colours lookup (state.insert x .visiting) (path ++ [x]) := by
  constructor
  · intro y
    rw [get?_insert, mem_append, mem_singleton]
    split_ifs with he
    · simp [he]
    · rw [h.visiting]
      exact ⟨.inl, fun hy => hy.resolve_right fun hy => he hy.symm⟩
  intro y hy
  rw [get?_insert] at hy
  split_ifs at hy with he
  · simp at hy
  · exact h.complete y hy

/-- A walk fails on a cycle, and otherwise everything it passed is grounded. `keys` bounds
the nodes a walk can pass. -/
theorem walkUp_spec {keys : List Position} (hkeys : ∀ x item, lookup x = some item → x ∈ keys)
    (hvalid : ∀ x item, lookup x = some item → x.valid = true) {n : Nat}
    (current : Position) (hnodup : path.Nodup) (hsub : path ⊆ keys) (hn : keys.length < n + path.length)
    (hup : ∀ x ∈ path, Relation.TransGen (fun a b => (lookup a).map Node.parent = some b) x current)
    (hc : Colours lookup state path) : match walkUp lookup n state path current with
    | none => ¬ Grounded (fun x => (lookup x).map Node.parent) current
    | some (state', path') => Grounded (fun x => (lookup x).map Node.parent) current ∧
        (∀ x ∈ path', x ∈ path ∨ Grounded (fun x => (lookup x).map Node.parent) x) ∧
        Colours lookup state' path' := by
  induction n generalizing state path current with
  | zero =>
    have := (subperm_of_subset hnodup hsub).length_le
    omega
  | succ n ih =>
    unfold walkUp
    by_cases hv : current.valid = true
    swap
    · have hout : lookup current = none := eq_none_iff_forall_ne_some.mpr fun item hitem =>
        hv (hvalid current item hitem)
      simp only [hv, Bool.not_false]
      exact ⟨.out (by simp [hout]), fun x hx => .inl hx, hc⟩
    simp only [hv]
    cases hs : state[current]? with
    | some colour =>
      cases colour with
      | visiting => exact fun hg => hg.not_on_cycle (hup current ((hc.visiting current).mp hs))
      | complete => exact ⟨hc.complete current hs, fun x hx => .inl hx, hc⟩
    | none =>
      cases hl : lookup current with
      | none => exact ⟨.out (by simp [hl]), fun x hx => .inl hx, hc⟩
      | some next =>
        have hnew : current ∉ path := fun hm => by
          rw [(hc.visiting current).mpr hm] at hs
          simp at hs
        have hstep : (lookup current).map Node.parent = some next.parent := by simp [hl]
        have hwalk := @ih (state.insert current .visiting) (path ++ [current]) next.parent
          (by simpa using hnodup.concat hnew) (append_subset.mpr ⟨hsub, by simpa using hkeys current next hl⟩)
          (by
            rw [length_append, length_singleton]
            omega)
          (forall_mem_append.mpr ⟨fun x hx => .tail (hup x hx) hstep, forall_mem_singleton.mpr (.single hstep)⟩)
          hc.visit
        simp only []
        cases hw : walkUp lookup n (state.insert current .visiting) (path ++ [current]) next.parent with
        | none =>
          rw [hw] at hwalk
          exact fun hg => hwalk ((Grounded.parent_iff hstep).mp hg)
        | some res =>
          rw [hw] at hwalk
          obtain ⟨hg, hpath, hc'⟩ := hwalk
          have hcur := Grounded.step hstep hg
          refine ⟨hcur, fun x hx => ?_, hc'⟩
          rcases hpath x hx with hx | hx
          · rcases mem_append.mp hx with hx | hx
            · exact .inl hx
            · exact .inr (mem_singleton.mp hx ▸ hcur)
          · exact .inr hx

theorem getElem?_foldl_complete (path : List Position) (state : TagMap Colour) (x : Position) :
    (path.foldl (fun state visited => state.insert visited .complete) state)[x]? =
      if x ∈ path then some .complete else state[x]? := by
  induction path generalizing state with
  | nil => simp
  | cons y path ih =>
    rw [foldl_cons, ih, get?_insert]
    by_cases hx : x ∈ path
    · simp [hx]
    simp only [hx, if_false, mem_cons, or_false]
    by_cases he : y = x
    · simp [he]
    · simp [he, Ne.symm he]

theorem acyclicLoop_spec (keys : List Position) (hkeys : ∀ x item, lookup x = some item → x ∈ keys)
    (hvalid : ∀ x item, lookup x = some item → x.valid = true) {fuel : Nat}
    (hfuel : keys.length < fuel) {ids : List Position} (hc : Colours lookup state []) :
    acyclicLoop lookup fuel state ids = true ↔
      ∀ x ∈ ids, Grounded (fun x => (lookup x).map Node.parent) x := by
  induction ids generalizing state with
  | nil => simp [acyclicLoop]
  | cons id ids ih =>
    unfold acyclicLoop
    split_ifs with hdone
    · rw [ih hc, forall_mem_cons, and_iff_right (hc.complete id hdone)]
    have hwalk := walkUp_spec hkeys hvalid id nodup_nil (nil_subset _) (by simpa using hfuel) (by simp) hc
    cases hw : walkUp lookup fuel state [] id with
    | none =>
      rw [hw] at hwalk
      simp only [Bool.false_eq_true, forall_mem_cons, false_iff]
      exact fun h => hwalk h.1
    | some res =>
      rw [hw] at hwalk
      obtain ⟨hg, hpath, hc'⟩ := hwalk
      rw [ih, forall_mem_cons, and_iff_right hg]
      constructor
      · intro x
        rw [getElem?_foldl_complete]
        split_ifs with hx
        · simp
        · simp [hc'.visiting, hx]
      intro x hx'
      rw [getElem?_foldl_complete] at hx'
      split_ifs at hx' with hx
      · exact (hpath x hx).resolve_left (by simp)
      · exact hc'.complete x hx'

end Walk

theorem acyclicAgainst_spec {incoming pending : TagMap (Node V)}
    (hv : ∀ x ∈ incoming, x.valid = true) (hv' : ∀ x ∈ pending, x.valid = true) :
    acyclicAgainst incoming pending = true ↔
      ∀ x ∈ incoming, Grounded (fun x => (incoming[x]?.or pending[x]?).map Node.parent) x := by
  have hmem : ∀ (x : Position) item, incoming[x]?.or pending[x]? = some item →
      x ∈ incoming ∨ x ∈ pending := by
    intro x item hx
    rcases or_eq_some_iff.mp hx with hx | ⟨_, hx⟩
    · exact .inl (mem_iff.mpr ⟨item, hx⟩)
    · exact .inr (mem_iff.mpr ⟨item, hx⟩)
  unfold acyclicAgainst
  rw [acyclicLoop_spec (incoming.keys ++ pending.keys)]
  · simp only [Std.ExtTreeMap.mem_keys]
  · intro x item hx
    simpa using hmem x item hx
  · exact fun x item hx => (hmem x item hx).elim (hv x) (hv' x)
  · simp
  · exact ⟨by simp, by simp⟩

/-! ### The check of an application -/

variable {r r' : Replica V} {nodes incoming : TagMap (Node V)} {tombstones : TagSet} {x : Position}

/-- The parents of everything a replica knows. -/
def Replica.parent (r : Replica V) (x : Position) : Option Position := (r.known x).map Node.parent

/-- The parents of the joined nodes. -/
def joinParent (r : Replica V) (nodes : TagMap (Node V)) (x : Position) : Option Position :=
  ((r.known x).or nodes[x]?).map Node.parent

/-- No chain of parents goes on for ever. -/
def Replica.Acyclic (r : Replica V) : Prop := ∀ x, Grounded r.parent x

theorem Joins.parent_eq (hj : Joins r r' nodes tombstones) : r'.parent = joinParent r nodes := by
  funext x
  rw [Replica.parent, joinParent, hj.known]

/-- Where everything that is joined is rooted, nothing is left pending. -/
theorem Joins.complete (hj : Joins r r' nodes tombstones)
    (hall : ∀ (x : Position) item, (r.known x).or nodes[x]? = some item →
      Rooted (joinParent r nodes) .zero x) :
    r'.pending = ∅ ∧ ∀ x : Position, r'.nodes[x]? = (r.known x).or nodes[x]? := by
  have hmem : ∀ x item, r'.known x = some item → x ∈ r'.nodes := by
    intro x item hx
    rw [mem_nodes_iff_rooted hj.inv hj.settled]
    have := hall x item (hj.known x ▸ hx)
    rw [← hj.parent_eq] at this
    exact this
  have hpend : r'.pending = ∅ := by
    refine Std.ExtTreeMap.eq_empty_iff_forall_not_mem.mpr fun x hx => ?_
    obtain ⟨item, hitem⟩ := mem_iff.mp hx
    exact hj.inv.queued.disjoint x hx (hmem x item (known_of_pending hj.inv.queued hitem))
  refine ⟨hpend, fun x => ?_⟩
  rw [← hj.known, Replica.known, hpend]
  simp

/-- What a replica knows can be joined with `nodes`. -/
structure Accepts (r : Replica V) (nodes : TagMap (Node V)) : Prop where
  agrees : Agrees r nodes
  acyclic : ∀ x, Grounded (joinParent r nodes) x

theorem Accepts.joins (ha : Accepts r nodes) (hj : Joins r r' nodes tombstones) : r'.Acyclic := by
  unfold Replica.Acyclic
  rw [hj.parent_eq]
  exact ha.acyclic

theorem Agrees.joinParent_eq (ha : Agrees r nodes) {item : Node V}
    (hx : r.known x = some item ∨ nodes[x]? = some item) : joinParent r nodes x = some item.parent := by
  rcases hx with hx | hx
  · simp [joinParent, hx]
  · rcases ha x item hx with hk | hk <;> simp [joinParent, hk, hx]

theorem joinParent_zero (h : r.Inv) (hv : ∀ x ∈ nodes, x.valid = true) : joinParent r nodes .zero = none := by
  have h₁ : r.nodes[Tag.zero]? = none := not_mem_iff.mp h.indexed.forested.zero_not_mem
  have h₂ : r.pending[Tag.zero]? = none := eq_none_iff_forall_ne_some.mpr fun item hz => by
    simpa using (h.queued.valid _ _ hz).1
  have h₃ : nodes[Tag.zero]? = none := not_mem_iff.mp fun hz => by simpa using hv _ hz
  simp [joinParent, Replica.known, h₁, h₂, h₃]

theorem grounded_of_reached (h : r.Inv) (hv : ∀ x ∈ nodes, x.valid = true)
    (hx : r.Reached x) : Grounded (joinParent r nodes) x := by
  rcases hx with rfl | hx
  · exact .out (joinParent_zero h hv)
  refine .of_rooted ((h.indexed.forested.rooted x hx).mono fun x y hxy => ?_) (joinParent_zero h hv)
  obtain ⟨item, hitem, rfl⟩ := parentOf_eq_some.mp hxy
  simp [joinParent, Replica.known, hitem]

theorem grounded_join (hac : r.Acyclic) (ha : Agrees r nodes)
    (hnew : ∀ x ∈ nodes, r.known x = none → Grounded (joinParent r nodes) x) (x : Position) :
    Grounded (joinParent r nodes) x := by
  induction hac x with
  | @out x hx =>
    have hk : r.known x = none := by simpa [Replica.parent] using hx
    cases hn : nodes[x]? with
    | none => exact .out (by simp [joinParent, hk, hn])
    | some item => exact hnew x (mem_iff.mpr ⟨item, hn⟩) hk
  | step hx _ ih =>
    obtain ⟨item, hitem, rfl⟩ := map_eq_some_iff.mp hx
    exact .step (ha.joinParent_eq (.inl hitem)) ih

/-- The check decides whether the join is acyclic, as long as every new node is checked. -/
theorem acyclicAgainst_join (h : r.Inv) (hac : r.Acyclic) (ha : Agrees r nodes)
    (hv : ∀ x ∈ nodes, x.valid = true)
    (hsub : ∀ (x : Position) item, incoming[x]? = some item → nodes[x]? = some item)
    (hnew : ∀ (x : Position) item, nodes[x]? = some item → r.known x = none → incoming[x]? = some item) :
    acyclicAgainst incoming r.pending = true ↔ ∀ x, Grounded (joinParent r nodes) x := by
  have hin : ∀ x ∈ incoming, x.valid = true := fun x hx => by
    obtain ⟨item, hitem⟩ := mem_iff.mp hx
    exact hv x (mem_iff.mpr ⟨item, hsub x item hitem⟩)
  have hpend : ∀ x ∈ r.pending, x.valid = true := fun x hx => by
    obtain ⟨item, hitem⟩ := mem_iff.mp hx
    exact (h.queued.valid x item hitem).1
  rw [acyclicAgainst_spec hin hpend]
  set checked := fun x : Position => (incoming[x]?.or r.pending[x]?).map Node.parent
  have hchecked : ∀ x y, checked x = some y → joinParent r nodes x = some y := by
    intro x y hxy
    obtain ⟨item, hitem, rfl⟩ := map_eq_some_iff.mp hxy
    rcases or_eq_some_iff.mp hitem with hx | ⟨_, hx⟩
    · exact ha.joinParent_eq (.inr (hsub x item hx))
    · exact ha.joinParent_eq (.inl (known_of_pending h.queued hx))
  refine ⟨fun hall => ?_, fun hall x _ => (hall x).mono hchecked⟩
  -- outside of the integrated nodes the two parent maps are the same
  have hsame : ∀ x ∉ r.nodes, checked x = joinParent r nodes x := by
    intro x hx
    cases hj : joinParent r nodes x with
    | none =>
      exact eq_none_iff_forall_ne_some.mpr fun y hy => by simp [hchecked x y hy] at hj
    | some y =>
      obtain ⟨item, hitem, rfl⟩ := map_eq_some_iff.mp hj
      have hp : ∀ it, r.known x = some it → r.pending[x]? = some it := fun it hk => by
        simpa [Replica.known, not_mem_iff.mp hx] using hk
      have hsome : (checked x).isSome = true := by
        rcases or_eq_some_iff.mp hitem with hk | ⟨hk, hn⟩
        · simp [checked, hp item hk]
        · simp [checked, hnew x item hn hk]
      obtain ⟨y, hy⟩ := isSome_iff_exists.mp hsome
      rw [hy, ← hchecked x y hy, hj]
  have hof : ∀ x, Grounded checked x → Grounded (joinParent r nodes) x := by
    intro x hx
    induction hx with
    | @out x hx =>
      by_cases hm : x ∈ r.nodes
      · exact grounded_of_reached h hv (.inr hm)
      · exact .out (hsame x hm ▸ hx)
    | step hx _ ih => exact .step (hchecked _ _ hx) ih
  refine grounded_join hac ha fun x hx hk => hof x (hall x ?_)
  obtain ⟨item, hitem⟩ := mem_iff.mp hx
  exact mem_iff.mpr ⟨item, hnew x item hitem hk⟩

end Crdt.Rga
