import Crdt.Lib.Map

/-! The version repository.

Versions are named by the hash of their parents and state, and a branch is a name for one of them, its head.
`History` walks from the head of a branch through the parents, depth first, and lists a version when it comes to
it. So it lists what is reachable from the head, each version once and the head first, and every other version
after one of its children (`history_lists_reachable`).

Where two lines of versions meet again in a common parent, the second line comes after its own ancestor
(`ancestor_before_second_line`). -/
namespace Crdt.History

open MapLoop List

abbrev ID := List UInt8

def zeroID : ID := replicate 32 0

structure Version (σ : Type) where
  id : ID
  parents : List ID
  state : σ

inductive Err
  | invalidState
  | invalidCommand
  | resourceLimit
deriving DecidableEq, Repr

structure RepositoryOptions where
  maxVersions : Int
  maxBranches : Int
  maxParents : Int

/-- A branch without a version has no head. -/
structure Repository (σ : Type) where
  options : RepositoryOptions
  versions : ByteMap (Version σ) := ∅
  branches : ByteMap (Option ID) := ∅
  keyed : ∀ (id : ID) v, versions[id]? = some v → v.id = id := by simp

/-- What the repository asks of names, states, hashes and encoded sizes. -/
structure Env (σ : Type) where
  validScope : List UInt8 → Bool
  normalizeState : σ → Except Err σ
  versionData : List ID → σ → Except Err ID
  withinLimit : Repository σ → Bool

section Model
variable {σ : Type} (e : Env σ) (r : Repository σ)

def createBranch (name : List UInt8) (start : Option ID) : Except Err (Repository σ) := do
  if !e.validScope name then throw .invalidCommand
  if r.branches.contains name then throw .invalidState
  if r.branches.size ≥ r.options.maxBranches then throw .resourceLimit
  if start.any (!r.versions.contains ·) then throw .invalidState
  let r := {r with branches := r.branches.insert name start}
  if !e.withinLimit r then throw .resourceLimit
  return r

def fork (target source : List UInt8) : Except Err (Repository σ) :=
  match r.branches[source]? with
  | some (some head) => createBranch e r target (some head)
  | _ => .error .invalidState

/-- In order, and each once. -/
def canonicalParents (parents : List ID) : List ID :=
  (Std.ExtTreeSet.ofList parents compare).toList.filter (· ≠ zeroID)

def store (version : Version σ) : Repository σ where
  options := r.options
  versions := r.versions.insert version.id version
  branches := r.branches
  keyed id v h := by
    rw [get?_insert] at h
    split_ifs at h with hid
    · cases h
      exact hid
    · exact r.keyed id v h

def commitLocked (branch : List UInt8) (parents : List ID) (state : σ) : Except Err (Repository σ) := do
  if parents.length > r.options.maxParents then throw .resourceLimit
  let parents := canonicalParents parents
  if !parents.all (r.versions.contains ·) then throw .invalidState
  let state ← e.normalizeState state
  let id ← e.versionData parents state
  if !r.versions.contains id && r.versions.size ≥ r.options.maxVersions then throw .resourceLimit
  let r := if r.versions.contains id then r else store r ⟨id, parents, state⟩
  let r := {r with branches := r.branches.insert branch (some id)}
  if !e.withinLimit r then throw .resourceLimit
  return r

def commit (branch : List UInt8) (state : σ) : Except Err (Repository σ) :=
  match r.branches[branch]? with
  | some head => commitLocked e r branch head.toList state
  | none => .error .invalidState

def merge (target source : List UInt8) (state : σ) : Except Err (Repository σ) :=
  match r.branches[target]?, r.branches[source]? with
  | some (some left), some (some right) =>
    commitLocked e r target (if right ≠ left then [left, right] else [left]) state
  | _, _ => .error .invalidState

/-- The function `visit` of `History`. The versions listed so far are those seen; fuel bounds the depth. -/
def visit (versions : ByteMap (Version σ)) : Nat → List (Version σ) → ID → Option (List (Version σ))
  | 0, _, _ => none
  | fuel + 1, result, id =>
    if id ∈ result.map Version.id then some result
    else match versions[id]? with
      | none => some result
      | some version => version.parents.foldlM (visit versions fuel) (result ++ [version])

def history (branch : List UInt8) : List (Version σ) :=
  match r.branches[branch]? with
  | some (some head) => (visit r.versions (r.versions.size + 1) [] head).getD []
  | _ => []

end Model

/-! ### What a walk lists -/

section Walk
variable {σ : Type} {versions : ByteMap (Version σ)} {head id : ID} {l result : List (Version σ)} {v : Version σ} {fuel : Nat}

/-- One version is reached from another through parents. -/
def Reach (versions : ByteMap (Version σ)) : ID → ID → Prop :=
  Relation.ReflTransGen fun child parent => ∃ v, versions[child]? = some v ∧ parent ∈ v.parents

/-- The head comes first, and another version after one of its children. -/
def Follows (head : ID) (before : List (Version σ)) (id : ID) : Prop :=
  if before = [] then id = head else ∃ child ∈ before, id ∈ child.parents

/-- A list that walks from the head make: of stored versions, each once. -/
inductive Listed (versions : ByteMap (Version σ)) (head : ID) : List (Version σ) → Prop
  | nil : Listed versions head []
  | add {l : List (Version σ)} {v : Version σ} (h : Listed versions head l) (hv : versions[v.id]? = some v)
      (hnew : v.id ∉ l.map Version.id) (hfollows : Follows head l v.id) : Listed versions head (l ++ [v])

section
variable (h : Listed versions head l)
include h

theorem Listed.nodup : (l.map Version.id).Nodup := by
  induction h with
  | nil => exact nodup_nil
  | add _ _ hnew _ ih => simpa [nodup_append, ih] using hnew

theorem Listed.reached (hv : v ∈ l) : versions[v.id]? = some v ∧ Reach versions head v.id := by
  induction h generalizing v with
  | nil => cases hv
  | add _ hstored _ hfollows ih =>
    rcases mem_append.mp hv with hv | hv
    · exact ih hv
    cases mem_singleton.mp hv
    refine ⟨hstored, ?_⟩
    unfold Follows at hfollows
    split_ifs at hfollows
    · rw [hfollows]
      exact .refl
    obtain ⟨child, hchild, hparent⟩ := hfollows
    exact (ih hchild).2.tail ⟨child, (ih hchild).1, hparent⟩

theorem Listed.follows {before after : List (Version σ)} (hl : l = before ++ v :: after) : Follows head before v.id := by
  induction h generalizing after with
  | nil => simp at hl
  | add _ _ _ hfollows ih =>
    rcases eq_nil_or_concat after with rfl | ⟨after, w, rfl⟩
    · obtain ⟨rfl, hw⟩ := append_inj' hl rfl
      cases hw
      exact hfollows
    · rw [concat_eq_append, ← cons_append, ← append_assoc] at hl
      exact ih (append_inj' hl rfl).1

theorem Listed.length_le : l.length ≤ versions.size := by
  have hsub : l.map Version.id ⊆ versions.toList.map Prod.fst := by
    intro x hx
    obtain ⟨v, hv, rfl⟩ := mem_map.mp hx
    exact mem_map.mpr ⟨(v.id, v), mem_toList.mpr (h.reached hv).1, rfl⟩
  have hle := (h.nodup.subperm hsub).length_le
  rwa [length_map, length_map, Std.ExtTreeMap.length_toList] at hle

end

/-- Walks from the roots make one list of another. Whatever they add is there with its parents. -/
structure Walks (versions : ByteMap (Version σ)) (head : ID) (roots : List ID) (l l' : List (Version σ)) : Prop where
  listed : Listed versions head l'
  more : l <+: l'
  found : ∀ root ∈ roots, ∀ v, versions[root]? = some v → v ∈ l'
  closed : ∀ v ∈ l', v ∈ l ∨ ∀ parent ∈ v.parents, ∀ w, versions[parent]? = some w → w ∈ l'

theorem Walks.cons {roots : List ID} {l' l'' : List (Version σ)} (h : Walks versions head [id] l l')
    (h' : Walks versions head roots l' l'') : Walks versions head (id :: roots) l l'' where
  listed := h'.listed
  more := h.more.trans h'.more
  found := forall_mem_cons.mpr ⟨fun v hv => h'.more.subset (h.found id (mem_singleton_self _) v hv), h'.found⟩
  closed v hv := by
    rcases h'.closed v hv with hv | hclosed
    · exact (h.closed v hv).imp_right fun hclosed parent hp w hw => h'.more.subset (hclosed parent hp w hw)
    · exact .inr hclosed

/-- More fuel than versions that are not listed yet is enough. -/
theorem visit_spec (hkeyed : ∀ (id : ID) v, versions[id]? = some v → v.id = id) (h : Listed versions head result)
    (hid : Follows head result id) (hfuel : versions.size < fuel + result.length) :
    ∃ l, visit versions fuel result id = some l ∧ Walks versions head [id] result l := by
  induction fuel generalizing result id with
  | zero => exact absurd h.length_le (by omega)
  | succ fuel ih =>
    rw [visit]
    split_ifs with hseen
    · refine ⟨result, rfl, h, prefix_rfl, forall_mem_singleton.mpr fun v hv => ?_, fun _ => .inl⟩
      obtain ⟨w, hw, rfl⟩ := mem_map.mp hseen
      cases (h.reached hw).1.symm.trans hv
      exact hw
    cases hv : versions[id]? with
    | none =>
      refine ⟨result, rfl, h, prefix_rfl, forall_mem_singleton.mpr fun v hv' => ?_, fun _ => .inl⟩
      cases hv.symm.trans hv'
    | some v =>
      obtain rfl := hkeyed id v hv
      have hfold : ∀ parents ⊆ v.parents, ∀ result, Listed versions head result → v ∈ result →
          versions.size < fuel + result.length →
          ∃ l, parents.foldlM (visit versions fuel) result = some l ∧ Walks versions head parents result l := by
        intro parents
        induction parents with
        | nil => exact fun _ result h _ _ => ⟨result, rfl, h, prefix_rfl, nofun, fun _ => .inl⟩
        | cons parent parents ihp =>
          intro hparents result h hmem hfuel
          obtain ⟨hparent, hparents⟩ := cons_subset.mp hparents
          obtain ⟨l, hvisit, hl⟩ := ih h (by rw [Follows, if_neg (ne_nil_of_mem hmem)]; exact ⟨v, hmem, hparent⟩) hfuel
          obtain ⟨l', hrest, hl'⟩ := ihp hparents l hl.listed (hl.more.subset hmem) (by have := hl.more.length_le; omega)
          refine ⟨l', ?_, hl.cons hl'⟩
          rw [foldlM_cons, hvisit]
          exact hrest
      obtain ⟨l, hvisit, hl⟩ := hfold v.parents (Subset.refl _) (result ++ [v]) (h.add hv hseen hid) (by simp)
        (by rw [length_append, length_singleton]; omega)
      refine ⟨l, hvisit, hl.listed, (prefix_append _ _).trans hl.more,
        forall_mem_singleton.mpr fun w hw => ?_, fun w hw => ?_⟩
      · cases hv.symm.trans hw
        exact hl.more.subset (by simp)
      rcases hl.closed w hw with hw | hclosed
      · rcases mem_append.mp hw with hw | hw
        · exact .inl hw
        · cases mem_singleton.mp hw
          exact .inr hl.found
      · exact .inr hclosed

end Walk

/-- `History` lists the versions that are reachable from the head of a branch, each once. The head is the first, every
other version comes after one of its children, and the walk comes to an end in every graph of versions. -/
theorem history_lists_reachable {σ : Type} (r : Repository σ) (branch : List UInt8) (head : ID)
    (h : r.branches[branch]? = some (some head)) :
    visit r.versions (r.versions.size + 1) [] head = some (history r branch) ∧
    ((history r branch).map Version.id).Nodup ∧
    (∀ v, v ∈ history r branch ↔ r.versions[v.id]? = some v ∧ Reach r.versions head v.id) ∧
    ∀ before v after, history r branch = before ++ v :: after →
      if before = [] then v.id = head else ∃ child ∈ before, v.id ∈ child.parents := by
  obtain ⟨l, hvisit, hl⟩ := visit_spec r.keyed .nil (show Follows head [] head from rfl) (Nat.lt_succ_self _)
  have hlist : history r branch = l := by
    unfold history
    rw [h]
    dsimp only
    rw [hvisit]
    rfl
  have hreach : ∀ id, Reach r.versions head id → ∀ v, r.versions[id]? = some v → v ∈ l := by
    intro id hid
    induction hid with
    | refl => exact hl.found head (mem_singleton_self _)
    | tail _ hstep ih =>
      obtain ⟨child, hchild, hparent⟩ := hstep
      exact (hl.closed child (ih child hchild)).resolve_left nofun _ hparent
  rw [hlist]
  exact ⟨hvisit, hl.listed.nodup, fun v => ⟨hl.listed.reached, fun hv => hreach _ hv.2 v hv.1⟩,
    fun _ _ _ => hl.listed.follows⟩

/-- Names are not checked, states are their own hashes, and nothing is too large. -/
def plainEnv : Env UInt8 where
  validScope _ := true
  normalizeState := .ok
  versionData _ state := .ok [state]
  withinLimit _ := true

/-- `main` has the versions 1 and 2, `side` forks at 1 and has 3, and 4 merges them. -/
def mergedLines : Except Err (Repository UInt8) := do
  let r ← createBranch plainEnv {options := ⟨10, 10, 8⟩} [109] none
  let r ← commit plainEnv r [109] 1
  let r ← fork plainEnv r [115] [109]
  let r ← commit plainEnv r [109] 2
  let r ← commit plainEnv r [115] 3
  merge plainEnv r [109] [115] 4

/-- All four are listed, 1 once although both lines lead to it, and 3 after 4, its child. -/
theorem history_lists_reachable_merge : ∃ r, mergedLines = .ok r ∧ r.branches[([109] : List UInt8)]? = some (some [4]) ∧
    (history r [109]).map Version.id = [[4], [2], [1], [3]] ∧ ((history r [109]).map Version.id).Nodup ∧
    (∀ v, v ∈ history r [109] ↔ r.versions[v.id]? = some v ∧ Reach r.versions [4] v.id) ∧
    ∀ before v after, history r [109] = before ++ v :: after → v.id ≠ [4] → ∃ child ∈ before, v.id ∈ child.parents := by
  have hrun : mergedLines.toOption.map (fun r => (r.branches[([109] : List UInt8)]?, (history r [109]).map Version.id)) =
      some (some (some [4]), [[4], [2], [1], [3]]) := by decide +kernel
  cases hr : mergedLines with
  | error err =>
    rw [hr] at hrun
    cases hrun
  | ok r =>
    rw [hr] at hrun
    obtain ⟨hhead, hids⟩ := Prod.mk.inj (Option.some.inj hrun)
    obtain ⟨-, honce, hlisted, hfollows⟩ := history_lists_reachable r [109] [4] hhead
    refine ⟨r, rfl, hhead, hids, honce, hlisted, fun before v after hsplit hne => ?_⟩
    have hv := hfollows before v after hsplit
    split_ifs at hv
    · exact absurd hv hne
    · exact hv

/-- `main` has the versions 1 and 2, `side` 1 and 3, and 4 merges them: 3 is listed after 1, its parent. -/
theorem ancestor_before_second_line : (do
      let r ← createBranch plainEnv {options := ⟨10, 10, 8⟩} [109] none
      let r ← commit plainEnv r [109] 1
      let r ← fork plainEnv r [115] [109]
      let r ← commit plainEnv r [109] 2
      let r ← commit plainEnv r [115] 3
      let r ← merge plainEnv r [109] [115] 4
      return (history r [109]).map fun v => (v.id, v.parents) : Except Err _).toOption =
    some [([4], [[2], [3]]), ([2], [[1]]), ([1], []), ([3], [[1]])] := by
  decide +kernel

end Crdt.History
