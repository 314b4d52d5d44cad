import Mathlib

/-! Hash trees over a list of leaves, padded level by level.

`up` pairs the nodes of a level from left to right and joins each pair; a last node without a partner is
joined with the pad. `climb` repeats this until one node is left. The root determines the leaves, if no leaf or
joined node is the pad (then a level determines the one below, `up_inj`) and no leaf is a joined node (then
equal roots have equal heights, `leaves_eq_of_climb_eq`), among the pairs that the two trees join. -/
namespace HashTree

open List

variable {D : Type*} (node : D × D → D) (pad : D)

/-- The pairs that one round joins. -/
def pairs : List D → List (D × D)
  | [] => []
  | [a] => [(a, pad)]
  | a :: b :: l => (a, b) :: pairs l

/-- One round. -/
def up (l : List D) : List D := (pairs pad l).map node

/-- The rounds, until at most one node is left. -/
def climb : Nat → List D → List D
  | 0, l => l
  | n + 1, l => if l.length > 1 then climb n (up node pad l) else l

/-- All pairs that the rounds join. -/
def joined : Nat → List D → List (D × D)
  | 0, _ => []
  | n + 1, l => if l.length > 1 then pairs pad l ++ joined n (up node pad l) else []

theorem length_pairs (l : List D) : (pairs pad l).length = (l.length + 1) / 2 := by
  induction l using pairs.induct with
  | case1 => simp [pairs]
  | case2 a => simp [pairs]
  | case3 a b l ih =>
    rw [pairs, length_cons, length_cons, length_cons]
    omega

@[simp] theorem length_up (l : List D) : (up node pad l).length = (l.length + 1) / 2 := by
  rw [up, length_map, length_pairs]

/-- Enough rounds leave one node. -/
theorem length_climb {n : Nat} {l : List D} (hl : l ≠ []) (hn : l.length ≤ n) : (climb node pad n l).length = 1 := by
  induction n generalizing l with
  | zero => exact absurd (length_eq_zero_iff.mp (Nat.le_zero.mp hn)) hl
  | succ n ih =>
    have hpos : 0 < l.length := length_pos_iff.mpr hl
    rw [climb]
    split_ifs with hlong
    · apply ih
      · rw [← length_pos_iff, length_up]
        omega
      · rw [length_up]
        omega
    · omega

/-- The rounds are a number of times `up`, and they join the pairs of each level on the way. -/
theorem climb_eq_iterate (n : Nat) (l : List D) :
    ∃ k, climb node pad n l = (up node pad)^[k] l ∧ ∀ i < k, pairs pad ((up node pad)^[i] l) ⊆ joined node pad n l := by
  induction n generalizing l with
  | zero => exact ⟨0, rfl, nofun⟩
  | succ n ih =>
    rw [climb, joined]
    split_ifs with hlong
    · obtain ⟨k, hclimb, hjoined⟩ := ih (up node pad l)
      refine ⟨k + 1, hclimb, fun i hi => ?_⟩
      cases i with
      | zero => exact subset_append_left _ _
      | succ i => exact List.Subset.trans (hjoined i (by omega)) (subset_append_right _ _)
    · exact ⟨0, rfl, nofun⟩

theorem climb_subset (n : Nat) (l : List D) : climb node pad n l ⊆ l ++ (joined node pad n l).map node := by
  induction n generalizing l with
  | zero => exact subset_append_left _ _
  | succ n ih =>
    rw [climb, joined]
    split_ifs with hlong
    · intro a ha
      rw [map_append]
      exact mem_append_right _ (ih _ ha)
    · exact subset_append_left _ _

/-- Without the pad in it a level is determined by its pairs. -/
theorem pairs_inj {l l' : List D} (hl : pad ∉ l) (hl' : pad ∉ l') (h : pairs pad l = pairs pad l') : l = l' := by
  induction l using pairs.induct generalizing l' with
  | case1 =>
    match l' with
    | [] => rfl
    | [_] | _ :: _ :: _ => simp [pairs] at h
  | case2 a =>
    match l' with
    | [] => simp [pairs] at h
    | [b] =>
      simp only [pairs, List.cons.injEq, Prod.mk.injEq, and_true] at h
      rw [h]
    | b :: c :: l' =>
      simp only [pairs, List.cons.injEq, Prod.mk.injEq] at h
      simp [h.1.2] at hl'
  | case3 a b l ih =>
    match l' with
    | [] => simp [pairs] at h
    | [c] =>
      simp only [pairs, List.cons.injEq, Prod.mk.injEq] at h
      simp [h.1.2] at hl
    | c :: d :: l' =>
      simp only [pairs, List.cons.injEq, Prod.mk.injEq] at h
      simp only [mem_cons, not_or] at hl hl'
      rw [h.1.1, h.1.2, ih hl.2.2 hl'.2.2 h.2]

theorem map_inj_of_mem {α β : Type*} {f : α → β} {l l' : List α} (hf : ∀ a ∈ l, ∀ b ∈ l', f a = f b → a = b)
    (h : l.map f = l'.map f) : l = l' := by
  induction l generalizing l' with
  | nil => exact (map_eq_nil_iff.mp h.symm).symm
  | cons a l ih =>
    cases l' with
    | nil => cases h
    | cons b l' =>
      simp only [map_cons, List.cons.injEq] at h
      have hhead : a = b := hf a (by simp) b (by simp) h.1
      have htail : l = l' := ih (fun a ha b hb => hf a (by simp [ha]) b (by simp [hb])) h.2
      rw [hhead, htail]

variable {node pad}

/-- The join is injective on these pairs and never gives the pad. -/
structure Separates (node : D × D → D) (pad : D) (P : List (D × D)) : Prop where
  inj : ∀ p ∈ P, ∀ q ∈ P, node p = node q → p = q
  ne_pad : ∀ p ∈ P, node p ≠ pad

variable {P : List (D × D)} {l l' : List D}

theorem Separates.up_inj (h : Separates node pad P) (hl : pad ∉ l) (hl' : pad ∉ l') (hsub : pairs pad l ⊆ P)
    (hsub' : pairs pad l' ⊆ P) (heq : up node pad l = up node pad l') : l = l' := by
  apply pairs_inj pad hl hl'
  exact map_inj_of_mem (fun p hp q hq => h.inj p (hsub hp) q (hsub' hq)) heq

/-- No level above leaves that are not the pad holds the pad. -/
theorem Separates.pad_notMem (h : Separates node pad P) (hl : pad ∉ l) {k : Nat}
    (hsub : ∀ i < k, pairs pad ((up node pad)^[i] l) ⊆ P) : pad ∉ (up node pad)^[k] l := by
  cases k with
  | zero => exact hl
  | succ k =>
    rw [Function.iterate_succ_apply']
    intro hmem
    obtain ⟨p, hp, hpad⟩ := mem_map.mp hmem
    exact h.ne_pad p (hsub k (Nat.lt_succ_self k) hp) hpad

variable (h : Separates node pad P) (hl : pad ∉ l) (hl' : pad ∉ l')
  (hleaf : ∀ a ∈ l, ∀ p ∈ P, node p ≠ a) (hleaf' : ∀ a ∈ l', ∀ p ∈ P, node p ≠ a) (hne : l ≠ [])
  (hne' : l' ≠ [])
include h hl hl' hleaf hleaf' hne hne'

/-- Levels of two trees that are equal have equal leaves under them, at the same depth. -/
theorem Separates.iterate_inj {j k : Nat} (hj : ∀ i < j, pairs pad ((up node pad)^[i] l) ⊆ P)
    (hk : ∀ i < k, pairs pad ((up node pad)^[i] l') ⊆ P)
    (heq : (up node pad)^[j] l = (up node pad)^[k] l') : l = l' := by
  -- the rounds are peeled off together; rounds left over on one side would make a leaf of the other a joined node
  have hpeel : ∀ {l l' : List D} {k : Nat}, (∀ a ∈ l, ∀ p ∈ P, node p ≠ a) → l ≠ [] →
      (∀ i < k + 1, pairs pad ((up node pad)^[i] l') ⊆ P) → l ≠ (up node pad)^[k + 1] l' := by
    intro l l' k hleaf hne hk heq
    obtain ⟨a, ha⟩ := exists_mem_of_ne_nil l hne
    have hmem := ha
    rw [heq, Function.iterate_succ_apply'] at hmem
    obtain ⟨p, hp, hpa⟩ := mem_map.mp hmem
    exact hleaf a ha p (hk k (Nat.lt_succ_self k) hp) hpa
  induction j generalizing k with
  | zero =>
    cases k with
    | zero => exact heq
    | succ k => exact absurd heq (hpeel hleaf hne hk)
  | succ j ih =>
    cases k with
    | zero => exact absurd heq.symm (hpeel hleaf' hne' hj)
    | succ k =>
      have hj' : ∀ i < j, pairs pad ((up node pad)^[i] l) ⊆ P := fun i hi => hj i (by omega)
      have hk' : ∀ i < k, pairs pad ((up node pad)^[i] l') ⊆ P := fun i hi => hk i (by omega)
      rw [Function.iterate_succ_apply', Function.iterate_succ_apply'] at heq
      exact ih hj' hk' (h.up_inj (h.pad_notMem hl hj') (h.pad_notMem hl' hk') (hj j (by omega)) (hk k (by omega)) heq)

theorem Separates.leaves_eq_of_climb_eq {n n' : Nat}
    (hsub : joined node pad n l ⊆ P) (hsub' : joined node pad n' l' ⊆ P)
    (heq : climb node pad n l = climb node pad n' l') : l = l' := by
  obtain ⟨j, hj, hjoined⟩ := climb_eq_iterate node pad n l
  obtain ⟨k, hk, hjoined'⟩ := climb_eq_iterate node pad n' l'
  rw [hj, hk] at heq
  exact h.iterate_inj hl hl' hleaf hleaf' hne hne' (fun i hi => List.Subset.trans (hjoined i hi) hsub)
    (fun i hi => List.Subset.trans (hjoined' i hi) hsub') heq

end HashTree
