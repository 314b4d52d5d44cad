import Mathlib

/-! Binary search for the first index at which a monotone test succeeds. -/
namespace Search

open List

def searchLoop (f : Nat → Bool) : Nat → Nat → Nat → Nat
  | 0, i, _ => i
  | n + 1, i, j =>
    if i < j then
      let h := (i + j) / 2
      if f h then searchLoop f n i h else searchLoop f n (h + 1) j
    else i

/-- The first index below `n` that passes the test, or `n`. -/
def search (n : Nat) (f : Nat → Bool) : Nat := searchLoop f n 0 n

theorem searchLoop_spec {f : Nat → Bool} (hf : ∀ a b, a ≤ b → f a = true → f b = true) {n i j : Nat}
    (hn : j - i ≤ n) (hij : i ≤ j) : i ≤ searchLoop f n i j ∧ searchLoop f n i j ≤ j ∧
      (∀ k, i ≤ k → k < searchLoop f n i j → f k = false) ∧
      ∀ k, searchLoop f n i j ≤ k → k < j → f k = true := by
  induction n generalizing i j with
  | zero =>
    obtain rfl : i = j := by omega
    rw [searchLoop]
    exact ⟨Nat.le_refl _, Nat.le_refl _, fun k h h' => by omega, fun k h h' => by omega⟩
  | succ n ih =>
    rw [searchLoop]
    by_cases hlt : i < j
    · rw [if_pos hlt]
      by_cases hfh : f ((i + j) / 2) = true
      · simp only [hfh, if_true]
        obtain ⟨h₁, h₂, h₃, h₄⟩ := ih (i := i) (j := (i + j) / 2) (by omega) (by omega)
        refine ⟨h₁, by omega, h₃, fun k hk hkj => ?_⟩
        by_cases hkh : k < (i + j) / 2
        · exact h₄ k hk hkh
        · exact hf _ k (by omega) hfh
      simp only [hfh, Bool.false_eq_true, if_false]
      obtain ⟨h₁, h₂, h₃, h₄⟩ := ih (i := (i + j) / 2 + 1) (j := j) (by omega) (by omega)
      refine ⟨by omega, h₂, fun k hk hkr => ?_, h₄⟩
      by_cases hkh : (i + j) / 2 + 1 ≤ k
      · exact h₃ k hkh hkr
      · by_contra hne
        exact hfh (hf k _ (by omega) (by simpa using hne))
    · rw [if_neg hlt]
      exact ⟨Nat.le_refl _, hij, fun k h h' => by omega, fun k h h' => by omega⟩

theorem search_spec {n : Nat} {f : Nat → Bool} (hf : ∀ a b, a ≤ b → f a = true → f b = true) :
    search n f ≤ n ∧ (∀ k < search n f, f k = false) ∧ ∀ k, search n f ≤ k → k < n → f k = true := by
  obtain ⟨_, h₁, h₂, h₃⟩ := searchLoop_spec hf (n := n) (i := 0) (j := n) (by omega) (by omega)
  exact ⟨h₁, fun k hk => h₂ k (by omega) hk, h₃⟩

/-- A search along a list whose elements pass the test from some place on cuts it there. -/
theorem search_list {α : Type*} {test : α → Bool} {l : List α}
    (hl : l.Pairwise fun a b => test a = true → test b = true) :
    let k := search l.length fun i => l[i]?.all test
    k ≤ l.length ∧ (∀ a ∈ l.take k, test a = false) ∧ ∀ a ∈ l.drop k, test a = true := by
  have hmono : ∀ a b : Nat, a ≤ b → l[a]?.all test = true → l[b]?.all test = true := by
    intro a b hab ha
    rcases eq_or_lt_of_le hab with rfl | hlt
    · exact ha
    by_cases hb : b < l.length
    · rw [getElem?_eq_getElem (by omega)] at ha
      rw [getElem?_eq_getElem hb]
      exact pairwise_iff_getElem.mp hl a b (by omega) hb hlt ha
    · rw [getElem?_eq_none (by omega)]
      rfl
  obtain ⟨h₁, h₂, h₃⟩ := search_spec (n := l.length) hmono
  refine ⟨h₁, fun a ha => ?_, fun a ha => ?_⟩
  · obtain ⟨i, hi, rfl⟩ := getElem_of_mem ha
    simp only [length_take] at hi
    have := h₂ i (by omega)
    rw [getElem?_eq_getElem (by omega)] at this
    simpa using this
  obtain ⟨i, hi, rfl⟩ := getElem_of_mem ha
  simp only [length_drop] at hi
  have := h₃ _ (Nat.le_add_right _ i) (by omega)
  rw [getElem?_eq_getElem (by omega)] at this
  simpa using this

end Search
