import Mathlib

/-! Running totals.

Amounts are added to logs that only grow. A party that knows the start of every log knows the totals of what
it has seen (`Sees`). The greater one of two totals of one log is the total of the longer start, so what two
parties know together is the maximum of what each of them knows (`Sees.sup`). -/
namespace Cumulative

open List Function

variable {κ : Type*} {log : κ → List ℕ} {value value' seen seen' : κ → ℕ}

section
variable (amounts : List ℕ)

/-- The total of the first `n` amounts. -/
def total (n : ℕ) : ℕ := (amounts.take n).sum

theorem total_mono {m n : ℕ} (h : m ≤ n) : total amounts m ≤ total amounts n := by
  have hpart : amounts.take m = (amounts.take n).take m := by rw [take_take, Nat.min_eq_left h]
  rw [total, hpart]
  exact (take_sublist _ _).sum_le_sum fun _ _ => Nat.zero_le _

theorem total_sup (m n : ℕ) : total amounts (m ⊔ n) = total amounts m ⊔ total amounts n := by
  cases le_total m n with
  | inl h => rw [sup_eq_right.mpr h, sup_eq_right.mpr (total_mono amounts h)]
  | inr h => rw [sup_eq_left.mpr h, sup_eq_left.mpr (total_mono amounts h)]

theorem total_append {amounts : List ℕ} (more : List ℕ) {n : ℕ} (h : n ≤ amounts.length) :
    total (amounts ++ more) n = total amounts n := by
  rw [total, take_append_of_le_length h, total]

theorem total_append_singleton (a : ℕ) :
    total (amounts ++ [a]) (amounts.length + 1) = total amounts amounts.length + a := by
  have hall : (amounts ++ [a]).take (amounts.length + 1) = amounts ++ [a] := take_of_length_le (by simp)
  rw [total, hall, total, take_length, sum_append, sum_singleton]

end

/-- The values are the totals of what was seen of the logs. -/
structure Sees (log : κ → List ℕ) (value seen : κ → ℕ) : Prop where
  le : ∀ k, seen k ≤ (log k).length
  eq : ∀ k, value k = total (log k) (seen k)

theorem Sees.zero : Sees log (fun _ => 0) fun _ => 0 := ⟨fun _ => Nat.zero_le _, fun _ => rfl⟩

theorem Sees.sup (h : Sees log value seen) (h' : Sees log value' seen') :
    Sees log (fun k => value k ⊔ value' k) (fun k => seen k ⊔ seen' k) := by
  constructor
  · intro k
    exact sup_le (h.le k) (h'.le k)
  · intro k
    rw [total_sup, h.eq, h'.eq]

/-- Whoever has seen as much has the same values. -/
theorem Sees.value_eq (h : Sees log value seen) (h' : Sees log value' seen) : value = value' := by
  funext k
  rw [h.eq, h'.eq]

variable [DecidableEq κ] {k : κ} {a : ℕ}

/-- The log with one more amount. -/
def grow (log : κ → List ℕ) (k : κ) (a : ℕ) : κ → List ℕ := update log k (log k ++ [a])

variable (h : Sees log value seen)
include h

theorem Sees.grow : Sees (grow log k a) value seen := by
  constructor
  · intro j
    unfold Cumulative.grow update
    split_ifs with hj
    · subst hj
      exact (h.le j).trans (by simp)
    · exact h.le j
  intro j
  unfold Cumulative.grow update
  split_ifs with hj
  · subst hj
    rw [h.eq, total_append _ (h.le j)]
  · exact h.eq j

/-- Whoever adds an amount to a log that is known to its end knows the new total. -/
theorem Sees.add (hall : seen k = (log k).length) :
    Sees (Cumulative.grow log k a) (update value k (value k + a)) (update seen k ((log k).length + 1)) := by
  constructor
  · intro j
    unfold Cumulative.grow update
    split_ifs with hj
    · subst hj
      simp
    · exact h.le j
  intro j
  unfold Cumulative.grow update
  split_ifs with hj
  · subst hj
    rw [total_append_singleton, h.eq, hall]
  · exact h.eq j

/-- A message with one total is as good as knowing that log alone. -/
theorem Sees.single (k : κ) : Sees log (update (fun _ => 0) k (value k)) (update (fun _ => 0) k (seen k)) := by
  constructor
  · intro j
    unfold update
    split_ifs with hj
    · subst hj
      exact h.le j
    · exact Nat.zero_le _
  intro j
  unfold update
  split_ifs with hj
  · subst hj
    exact h.eq j
  · rfl

end Cumulative
