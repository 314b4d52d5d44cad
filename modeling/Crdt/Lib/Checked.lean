import Mathlib

/-! Computations that are checked as they run.

A step returns, fails with an error, or breaks: an operation was used outside of its domain. Errors
are results of a program, breaking is not. `bind_eq_ok_iff` takes a computation that has returned
apart, and `bind_ne_broken` proves step by step that none breaks. -/

inductive Checked (ε α : Type)
  | ok (a : α)
  | error (err : ε)
  | broken
deriving DecidableEq, Repr

namespace Checked

open List

variable {ε ε' α β : Type}

def bind : Checked ε α → (α → Checked ε β) → Checked ε β
  | .ok a, f => f a
  | .error err, _ => .error err
  | .broken, _ => .broken

instance : Monad (Checked ε) where
  pure := .ok
  bind := bind

/-- Go on if the condition holds. -/
def check (c : Bool) (err : ε) : Checked ε Unit := if c then .ok () else .error err

/-- A value that may be missing. -/
def ofOption (o : Option α) (err : ε) : Checked ε α := o.elim (.error err) .ok

/-- A value that may not exist. -/
def unbroken (o : Option α) : Checked ε α := o.elim .broken .ok

def ofExcept : Except ε α → Checked ε α
  | .ok a => .ok a
  | .error err => .error err

/-- The outcome of a computation that did not break. -/
def attempt : Checked ε α → Checked ε' (Except ε α)
  | .ok a => .ok (.ok a)
  | .error err => .ok (.error err)
  | .broken => .broken

/-- The same computation with other errors. -/
def mapError (f : ε → ε') : Checked ε α → Checked ε' α
  | .ok a => .ok a
  | .error err => .error (f err)
  | .broken => .broken

@[simp] theorem ok_bind (a : α) (f : α → Checked ε β) : (Checked.ok a >>= f) = f a := rfl

@[simp] theorem error_bind (err : ε) (f : α → Checked ε β) : (Checked.error err >>= f) = .error err := rfl

@[simp] theorem broken_bind (f : α → Checked ε β) : (Checked.broken >>= f) = .broken := rfl

@[simp] theorem pure_eq (a : α) : (pure a : Checked ε α) = .ok a := rfl

instance : LawfulMonad (Checked ε) :=
  .mk' _ (fun x => by cases x <;> rfl) (fun _ _ => rfl) (fun x _ _ => by cases x <;> rfl)

variable {x : Checked ε α} {f : α → Checked ε β} {b : β}

theorem bind_eq_ok_iff : (x >>= f) = .ok b ↔ ∃ a, x = .ok a ∧ f a = .ok b := by
  cases x <;> simp

variable {a : α}

@[simp] theorem mapError_eq_ok_iff {f : ε → ε'} : x.mapError f = .ok a ↔ x = .ok a := by
  cases x <;> simp [mapError]

@[simp] theorem mapError_eq_broken_iff {f : ε → ε'} : x.mapError f = .broken ↔ x = .broken := by
  cases x <;> simp [mapError]

theorem bind_ne_broken (hx : x ≠ .broken) (hf : ∀ a, x = .ok a → f a ≠ .broken) : (x >>= f) ≠ .broken := by
  cases x with
  | ok a => exact hf a rfl
  | error err => simp
  | broken => exact absurd rfl hx

variable {err : ε} {c : Bool}

@[simp] theorem check_eq_ok_iff {u : Unit} : check c err = .ok u ↔ c = true := by
  cases c <;> simp [check]

theorem check_bind_eq_ok_iff {f : Unit → Checked ε β} :
    (check c err >>= f) = .ok b ↔ c = true ∧ f () = .ok b := by
  cases c <;> simp [check]

theorem check_bind_ne_broken {f : Unit → Checked ε β} (hf : c = true → f () ≠ .broken) :
    (check c err >>= f) ≠ .broken := by
  cases c with
  | true => exact hf rfl
  | false => exact nofun

@[simp] theorem check_true (err : ε) : check true err = .ok () := rfl

@[simp] theorem check_false (err : ε) : check false err = .error err := rfl

@[simp] theorem check_ne_broken (c : Bool) (err : ε) : check c err ≠ .broken := by
  cases c <;> simp

variable {o : Option α}

@[simp] theorem ofOption_eq_ok_iff : ofOption o err = .ok a ↔ o = some a := by
  cases o <;> simp [ofOption]

theorem ofOption_bind_eq_ok_iff : (ofOption o err >>= f) = .ok b ↔ ∃ a, o = some a ∧ f a = .ok b := by
  cases o <;> simp [ofOption]

theorem ofOption_bind_ne_broken (hf : ∀ a, o = some a → f a ≠ .broken) : (ofOption o err >>= f) ≠ .broken := by
  cases o with
  | some a => exact hf a rfl
  | none => exact nofun

@[simp] theorem ofOption_some (a : α) (err : ε) : ofOption (some a) err = .ok a := rfl

@[simp] theorem ofOption_none (err : ε) : (ofOption none err : Checked ε α) = .error err := rfl

@[simp] theorem ofOption_ne_broken (o : Option α) (err : ε) : ofOption o err ≠ .broken := by
  cases o <;> simp

@[simp] theorem unbroken_eq_ok_iff : (unbroken o : Checked ε α) = .ok a ↔ o = some a := by
  cases o <;> simp [unbroken]

@[simp] theorem unbroken_some (a : α) : (unbroken (some a) : Checked ε α) = .ok a := rfl

@[simp] theorem unbroken_none : (unbroken none : Checked ε α) = .broken := rfl

@[simp] theorem ofExcept_eq_ok_iff {x : Except ε α} : ofExcept x = .ok a ↔ x = .ok a := by
  cases x <;> simp [ofExcept]

variable {l : List α} {σ : Type}

theorem of_foldlM_eq_ok {f : σ → α → Checked ε σ} {s s' : σ}
    (h : l.foldlM f s = .ok s') : ∀ a ∈ l, ∃ t t', f t a = .ok t' := by
  induction l generalizing s with
  | nil => simp
  | cons a l ih =>
    obtain ⟨t, ht, h⟩ := bind_eq_ok_iff.mp h
    exact forall_mem_cons.mpr ⟨⟨s, t, ht⟩, ih h⟩

/-- A loop with an invariant that counts the rounds left breaks in none of them. -/
theorem foldlM_ne_broken {f : σ → α → Checked ε σ} {I : Nat → σ → Prop} {s : σ} (hs : I l.length s)
    (h : ∀ a ∈ l, ∀ n s, I (n + 1) s → f s a ≠ .broken ∧ ∀ s', f s a = .ok s' → I n s') :
    l.foldlM f s ≠ .broken := by
  induction l generalizing s with
  | nil => exact nofun
  | cons a l ih =>
    obtain ⟨ha, h⟩ := forall_mem_cons.mp h
    obtain ⟨hround, hnext⟩ := ha _ _ hs
    exact bind_ne_broken hround fun t ht => ih (hnext t ht) h

theorem forall₂_of_mapM {l' : List β} (h : l.mapM f = .ok l') : List.Forall₂ (fun a b => f a = .ok b) l l' := by
  induction l generalizing l' with
  | nil =>
    rw [mapM_nil] at h
    cases h
    exact .nil
  | cons a l ih =>
    rw [mapM_cons] at h
    obtain ⟨b, hb, h⟩ := bind_eq_ok_iff.mp h
    obtain ⟨rest, hrest, h⟩ := bind_eq_ok_iff.mp h
    cases h
    exact .cons hb (ih hrest)

theorem mapM_ne_broken (h : ∀ a ∈ l, f a ≠ .broken) : l.mapM f ≠ .broken := by
  induction l with
  | nil => exact nofun
  | cons a l ih =>
    obtain ⟨ha, h⟩ := forall_mem_cons.mp h
    rw [mapM_cons]
    exact bind_ne_broken ha fun b _ => bind_ne_broken (ih h) fun rest _ => nofun

theorem attempt_eq_ok (h : x ≠ .broken) : ∃ o, (attempt x : Checked ε' _) = .ok o := by
  cases x with
  | ok a => exact ⟨.ok a, rfl⟩
  | error err => exact ⟨.error err, rfl⟩
  | broken => exact absurd rfl h

end Checked

namespace Except

variable {ε α β : Type} {f : α → Except ε β}

theorem bind_eq_ok_iff {x : Except ε α} {b : β} : (x >>= f) = .ok b ↔ ∃ a, x = .ok a ∧ f a = .ok b := by
  cases x with
  | error err => exact ⟨nofun, nofun⟩
  | ok a => exact ⟨fun h => ⟨a, rfl, h⟩, fun ⟨_, ha, h⟩ => Except.ok.inj ha ▸ h⟩

theorem forall₂_of_mapM {l : List α} {l' : List β} (h : l.mapM f = .ok l') :
    List.Forall₂ (fun a b => f a = .ok b) l l' := by
  induction l generalizing l' with
  | nil =>
    rw [List.mapM_nil] at h
    cases h
    exact .nil
  | cons a l ih =>
    rw [List.mapM_cons] at h
    obtain ⟨b, hb, h⟩ := bind_eq_ok_iff.mp h
    obtain ⟨rest, hrest, h⟩ := bind_eq_ok_iff.mp h
    cases h
    exact .cons hb (ih hrest)

end Except
