import Crdt.Lib.Checked

/-! Readers.

A reader takes items from the front of a list, may fail, and goes on with what is left. `Reads` says
what a reader takes and returns, whatever follows: its rules put the encoding of a value together as
the reader is put together, a loop being the concatenation of what its rounds take (`Reads.times`).
`Yields` says what every result is like, with an invariant for loops (`Yields.times`), and `Unbroken`
that a reader breaks on no input at all. A reader `Inverts` a writer if it accepts what is written and
nothing else. -/

abbrev Reader (τ ε α : Type) := StateT (List τ) (Checked ε) α

namespace Reader

open List

variable {τ ε α β σ ι : Type} {data rest : List τ}

/-- Go on if the condition holds. -/
def check (c : Bool) (err : ε) : Reader τ ε Unit := fun rest => Checked.check c err >>= fun u => .ok (u, rest)

/-- A step that takes nothing. -/
def step (x : Checked ε α) : Reader τ ε α := fun rest => x >>= fun a => .ok (a, rest)

/-- What is left. -/
def remaining : Reader τ ε (List τ) := fun rest => .ok (rest, rest)

/-- The first `n` items, if there are as many. -/
def take (n : Nat) (err : ε) : Reader τ ε (List τ) := fun rest =>
  if n ≤ rest.length then .ok (rest.take n, rest.drop n) else .error err

/-- A loop of `n` rounds. -/
def times (round : σ → Reader τ ε σ) : Nat → σ → Reader τ ε σ
  | 0, s => pure s
  | n + 1, s => do
    let s ← round s
    times round n s

/-- `n` values, one after the other. -/
def many (r : Reader τ ε α) : Nat → Reader τ ε (List α)
  | 0 => pure []
  | n + 1 => do
    let a ← r
    let l ← many r n
    return a :: l

variable (r : Reader τ ε α)

theorem bind_apply (f : α → Reader τ ε β) (rest : List τ) :
    (r >>= f) rest = r rest >>= fun p => f p.1 p.2 := rfl

theorem pure_apply (a : α) (rest : List τ) : (pure a : Reader τ ε α) rest = .ok (a, rest) := rfl

theorem remaining_bind_apply (f : List τ → Reader τ ε β) (rest : List τ) : (remaining >>= f) rest = f rest rest := rfl

/-! ### What a reader takes -/

/-- The reader takes exactly `taken` and returns `a`. -/
def Reads (taken : List τ) (a : α) : Prop :=
  ∀ rest, r (taken ++ rest) = .ok (a, rest)

namespace Reads

variable {r : Reader τ ε α} {f : α → Reader τ ε β} {taken taken' : List τ} {a : α} {b : β} {err : ε}

theorem pure : Reads (Pure.pure a : Reader τ ε α) [] a := fun _ => rfl

theorem bind (h : Reads r taken a) (hf : Reads (f a) taken' b) : Reads (r >>= f) (taken ++ taken') b := by
  intro rest
  rw [bind_apply, append_assoc, h, Checked.ok_bind]
  exact hf rest

theorem map (h : Reads r taken a) {g : α → β} : Reads (r >>= fun a => Pure.pure (g a)) taken (g a) := by
  simpa using h.bind (f := fun a => Pure.pure (g a)) pure

theorem check_bind {c : Bool} {f : Unit → Reader τ ε β} (hc : c = true) (hf : Reads (f ()) taken b) :
    Reads (check c err >>= f) taken b := by
  subst hc
  exact hf

theorem step_bind {x : Checked ε α} (hx : x = .ok a) (hf : Reads (f a) taken b) :
    Reads (step x >>= f) taken b := by
  subst hx
  exact hf

theorem take {n : Nat} (hn : taken.length = n) : Reads (Reader.take n err) taken taken := by
  subst hn
  intro rest
  rw [Reader.take, if_pos (by simp), take_left, drop_left]

/-- What is left begins with what will be taken. -/
theorem remaining_bind {f : List τ → Reader τ ε β} (hf : ∀ rest, Reads (f (taken ++ rest)) taken b) :
    Reads (remaining >>= f) taken b := fun rest => hf rest rest

theorem times {round : σ → Reader τ ε σ} (next : σ → ι → σ) (encode : ι → List τ) (items : List ι) {s : σ}
    (h : ∀ done item later, items = done ++ item :: later →
      Reads (round (done.foldl next s)) (encode item) (next (done.foldl next s) item)) :
    Reads (Reader.times round items.length s) (items.flatMap encode) (items.foldl next s) := by
  induction items generalizing s with
  | nil => exact pure
  | cons item items ih =>
    have hrest := ih fun done item' later he => h (item :: done) item' later (by rw [he]; rfl)
    exact (h [] item items rfl).bind hrest

end Reads

/-! ### What a reader returns -/

/-- Every result of the reader has the property. -/
def Yields (P : α → Prop) : Prop := ∀ rest a rest', r rest = .ok (a, rest') → P a

namespace Yields

variable {r : Reader τ ε α} {f : α → Reader τ ε β} {P : α → Prop} {Q : β → Prop} {a : α} {err : ε}

theorem any : Yields r fun _ => True := fun _ _ _ _ => trivial

theorem pure (h : P a) : Yields (Pure.pure a : Reader τ ε α) P := by
  intro rest a' rest' heq
  rw [pure_apply] at heq
  cases heq
  exact h

theorem bind (h : Yields r P) (hf : ∀ a, P a → Yields (f a) Q) : Yields (r >>= f) Q := by
  intro rest b rest' heq
  rw [bind_apply] at heq
  obtain ⟨⟨a, rest₁⟩, hr, hb⟩ := Checked.bind_eq_ok_iff.mp heq
  exact hf a (h _ _ _ hr) _ _ _ hb

theorem check_bind {c : Bool} {f : Unit → Reader τ ε β} (hf : c = true → Yields (f ()) Q) :
    Yields (Reader.check c err >>= f) Q := by
  intro rest b rest' heq
  cases c with
  | false => cases heq
  | true => exact hf rfl _ _ _ heq

theorem step_bind {x : Checked ε α} (hf : ∀ a, x = .ok a → Yields (f a) Q) : Yields (step x >>= f) Q := by
  intro rest b rest' heq
  cases hx : x with
  | ok a => exact hf a hx _ _ _ (hx ▸ heq)
  | error err => rw [hx] at heq; cases heq
  | broken => rw [hx] at heq; cases heq

theorem times {round : σ → Reader τ ε σ} {I : Nat → σ → Prop}
    (h : ∀ n s, I (n + 1) s → Yields (round s) (I n)) (n : Nat) {s : σ} (hs : I n s) :
    Yields (Reader.times round n s) (I 0) := by
  induction n generalizing s with
  | zero => exact pure hs
  | succ n ih => exact (h n s hs).bind fun s hs => ih hs

end Yields

/-! ### Nothing breaks -/

def Unbroken : Prop := ∀ rest, r rest ≠ .broken

namespace Unbroken

variable {r : Reader τ ε α} {f : α → Reader τ ε β} {a : α} {err : ε}

theorem pure : Unbroken (Pure.pure a : Reader τ ε α) := fun _ => nofun

theorem bind (h : Unbroken r) (hf : ∀ a, Unbroken (f a)) : Unbroken (r >>= f) := by
  intro rest
  rw [bind_apply]
  exact Checked.bind_ne_broken (h rest) fun p _ => hf p.1 p.2

/-- The rest may rest on what every result is like. -/
theorem bind_of {P : α → Prop} (h : Unbroken r) (hr : Yields r P) (hf : ∀ a, P a → Unbroken (f a)) :
    Unbroken (r >>= f) := by
  intro rest
  exact Checked.bind_ne_broken (h rest) fun p hp => hf p.1 (hr _ _ _ hp) p.2

theorem check {c : Bool} : Unbroken (Reader.check c err : Reader τ ε Unit) := by
  intro rest
  unfold Reader.check
  cases c <;> simp

theorem check_bind {c : Bool} {f : Unit → Reader τ ε β} (hf : c = true → Unbroken (f ())) :
    Unbroken (Reader.check c err >>= f) := by
  intro rest
  cases c with
  | false => exact nofun
  | true => exact hf rfl rest

theorem remaining_bind {f : List τ → Reader τ ε β} (hf : ∀ rest, Unbroken (f rest)) :
    Unbroken (remaining >>= f) := fun rest => hf rest rest

theorem step_bind {x : Checked ε α} (hx : x ≠ .broken) (hf : ∀ a, x = .ok a → Unbroken (f a)) :
    Unbroken (step x >>= f) := by
  intro rest
  cases hx' : x with
  | ok a => exact hf a hx' rest
  | error err => exact nofun
  | broken => exact absurd hx' hx

theorem take {n : Nat} : Unbroken (Reader.take n err : Reader τ ε (List τ)) := by
  intro rest
  unfold Reader.take
  split_ifs <;> simp

/-- A loop with an invariant that counts the rounds left. -/
theorem times {round : σ → Reader τ ε σ} {I : Nat → σ → Prop}
    (h : ∀ n s, I (n + 1) s → Unbroken (round s) ∧ Yields (round s) (I n)) (n : Nat) {s : σ} (hs : I n s) :
    Unbroken (Reader.times round n s) := by
  induction n generalizing s with
  | zero => exact pure
  | succ n ih => exact (h n s hs).1.bind_of (h n s hs).2 fun s hs => ih hs

end Unbroken

/-! ### Readers that undo a writer -/

/-- The reader accepts exactly what is written for a value with the property. -/
def Inverts (write : α → List τ) (P : α → Prop) : Prop :=
  ∀ data a rest, r data = .ok (a, rest) ↔ P a ∧ data = write a ++ rest

theorem pure_eq_ok_iff {a b : α} : (pure a : Reader τ ε α) data = .ok (b, rest) ↔ a = b ∧ data = rest := by
  rw [pure_apply, Checked.ok.injEq, Prod.mk.injEq]

theorem check_bind_eq_ok_iff {c : Bool} {err : ε} {f : Unit → Reader τ ε β} {b : β} :
    (check c err >>= f) data = .ok (b, rest) ↔ c = true ∧ f () data = .ok (b, rest) := by
  cases c with
  | true => exact (and_iff_right rfl).symm
  | false => exact iff_of_false nofun nofun

namespace Inverts

variable {r : Reader τ ε α} {f : α → Reader τ ε β} {write : α → List τ} {P : α → Prop} {b : β} {err : ε}
  {data rest : List τ}

theorem bind_eq_ok_iff (h : Inverts r write P) :
    (r >>= f) data = .ok (b, rest) ↔ ∃ a left, P a ∧ data = write a ++ left ∧ f a left = .ok (b, rest) := by
  rw [bind_apply, Checked.bind_eq_ok_iff]
  constructor
  · intro ⟨p, hp, hf⟩
    obtain ⟨hP, hdata⟩ := (h data p.1 p.2).mp hp
    exact ⟨p.1, p.2, hP, hdata, hf⟩
  · intro ⟨a, left, hP, hdata, hf⟩
    exact ⟨(a, left), (h data a left).mpr ⟨hP, hdata⟩, hf⟩

/-- What is written for two values is different. -/
theorem eq_of_write_eq (h : Inverts r write P) {a a' : α} (ha : P a) (ha' : P a') (heq : write a = write a') : a = a' := by
  have hread := (h (write a) a []).mpr ⟨ha, (append_nil _).symm⟩
  have hread' := (h (write a) a' []).mpr ⟨ha', by rw [append_nil, heq]⟩
  rw [hread] at hread'
  cases hread'
  rfl

theorem take (n : Nat) (err : ε) : Inverts (Reader.take n err : Reader τ ε (List τ)) id fun l => l.length = n := by
  intro data l rest
  unfold Reader.take
  split_ifs with hn
  · rw [Checked.ok.injEq, Prod.mk.injEq]
    constructor
    · intro ⟨hl, hrest⟩
      rw [← hl, ← hrest]
      exact ⟨length_take_of_le hn, (take_append_drop n data).symm⟩
    intro ⟨hl, hdata⟩
    rw [hdata, ← show l.length = n from hl]
    exact ⟨take_left, drop_left⟩
  refine iff_of_false nofun fun ⟨hl, hdata⟩ => hn ?_
  rw [hdata, length_append, ← show l.length = n from hl]
  exact Nat.le_add_right _ _

theorem many (h : Inverts r write P) (n : Nat) :
    Inverts (Reader.many r n) (List.flatMap write) fun l => l.length = n ∧ ∀ a ∈ l, P a := by
  induction n with
  | zero =>
    intro data l rest
    rw [Reader.many, pure_eq_ok_iff]
    constructor
    · intro ⟨hl, hdata⟩
      rw [← hl]
      exact ⟨⟨rfl, nofun⟩, hdata⟩
    intro ⟨⟨hl, _⟩, hdata⟩
    rw [length_eq_zero_iff.mp hl] at hdata ⊢
    exact ⟨rfl, hdata⟩
  | succ n ih =>
    intro data l rest
    rw [Reader.many, h.bind_eq_ok_iff]
    simp only [ih.bind_eq_ok_iff, pure_eq_ok_iff]
    constructor
    · intro ⟨a, left, hP, hdata, l', left', ⟨hlen, hPs⟩, hleft, hl, hrest⟩
      rw [← hl, hdata, hleft, hrest, flatMap_cons, append_assoc]
      exact ⟨⟨congrArg (· + 1) hlen, forall_mem_cons.mpr ⟨hP, hPs⟩⟩, rfl⟩
    intro ⟨⟨hlen, hPs⟩, hdata⟩
    cases l with
    | nil => cases hlen
    | cons a l =>
      obtain ⟨hP, hPs⟩ := forall_mem_cons.mp hPs
      rw [flatMap_cons, append_assoc] at hdata
      exact ⟨a, _, hP, hdata, l, rest, ⟨Nat.succ.inj hlen, hPs⟩, rfl, rfl, rfl⟩

end Inverts

end Reader
