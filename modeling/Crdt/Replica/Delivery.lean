import Crdt.Replica.Inbox
import Crdt.Wire.RoundTrip

/-! The inbox delivers each actor's changes once and in order.

All that a call does to a receiver is a sequence of three kinds of `Step`: it lets a change wait, it
hands one to the application in vain, or it installs the next dot of an actor. `Keeps` is what
every step preserves; that a call takes no other steps, and that its loop ends, is `receive_steps`.
Where the application takes every change, a call leaves no next dot waiting (`Settled`), so that the
receiver is known from the set of changes that it was sent: `inbox_delivery`. -/
namespace Crdt.Replica

open Wire MapLoop Relation UInt64 List

/-! ### Frontiers -/

variable {n : UInt64} {m : UInt64}

theorem toNat_succ (hlt : m < n) : (m + 1).toNat = m.toNat + 1 := by
  rw [lt_iff_toNat_lt] at hlt
  have hn := n.toNat_lt
  rw [UInt64.toNat_add, show (1 : UInt64).toNat = 1 from rfl]
  omega

theorem eq_succ (hlt : m < n) (hle : n ≤ m + 1) : n = m + 1 := by
  refine UInt64.toNat_inj.mp ?_
  rw [le_iff_toNat_le, toNat_succ hlt] at hle
  rw [lt_iff_toNat_lt] at hlt
  rw [toNat_succ (UInt64.lt_iff_toNat_lt.mpr hlt)]
  omega

namespace Frontier

variable {f : Frontier}

theorem counter_insert {actor a : List UInt8} :
    counter (f.insert actor n) a = if actor = a then n else f.counter a := by
  unfold counter
  rw [get?_insert]
  split_ifs <;> rfl

theorem advance_next {dot : Dot} (hvalid : dot.valid = true) (hlt : f.counter dot.actor < dot.counter)
    (hnext : dot.counter = f.counter dot.actor + 1) : f.advance dot = .ok (f.insert dot.actor dot.counter) := by
  unfold advance
  rw [hvalid, Bool.not_true, if_neg Bool.false_ne_true, if_neg hlt.not_ge, if_neg (not_not_intro hnext)]

/-- No counter of the frontier is zero. -/
def Positive (f : Frontier) : Prop := ∀ (a : List UInt8) (n : UInt64), f[a]? = some n → n ≠ 0

theorem positive_of_valid (h : f.valid = true) : f.Positive := by
  intro a n hn
  have hall := all_toList.mp h a n hn
  simp only [Bool.and_eq_true, decide_eq_true_eq] at hall
  exact hall.2

theorem Positive.insert {actor : List UInt8} (h : f.Positive) (hn : n ≠ 0) : Positive (f.insert actor n) := by
  intro a k hk
  rw [get?_insert] at hk
  split_ifs at hk
  · cases hk
    exact hn
  · exact h a k hk

theorem Positive.ext {f' : Frontier} (h : f.Positive) (h' : f'.Positive)
    (heq : ∀ a, f.counter a = f'.counter a) : f = f' :=
  ext_getD h h' heq

end Frontier

theorem Dot.counter_ne_zero {dot : Dot} (h : dot.valid = true) : dot.counter ≠ 0 := by
  unfold Dot.valid at h
  simp only [Bool.and_eq_true, decide_eq_true_eq] at h
  exact h.2

/-! ### Steps -/

namespace Receiver

variable {σ : Type}

section
variable (s : Receiver σ)

/-- The calls that installed the changes of an actor. -/
def applied (actor : List UInt8) : List (Dot × List UInt8) :=
  s.log.filter (·.1.actor = actor)

/-- The counters of the calls that installed the changes of an actor. -/
def counters (actor : List UInt8) : List Nat :=
  (s.applied actor).map (·.1.counter.toNat)

/-- The bytes that wait. -/
def waiting : List Nat := s.inbox.pending.entries.map (·.2.2.delta.length)

/-- A receiver that lets a change wait. -/
def hold (dot : Dot) (delta : List UInt8) : Receiver σ :=
  {s with inbox := {s.inbox with
    pending := s.inbox.pending.put dot.actor dot.counter {dot, delta}
    pendingCount := s.inbox.pendingCount + 1
    pendingSize := s.inbox.pendingSize + delta.length}}

/-- A receiver after the call that installed a dot. -/
def install (dot : Dot) (delta : List UInt8) (app : σ) : Receiver σ where
  inbox := {s.inbox.remove dot with frontier := s.inbox.frontier.insert dot.actor dot.counter}
  app := app
  log := s.log ++ [(dot, delta)]

end

/-- What a receiver does with the changes it is sent. -/
inductive Step (sent : Dot → List UInt8 → Prop) : Receiver σ → Receiver σ → Prop
  | hold {s : Receiver σ} {dot : Dot} {delta : List UInt8} (hsent : sent dot delta) (hvalid : dot.valid = true)
      (hahead : s.inbox.frontier.counter dot.actor < dot.counter)
      (hnone : s.inbox.pending.get dot.actor dot.counter = none)
      (hcount : s.inbox.pendingCount < s.inbox.maxPending)
      (hsize : delta.length ≤ s.inbox.maxBytes - s.inbox.pendingSize) : Step sent s (s.hold dot delta)
  | refuse {s : Receiver σ} {app : σ} : Step sent s {s with app}
  | install {s : Receiver σ} {dot : Dot} {delta : List UInt8} {app : σ} (hsent : sent dot delta)
      (hvalid : dot.valid = true) (hahead : s.inbox.frontier.counter dot.actor < dot.counter)
      (hnext : dot.counter = s.inbox.frontier.counter dot.actor + 1) : Step sent s (s.install dot delta app)

variable {sent : Dot → List UInt8 → Prop} {s s' : Receiver σ} {dot : Dot} {delta : List UInt8} {app : σ}

variable {a : List UInt8} {i : Inbox}

theorem get_remove : (i.remove dot).pending.get a n =
    if dot.actor = a ∧ dot.counter = n then none else i.pending.get a n := by
  unfold Inbox.remove
  cases hget : i.pending.get dot.actor dot.counter with
  | some existing => exact TwoLevel.get_drop
  | none =>
    split_ifs with heq
    · rw [← heq.1, ← heq.2]
      exact hget
    · rfl

theorem remove_frontier : (i.remove dot).frontier = i.frontier := by
  unfold Inbox.remove
  split <;> rfl

theorem remove_limits (i : Inbox) (dot : Dot) : (i.remove dot).manifest = i.manifest ∧
    (i.remove dot).maxPending = i.maxPending ∧ (i.remove dot).maxBytes = i.maxBytes := by
  unfold Inbox.remove
  split <;> exact ⟨rfl, rfl, rfl⟩

theorem get_install : (s.install dot delta app).inbox.pending.get a n =
    if dot.actor = a ∧ dot.counter = n then none else s.inbox.pending.get a n :=
  get_remove

theorem counter_install : (s.install dot delta app).inbox.frontier.counter a =
    if dot.actor = a then dot.counter else s.inbox.frontier.counter a :=
  Frontier.counter_insert

theorem get_hold : (s.hold dot delta).inbox.pending.get a n =
    if dot.actor = a ∧ dot.counter = n then some {dot, delta} else s.inbox.pending.get a n :=
  TwoLevel.get_put

/-! ### What every step keeps -/

/-- What a waiting change is like. -/
structure Waits (sent : Dot → List UInt8 → Prop) (f : Frontier) (dot : Dot) (c : Change) : Prop where
  change_eq : c = {dot, delta := c.delta}
  valid : dot.valid = true
  sent : sent dot c.delta
  ahead : f.counter dot.actor < dot.counter

/-- The invariant of a receiver that began with the inbox `i₀` and that was sent some changes. -/
structure Keeps (i₀ : Inbox) (sent : Dot → List UInt8 → Prop) (s : Receiver σ) : Prop where
  manifest_eq : s.inbox.manifest = i₀.manifest
  maxPending_eq : s.inbox.maxPending = i₀.maxPending
  maxBytes_eq : s.inbox.maxBytes = i₀.maxBytes
  positive : s.inbox.frontier.Positive
  grown : ∀ a, i₀.frontier.counter a ≤ s.inbox.frontier.counter a
  counters_eq : ∀ a, s.counters a = List.range' ((i₀.frontier.counter a).toNat + 1)
    ((s.inbox.frontier.counter a).toNat - (i₀.frontier.counter a).toNat)
  log_sent : ∀ p ∈ s.log, sent p.1 p.2
  waits : ∀ {a n c}, s.inbox.pending.get a n = some c → Waits sent s.inbox.frontier ⟨a, n⟩ c
  compact : s.inbox.pending.Compact
  count_eq : s.inbox.pendingCount = s.inbox.pending.entries.length
  size_eq : s.inbox.pendingSize = s.waiting.sum
  count_le : s.inbox.pendingCount ≤ s.inbox.maxPending
  size_le : s.inbox.pendingSize ≤ s.inbox.maxBytes

variable {i₀ : Inbox} {b : List UInt8}

section
variable {manifest : Manifest} {frontier : Frontier} {maxPending maxBytes : Int}
  (h : newInbox manifest frontier maxPending maxBytes = .ok i₀)
include h

theorem newInbox_eq_ok :
    i₀ = {manifest, frontier, maxPending, maxBytes} ∧ frontier.valid = true ∧ 0 < maxPending ∧ 0 < maxBytes := by
  unfold newInbox at h
  split at h
  · cases h
  split_ifs at h with hbad
  simp only [Bool.or_eq_true, Bool.not_eq_true', decide_eq_true_eq, not_or, not_le, Bool.not_eq_false] at hbad
  cases h
  exact ⟨rfl, hbad.1.1, hbad.1.2, hbad.2⟩

theorem keeps_newInbox : Keeps i₀ sent ⟨i₀, app, []⟩ := by
  obtain ⟨rfl, hvalid, hpending, hbytes⟩ := newInbox_eq_ok h
  refine ⟨rfl, rfl, rfl, Frontier.positive_of_valid hvalid, fun _ => le_rfl, fun a => ?_, nofun, fun hc => ?_,
    TwoLevel.Compact.empty, rfl, rfl, hpending.le, hbytes.le⟩
  · simp [counters, applied]
  · rw [TwoLevel.get_empty] at hc
    cases hc

end

theorem Keeps.remove (h : Keeps i₀ sent s) (dot : Dot) : (s.inbox.remove dot).pending.Compact ∧
      (s.inbox.remove dot).pendingCount = (s.inbox.remove dot).pending.entries.length ∧
      (s.inbox.remove dot).pendingSize = ((s.inbox.remove dot).pending.entries.map (·.2.2.delta.length)).sum ∧
      (s.inbox.remove dot).pendingCount ≤ s.inbox.maxPending ∧
      (s.inbox.remove dot).pendingSize ≤ s.inbox.maxBytes ∧
      (s.inbox.remove dot).pending.entries.length ≤ s.inbox.pending.entries.length := by
  have hcount := h.count_eq
  have hsize := h.size_eq
  have hcount_le := h.count_le
  have hsize_le := h.size_le
  unfold waiting at hsize
  unfold Inbox.remove
  cases hget : s.inbox.pending.get dot.actor dot.counter with
  | none => exact ⟨h.compact, hcount, hsize, hcount_le, hsize_le, le_rfl⟩
  | some existing =>
    have hperm := TwoLevel.entries_drop_perm hget
    have hlen := hperm.length_eq
    have hsum := (hperm.map (fun p => p.2.2.delta.length)).sum_nat
    simp only [length_cons, map_cons, sum_cons] at hlen hsum
    exact ⟨h.compact.drop, by dsimp only; omega, by dsimp only; omega, by dsimp only; omega,
      by dsimp only; omega, by dsimp only; omega⟩

theorem counters_install : (s.install dot delta app).counters a =
    s.counters a ++ if dot.actor = a then [dot.counter.toNat] else [] := by
  unfold counters applied install
  rw [filter_append, map_append]
  congr 1
  by_cases ha : dot.actor = a <;> simp [ha]

theorem Keeps.step (h : Keeps i₀ sent s) (hstep : Step sent s s') : Keeps i₀ sent s' := by
  cases hstep with
  | @hold dot delta hsent hvalid hahead hnone hcount hsize =>
    have hperm := TwoLevel.entries_put_perm hnone {dot, delta}
    refine {h with waits := ?_, compact := h.compact.put, count_eq := ?_, size_eq := ?_, count_le := ?_, size_le := ?_}
    · intro a n c hc
      rw [get_hold] at hc
      split_ifs at hc with heq
      · obtain ⟨rfl, rfl⟩ := heq
        cases hc
        exact ⟨rfl, hvalid, hsent, hahead⟩
      · exact h.waits hc
    · have hlen := hperm.length_eq
      have := h.count_eq
      simp only [Receiver.hold, length_cons] at hlen ⊢
      omega
    · have hsum := (hperm.map (fun p => p.2.2.delta.length)).sum_nat
      have := h.size_eq
      simp only [waiting, Receiver.hold, map_cons, sum_cons] at hsum this ⊢
      omega
    · simp only [Receiver.hold]
      omega
    · simp only [Receiver.hold]
      omega
  | refuse => exact {h with}
  | @install dot _ _ hsent hvalid hahead hnext =>
    obtain ⟨hcompact, hcount, hsize, hcount_le, hsize_le, -⟩ := h.remove dot
    obtain ⟨hmanifest, hmaxPending, hmaxBytes⟩ := remove_limits s.inbox dot
    have hnat : dot.counter.toNat = (s.inbox.frontier.counter dot.actor).toNat + 1 := by
      rw [hnext, toNat_succ hahead]
    refine ⟨hmanifest.trans h.manifest_eq, hmaxPending.trans h.maxPending_eq, hmaxBytes.trans h.maxBytes_eq,
      h.positive.insert (Dot.counter_ne_zero hvalid), fun a => ?_, fun a => ?_, fun p hp => ?_, fun hc => ?_,
      hcompact, hcount, hsize, hcount_le.trans_eq hmaxPending.symm, hsize_le.trans_eq hmaxBytes.symm⟩
    · rw [counter_install]
      split_ifs with ha
      · rw [← ha]
        exact (h.grown _).trans hahead.le
      · exact h.grown a
    · rw [counters_install, counter_install, h.counters_eq]
      split_ifs with ha
      · subst ha
        have hgrown := UInt64.le_iff_toNat_le.mp (h.grown dot.actor)
        rw [hnat, show (s.inbox.frontier.counter dot.actor).toNat + 1 - (i₀.frontier.counter dot.actor).toNat =
          (s.inbox.frontier.counter dot.actor).toNat - (i₀.frontier.counter dot.actor).toNat + 1 by omega,
          range'_concat]
        congr 2
        omega
      · exact append_nil _
    · exact forall_mem_append.mpr ⟨h.log_sent, forall_mem_singleton.mpr hsent⟩ p hp
    rw [get_install] at hc
    split_ifs at hc with heq
    have hwaits := h.waits hc
    refine ⟨hwaits.change_eq, hwaits.valid, hwaits.sent, ?_⟩
    rw [counter_install]
    split_ifs with ha
    · have hlt := hwaits.ahead
      have hne := fun hn => heq ⟨ha, hn⟩
      rw [← ha] at hlt
      have hcounter : dot.counter.toNat ≠ _ := fun hn => hne (UInt64.toNat_inj.mp hn)
      rw [lt_iff_toNat_lt] at hlt ⊢
      dsimp only at hlt hcounter ⊢
      omega
    · exact hwaits.ahead

theorem Keeps.steps (h : Keeps i₀ sent s) (hsteps : ReflTransGen (Step sent) s s') : Keeps i₀ sent s' := by
  induction hsteps with
  | refl => exact h
  | tail _ hstep ih => exact ih.step hstep

/-! ### What has arrived stays -/

/-- A change that is installed, or that waits. -/
def Held (s : Receiver σ) (dot : Dot) (delta : List UInt8) : Prop :=
  dot.counter ≤ s.inbox.frontier.counter dot.actor ∨
    ∃ c, s.inbox.pending.get dot.actor dot.counter = some c ∧ c.delta = delta

theorem Held.step {d : Dot} (h : Held s d b) (hstep : Step sent s s') : Held s' d b := by
  cases hstep with
  | refuse => exact h
  | hold _ _ _ hnone _ _ =>
    refine h.imp_right fun ⟨c, hc, hb⟩ => ⟨c, ?_, hb⟩
    rw [get_hold, if_neg]
    · exact hc
    rintro ⟨ha, hn⟩
    rw [ha, hn, hc] at hnone
    cases hnone
  | @install dot _ _ _ _ hahead _ =>
    by_cases hat : dot.actor = d.actor ∧ dot.counter = d.counter
    · refine .inl ?_
      rw [counter_install, if_pos hat.1, hat.2]
    refine h.imp (fun hle => ?_) fun ⟨c, hc, hb⟩ => ⟨c, ?_, hb⟩
    · rw [counter_install]
      split_ifs with ha
      · rw [← ha] at hle
        exact hle.trans hahead.le
      · exact hle
    · rw [get_install, if_neg hat]
      exact hc

theorem Held.steps {d : Dot} (h : Held s d b) (hsteps : ReflTransGen (Step sent) s s') : Held s' d b := by
  induction hsteps with
  | refl => exact h
  | tail _ hstep ih => exact ih.step hstep

/-! ### The calls -/

/-- The next dot of an actor does not wait. -/
def SettledAt (s : Receiver σ) (actor : List UInt8) : Prop :=
  s.inbox.pending.get actor (s.inbox.frontier.counter actor + 1) = none

/-- No next dot waits. -/
def Settled (s : Receiver σ) : Prop := ∀ a, s.SettledAt a

theorem SettledAt.install (h : s.SettledAt a) (hne : dot.actor ≠ a) :
    (s.install dot delta app).SettledAt a := by
  unfold SettledAt
  rw [counter_install, if_neg hne, get_install, if_neg fun heq => hne heq.1]
  exact h

variable {c : Change}

theorem entries_install_lt (h : s.inbox.pending.get dot.actor dot.counter = some c) :
    (s.install dot delta app).inbox.pending.entries.length < s.inbox.pending.entries.length := by
  have hlen := (TwoLevel.entries_drop_perm h).length_eq
  unfold install Inbox.remove
  rw [h]
  simp only [length_cons] at hlen ⊢
  omega

theorem advance_remove (hvalid : dot.valid = true) (hahead : s.inbox.frontier.counter dot.actor < dot.counter)
    (hnext : dot.counter = s.inbox.frontier.counter dot.actor + 1) :
    (s.inbox.remove dot).frontier.advance dot = .ok (s.inbox.frontier.insert dot.actor dot.counter) := by
  rw [remove_frontier]
  exact Frontier.advance_next hvalid hahead hnext

variable (apply : Apply σ)

theorem drain_steps (actor : List UInt8) (n : Nat) (hs : Keeps i₀ sent s)
    (hn : s.inbox.pending.entries.length < n) (delivery : Delivery) :
    ∃ s' delivery' err, drain apply actor n s delivery = some (s', delivery', err) ∧
      ReflTransGen (Step sent) s s' ∧ err ≠ some .pendingLimit ∧ (∀ a, a ≠ actor → s.SettledAt a → s'.SettledAt a) ∧
      ((∀ app delta, (apply app delta).1 = true) → err = none ∧ s'.SettledAt actor) := by
  induction n generalizing s delivery with
  | zero => omega
  | succ n ih =>
    unfold drain
    dsimp only
    cases hget : s.inbox.pending.get actor (s.inbox.frontier.counter actor + 1) with
    | none => exact ⟨s, delivery, none, rfl, .refl, nofun, fun _ _ h => h, fun _ => ⟨rfl, hget⟩⟩
    | some next =>
      have hwaits := hs.waits hget
      have hdot : next.dot = ⟨actor, s.inbox.frontier.counter actor + 1⟩ := by rw [hwaits.change_eq]
      dsimp only [call]
      cases happly : (apply s.app next.delta).1 with
      | false =>
        refine ⟨_, delivery, some .apply, rfl, .single .refuse, nofun, fun _ _ h => h, fun htotal => ?_⟩
        rw [htotal] at happly
        cases happly
      | true =>
        have hadvance := advance_remove hwaits.valid hwaits.ahead rfl
        simp only [hdot, hadvance]
        have hstep : Step sent s (s.install ⟨actor, s.inbox.frontier.counter actor + 1⟩ next.delta
            (apply s.app next.delta).2) := .install hwaits.sent hwaits.valid hwaits.ahead rfl
        have hlt : (s.install ⟨actor, s.inbox.frontier.counter actor + 1⟩ next.delta
            (apply s.app next.delta).2).inbox.pending.entries.length < _ := entries_install_lt hget
        obtain ⟨s', delivery', err, hrun, hsteps, hlimit, hother, htotal⟩ := ih (hs.step hstep) (by omega) _
        refine ⟨s', delivery', err, hrun, hsteps.head hstep, hlimit,
          fun a ha h => hother a ha (h.install (Ne.symm ha)), htotal⟩

/-- A change that the inbox accepts. -/
def Accepts (e : Env) (i₀ : Inbox) (c : Change) : Prop := c.validate e i₀.manifest = .ok ()

variable {e : Env} {change : Change} {m : Manifest}

theorem Accepts.valid (h : Accepts e i₀ c) : c.dot.valid = true := by
  unfold Accepts Change.validate at h
  by_cases hbad : (!c.dot.valid || decide (c.delta.length = 0)) = true
  · rw [if_pos hbad] at h
    cases h
  · simp only [Bool.or_eq_true, Bool.not_eq_true', not_or, Bool.not_eq_false] at hbad
    exact hbad.1

theorem bind_ne_error {α β : Type} {x : Except Err α} {f : α → Except Err β} {err : Err} (hx : x ≠ .error err)
    (hf : ∀ a, f a ≠ .error err) : (x >>= f) ≠ .error err := by
  cases x with
  | error err' =>
    intro h
    cases h
    exact hx rfl
  | ok a => exact hf a

theorem validate_error_ne : m.validate ≠ .error .pendingLimit := by
  unfold Manifest.validate
  dsimp only
  split_ifs
  · exact nofun
  split
  · exact nofun
  · split_ifs <;> exact nofun

theorem compatible_error_ne {m m' : Manifest} : m.compatible m' ≠ .error .pendingLimit := by
  refine bind_ne_error validate_error_ne fun _ => bind_ne_error validate_error_ne fun _ => ?_
  split_ifs <;> exact nofun

/-- A change that is refused is not refused for the limits. -/
theorem validate_ne_pendingLimit : c.validate e m ≠ .error .pendingLimit := by
  unfold Change.validate
  split
  · exact nofun
  · refine bind_ne_error compatible_error_ne fun _ => ?_
    split_ifs <;> exact nofun

/-- The limits that a change has met. -/
structure Overflows (s : Receiver σ) (c : Change) : Prop where
  fresh : s.inbox.pending.get c.dot.actor c.dot.counter = none
  full : s.inbox.maxPending ≤ s.inbox.pendingCount ∨ s.inbox.maxBytes - s.inbox.pendingSize < c.delta.length

theorem buffer_steps (hs : Keeps i₀ sent s) (hsent : sent change.dot change.delta)
    (hvalid : change.dot.valid = true) (hahead : s.inbox.frontier.counter change.dot.actor < change.dot.counter)
    (hgap : change.dot.counter ≠ s.inbox.frontier.counter change.dot.actor + 1) :
    ∃ inbox delivery err, s.inbox.buffer change = (inbox, delivery, err) ∧
      ReflTransGen (Step sent) s {s with inbox} ∧ (err = some .pendingLimit → s.Overflows change) ∧
      ((∀ d b b', sent d b → sent d b' → b = b') → s.Settled → err ≠ some .pendingLimit →
        Settled {s with inbox} ∧ Held {s with inbox} change.dot change.delta) := by
  unfold Inbox.buffer
  cases hget : s.inbox.pending.get change.dot.actor change.dot.counter with
  | some existing =>
    dsimp only
    split_ifs with hconflict
    · refine ⟨_, _, _, rfl, .refl, nofun, fun hfree _ _ => ?_⟩
      exact absurd (hfree _ _ _ (hs.waits hget).sent hsent) hconflict
    · exact ⟨_, _, _, rfl, .refl, nofun, fun _ hsettled _ =>
        ⟨hsettled, .inr ⟨existing, hget, not_not.mp hconflict⟩⟩⟩
  | none =>
    split_ifs with hfull
    · simp only [ge_iff_le, gt_iff_lt, Bool.or_eq_true, decide_eq_true_eq] at hfull
      exact ⟨_, _, _, rfl, .refl, fun _ => ⟨hget, hfull⟩, fun _ _ hne => absurd rfl hne⟩
    simp only [ge_iff_le, gt_iff_lt, Bool.or_eq_true, decide_eq_true_eq, not_or, not_le, not_lt] at hfull
    refine ⟨_, _, _, rfl, .single (.hold hsent hvalid hahead hget hfull.1 hfull.2), nofun, fun _ hsettled _ =>
      ⟨fun a => ?_, .inr ⟨_, get_hold.trans (if_pos ⟨rfl, rfl⟩), rfl⟩⟩⟩
    refine get_hold.trans ((if_neg ?_).trans (hsettled a))
    rintro ⟨rfl, heq⟩
    exact hgap heq

theorem receive_steps (hs : Keeps i₀ sent s) (hsent : Accepts e i₀ change → sent change.dot change.delta) :
    ∃ s' delivery err, receive apply e s change = some (s', delivery, err) ∧ ReflTransGen (Step sent) s s' ∧
      (err = some .pendingLimit → Accepts e i₀ change ∧ s.Overflows change) ∧
      ((∀ app delta, (apply app delta).1 = true) → (∀ d b b', sent d b → sent d b' → b = b') → s.Settled →
        err ≠ some .pendingLimit → s'.Settled ∧ (Accepts e i₀ change → s'.Held change.dot change.delta)) := by
  unfold receive
  rw [hs.manifest_eq]
  cases hvalidate : change.validate e i₀.manifest with
  | error err =>
    refine ⟨s, _, _, rfl, .refl, fun hlimit => ?_, fun _ _ hsettled _ => ⟨hsettled, fun haccepts => ?_⟩⟩
    · cases hlimit
      exact absurd hvalidate validate_ne_pendingLimit
    · rw [Accepts, hvalidate] at haccepts
      cases haccepts
  | ok _ =>
    have haccepts : Accepts e i₀ change := hvalidate
    have hvalid := haccepts.valid
    replace hsent := hsent haccepts
    dsimp only
    split_ifs with hle hgap hconflict
    · exact ⟨_, _, _, rfl, .refl, (fun h => by cases h), fun _ _ hsettled _ => ⟨hsettled, fun _ => .inl hle⟩⟩
    · obtain ⟨inbox, delivery, err, hbuffer, hsteps, hlimit, hsettled⟩ :=
        buffer_steps hs hsent hvalid (not_le.mp hle) hgap.ne'
      rw [hbuffer]
      exact ⟨_, _, _, rfl, hsteps, fun h => ⟨haccepts, hlimit h⟩, fun _ hfree hsettle hne =>
        ⟨(hsettled hfree hsettle hne).1, fun _ => (hsettled hfree hsettle hne).2⟩⟩
    · obtain ⟨existing, hget, hne⟩ := Option.any_eq_true _ _ |>.mp hconflict
      refine ⟨s, _, _, rfl, .refl, (fun h => by cases h), fun _ hfree _ _ => ?_⟩
      exact absurd (hfree _ _ _ (hs.waits hget).sent hsent) (of_decide_eq_true hne)
    have hahead := not_le.mp hle
    have hnext := eq_succ hahead (not_lt.mp hgap)
    dsimp only [call]
    cases happly : (apply s.app change.delta).1 with
    | false =>
      refine ⟨_, _, _, rfl, .single .refuse, (fun h => by cases h), fun htotal => ?_⟩
      rw [htotal] at happly
      cases happly
    | true =>
      simp only [advance_remove hvalid hahead hnext]
      have hstep : Step sent s (s.install change.dot change.delta (apply s.app change.delta).2) :=
        .install hsent hvalid hahead hnext
      have hle := (hs.remove change.dot).2.2.2.2.2
      obtain ⟨s', delivery, err, hrun, hsteps, hlimit, hother, htotal⟩ :=
        drain_steps apply change.dot.actor _ (hs.step hstep) (Nat.lt_succ_of_le hle) {applied := [change.dot]}
      refine ⟨s', delivery, err, hrun, hsteps.head hstep, fun h => absurd h hlimit, fun happlies _ hsettled _ =>
        ⟨fun a => ?_, fun _ => Held.steps (.inl ?_) hsteps⟩⟩
      · by_cases ha : change.dot.actor = a
        · rw [← ha]
          exact (htotal happlies).2
        · exact hother a (Ne.symm ha) ((hsettled a).install ha)
      · rw [counter_install, if_pos rfl]

variable {changes : List Change}

theorem receiveAll_steps (hs : Keeps i₀ sent s)
    (hsent : ∀ c ∈ changes, Accepts e i₀ c → sent c.dot c.delta) :
    ∃ s' results, receiveAll apply e s changes = some (s', results) ∧ ReflTransGen (Step sent) s s' ∧
      ((∀ (s : Receiver σ) (c : Change), Keeps i₀ sent s → c ∈ changes → Accepts e i₀ c → ¬s.Overflows c) →
        ∀ r ∈ results, r.2 ≠ some .pendingLimit) ∧
      ((∀ app delta, (apply app delta).1 = true) → (∀ d b b', sent d b → sent d b' → b = b') → s.Settled →
        (∀ r ∈ results, r.2 ≠ some .pendingLimit) →
          s'.Settled ∧ ∀ c ∈ changes, Accepts e i₀ c → s'.Held c.dot c.delta) := by
  induction changes generalizing s with
  | nil => exact ⟨s, [], rfl, .refl, fun _ => nofun, fun _ _ hsettled _ => ⟨hsettled, nofun⟩⟩
  | cons change rest ih =>
    obtain ⟨s₁, delivery, err, hrun, hsteps, hlimit, hsettled⟩ :=
      receive_steps apply hs (hsent change mem_cons_self)
    obtain ⟨s', results, hrest, hsteps', hlimits, hsettled'⟩ :=
      ih (hs.steps hsteps) fun c hc => hsent c (mem_cons_of_mem _ hc)
    refine ⟨s', (delivery, err) :: results, by rw [receiveAll, hrun]; simp [hrest], hsteps.trans hsteps',
      fun hfits => ?_, fun happlies hfree hsettle hresults => ?_⟩
    · refine forall_mem_cons.mpr ⟨fun h => ?_, hlimits fun s c hs hc => hfits s c hs (mem_cons_of_mem _ hc)⟩
      exact hfits s change hs mem_cons_self (hlimit h).1 (hlimit h).2
    obtain ⟨hfirst, hresults⟩ := forall_mem_cons.mp hresults
    obtain ⟨hsettle₁, hheld⟩ := hsettled happlies hfree hsettle hfirst
    obtain ⟨hsettle', hheld'⟩ := hsettled' happlies hfree hsettle₁ hresults
    exact ⟨hsettle', forall_mem_cons.mpr ⟨fun h => (hheld h).steps hsteps', hheld'⟩⟩

/-! ### Two orders of the same changes -/

variable {s₁ s₂ : Receiver σ}

/-- The frontier of a receiver is not behind that of another that was sent the same changes. -/
theorem Keeps.frontier_le (h₂ : Keeps i₀ sent s₂)
    (h₁ : Keeps i₀ sent s₁) (hsettled : s₁.Settled) (hheld : ∀ {d b}, sent d b → s₁.Held d b) (a : List UInt8) :
    s₂.inbox.frontier.counter a ≤ s₁.inbox.frontier.counter a := by
  by_contra hlt
  rw [not_le] at hlt
  have hsucc := toNat_succ hlt
  -- The first dot that only the other has installed was sent, and waits here.
  have hmem : (s₁.inbox.frontier.counter a + 1).toNat ∈ s₂.counters a := by
    have hgrown := UInt64.le_iff_toNat_le.mp (h₁.grown a)
    rw [lt_iff_toNat_lt] at hlt
    rw [h₂.counters_eq, mem_range'_1]
    omega
  obtain ⟨p, hp, hcounter⟩ := mem_map.mp hmem
  obtain ⟨hp, hactor⟩ := List.mem_filter.mp hp
  rw [decide_eq_true_eq] at hactor
  have heq := UInt64.toNat_inj.mp hcounter
  rcases hheld (h₂.log_sent p hp) with hle | ⟨c, hc, -⟩
  · rw [hactor, le_iff_toNat_le, hcounter, hsucc] at hle
    omega
  · rw [hactor, heq] at hc
    exact absurd hc (by rw [hsettled a]; exact nofun)

/-- A change that waits at one receiver waits at another. -/
theorem Keeps.waits_of_held (h₁ : Keeps i₀ sent s₁) (h₂ : Keeps i₀ sent s₂)
    (hfrontier : s₁.inbox.frontier = s₂.inbox.frontier) (hheld : ∀ {d b}, sent d b → s₂.Held d b)
    (hc : s₁.inbox.pending.get a n = some c) : s₂.inbox.pending.get a n = some c := by
  have hwaits := h₁.waits hc
  rcases hheld hwaits.sent with hle | ⟨c', hc', hdelta⟩
  · rw [← hfrontier] at hle
    exact absurd hle hwaits.ahead.not_ge
  · rw [hc', (h₂.waits hc').change_eq, hdelta, ← hwaits.change_eq]

theorem eq_of_held (h₁ : Keeps i₀ sent s₁) (h₂ : Keeps i₀ sent s₂)
    (hsettled₁ : s₁.Settled) (hsettled₂ : s₂.Settled) (hheld₁ : ∀ {d b}, sent d b → s₁.Held d b)
    (hheld₂ : ∀ {d b}, sent d b → s₂.Held d b) (hfree : ∀ d b b', sent d b → sent d b' → b = b') :
    s₁.inbox.frontier = s₂.inbox.frontier ∧ s₁.inbox.pending = s₂.inbox.pending ∧
      ∀ a, s₁.applied a = s₂.applied a := by
  have hcounter : ∀ a, s₁.inbox.frontier.counter a = s₂.inbox.frontier.counter a := fun a =>
    le_antisymm (h₁.frontier_le h₂ hsettled₂ hheld₂ a) (h₂.frontier_le h₁ hsettled₁ hheld₁ a)
  have hfrontier := h₁.positive.ext h₂.positive hcounter
  refine ⟨hfrontier, TwoLevel.ext h₁.compact h₂.compact fun a n => Option.ext fun c => ?_, fun a => ?_⟩
  · exact ⟨h₁.waits_of_held h₂ hfrontier hheld₂, h₂.waits_of_held h₁ hfrontier.symm hheld₁⟩
  have hcounters : s₁.counters a = s₂.counters a := by rw [h₁.counters_eq, h₂.counters_eq, hcounter]
  refine ext_getElem ?_ fun i hi₁ hi₂ => ?_
  · simpa [counters] using congrArg List.length hcounters
  obtain ⟨hmem₁, hactor₁⟩ := List.mem_filter.mp (getElem_mem hi₁)
  obtain ⟨hmem₂, hactor₂⟩ := List.mem_filter.mp (getElem_mem hi₂)
  have hi : (s₁.applied a)[i].1.counter.toNat = (s₂.applied a)[i].1.counter.toNat := by
    simpa [counters, hi₁, hi₂] using congrArg (·[i]?) hcounters
  have hdot : (s₁.applied a)[i].1 = (s₂.applied a)[i].1 := by
    rw [Dot.mk.injEq]
    exact ⟨(of_decide_eq_true hactor₁).trans (of_decide_eq_true hactor₂).symm, UInt64.toNat_inj.mp hi⟩
  exact Prod.ext hdot (hfree _ _ _ (hdot ▸ h₁.log_sent _ hmem₁) (h₂.log_sent _ hmem₂))

/-! ### Runs -/

/-- The distinct changes of a list, with their bytes. -/
def distinct (changes : List Change) : List (Dot × List UInt8) :=
  (changes.map fun c => (c.dot, c.delta)).dedup

/-- Changes that can all wait at once. -/
structure FitLimits (changes : List Change) (maxPending maxBytes : Int) : Prop where
  count : (distinct changes).length ≤ maxPending
  size : ((distinct changes).map (·.2.length)).sum ≤ maxBytes

/-- No dot of the changes that are accepted has two contents. -/
def ConflictFree (e : Env) (manifest : Manifest) (changes : List Change) : Prop :=
  ∀ c ∈ changes, ∀ c' ∈ changes, c.validate e manifest = .ok () → c'.validate e manifest = .ok () →
    c.dot = c'.dot → c.delta = c'.delta

/-- The changes of a list that an inbox accepts. -/
def SentIn (e : Env) (i₀ : Inbox) (changes : List Change) (dot : Dot) (delta : List UInt8) : Prop :=
  ∃ c ∈ changes, Accepts e i₀ c ∧ c.dot = dot ∧ c.delta = delta

theorem SentIn.mem_distinct (h : SentIn e i₀ changes dot delta) : (dot, delta) ∈ distinct changes := by
  obtain ⟨c, hc, -, rfl, rfl⟩ := h
  exact mem_dedup.mpr (mem_map_of_mem hc)

theorem ConflictFree.sentIn (h : ConflictFree e i₀.manifest changes)
    (d : Dot) (b b' : List UInt8) : SentIn e i₀ changes d b → SentIn e i₀ changes d b' → b = b' := by
  rintro ⟨c, hc, haccepts, rfl, rfl⟩ ⟨c', hc', haccepts', hdot, rfl⟩
  exact h c hc c' hc' haccepts haccepts' hdot.symm

section
variable (hs : Keeps i₀ (SentIn e i₀ changes) s) (hc : SentIn e i₀ changes c.dot c.delta)
include hs hc

/-- The changes that wait, with one more, are among the distinct changes. -/
theorem Keeps.subperm_distinct (hfresh : s.inbox.pending.get c.dot.actor c.dot.counter = none) :
    List.Subperm ((c.dot, c.delta) :: s.inbox.pending.entries.map fun p => (⟨p.1, p.2.1⟩, p.2.2.delta))
      (distinct changes) := by
  refine subperm_of_subset (nodup_cons.mpr ⟨fun hmem => ?_, ?_⟩) fun x hx => ?_
  · obtain ⟨⟨a, n, v⟩, hv, heq⟩ := mem_map.mp hmem
    rw [← (Prod.mk.inj heq).1, TwoLevel.mem_entries.mp hv] at hfresh
    cases hfresh
  · refine List.Nodup.map_on ?_ (TwoLevel.nodup_entries _)
    rintro ⟨a, n, v⟩ hv ⟨a', n', v'⟩ hv' heq
    cases (Prod.mk.inj heq).1
    have hget := TwoLevel.mem_entries.mp hv
    rw [TwoLevel.mem_entries.mp hv'] at hget
    cases hget
    rfl
  rcases mem_cons.mp hx with rfl | hx
  · exact hc.mem_distinct
  · obtain ⟨⟨a, n, v⟩, hv, rfl⟩ := mem_map.mp hx
    exact (hs.waits (TwoLevel.mem_entries.mp hv)).sent.mem_distinct

/-- Changes that can all wait at once never meet the limits. -/
theorem Keeps.not_overflows (hfit : FitLimits changes i₀.maxPending i₀.maxBytes) : ¬s.Overflows c := by
  rintro ⟨hfresh, hfull⟩
  obtain ⟨l, hperm, hsub⟩ := hs.subperm_distinct hc hfresh
  have hlen := hperm.length_eq.symm.trans_le hsub.length_le
  have hsum := (hperm.map (fun p => p.2.length)).sum_nat.symm.trans_le
    ((hsub.map fun p => p.2.length).sum_le_sum fun _ _ => Nat.zero_le _)
  have hcount := hfit.count
  have hsize := hfit.size
  have hcount_eq := hs.count_eq
  have hsize_eq := hs.size_eq
  simp only [waiting, length_cons, length_map, map_cons, sum_cons, List.map_map,
    Function.comp_def] at hlen hsum hsize_eq
  rw [hs.maxPending_eq, hs.maxBytes_eq] at hfull
  omega

end

/-- Every run of calls delivers the changes of each actor once and in order. Where the application
takes every change, each has been delivered or waits, the next dot of an actor does not wait, and the
order of the calls makes no difference. -/
theorem inbox_delivery (apply : Apply σ) (e : Env) (app : σ) {manifest : Manifest} {f₀ : Frontier}
    {maxPending maxBytes : Int} {i₀ : Inbox} (hnew : newInbox manifest f₀ maxPending maxBytes = .ok i₀) :
    (∀ changes, ∃ s results, receiveAll apply e ⟨i₀, app, []⟩ changes = some (s, results) ∧
      (∀ a, f₀.counter a ≤ s.inbox.frontier.counter a ∧
        s.counters a = List.range' ((f₀.counter a).toNat + 1)
          ((s.inbox.frontier.counter a).toNat - (f₀.counter a).toNat)) ∧
      (∀ p ∈ s.log, ∃ c ∈ changes, c.dot = p.1 ∧ c.delta = p.2) ∧
      (∀ a n c, s.inbox.pending.get a n = some c → s.inbox.frontier.counter a < n) ∧
      s.inbox.pendingCount = s.inbox.pending.entries.length ∧ s.inbox.pendingSize = s.waiting.sum ∧
      s.inbox.pendingCount ≤ maxPending ∧ s.inbox.pendingSize ≤ maxBytes ∧
      (FitLimits changes maxPending maxBytes → ∀ r ∈ results, r.2 ≠ some .pendingLimit)) ∧
    ((∀ app delta, (apply app delta).1 = true) → ∀ changes, ConflictFree e manifest changes → ∀ s results,
      receiveAll apply e ⟨i₀, app, []⟩ changes = some (s, results) → (∀ r ∈ results, r.2 ≠ some .pendingLimit) →
      s.Settled ∧ ∀ c ∈ changes, Accepts e i₀ c → s.Held c.dot c.delta) ∧
    ((∀ app delta, (apply app delta).1 = true) → ∀ l₁ l₂ : List Change, (∀ c, c ∈ l₁ ↔ c ∈ l₂) →
      ConflictFree e manifest l₁ → ∀ s₁ r₁ s₂ r₂, receiveAll apply e ⟨i₀, app, []⟩ l₁ = some (s₁, r₁) →
      receiveAll apply e ⟨i₀, app, []⟩ l₂ = some (s₂, r₂) → (∀ r ∈ r₁, r.2 ≠ some .pendingLimit) →
      (∀ r ∈ r₂, r.2 ≠ some .pendingLimit) →
      s₁.inbox.frontier = s₂.inbox.frontier ∧ s₁.inbox.pending = s₂.inbox.pending ∧
        ∀ a, s₁.applied a = s₂.applied a) := by
  have hstart : ∀ changes, Keeps i₀ (SentIn e i₀ changes) ⟨i₀, app, []⟩ := fun _ => keeps_newInbox hnew
  obtain ⟨rfl, rfl, rfl, rfl, hempty⟩ : manifest = i₀.manifest ∧ f₀ = i₀.frontier ∧
      maxPending = i₀.maxPending ∧ maxBytes = i₀.maxBytes ∧ i₀.pending = ∅ := by
    rw [(newInbox_eq_ok hnew).1]
    exact ⟨rfl, rfl, rfl, rfl, rfl⟩
  have hsettled : Settled ⟨i₀, app, []⟩ := fun a => by
    rw [SettledAt, hempty, TwoLevel.get_empty]
  refine ⟨fun changes => ?_, fun happlies changes hfree s results hrun hlimit => ?_,
    fun happlies l₁ l₂ hmem hfree s₁ r₁ s₂ r₂ hrun₁ hrun₂ hlimit₁ hlimit₂ => ?_⟩
  · obtain ⟨s, results, hrun, hsteps, hlimits, -⟩ :=
      receiveAll_steps apply (hstart changes) fun c hc h => ⟨c, hc, h, rfl, rfl⟩
    have hs := (hstart changes).steps hsteps
    refine ⟨s, results, hrun, fun a => ⟨hs.grown a, hs.counters_eq a⟩, fun p hp => ?_,
      fun a n c hc => (hs.waits hc).ahead, hs.count_eq, hs.size_eq,
      hs.count_le.trans_eq hs.maxPending_eq, hs.size_le.trans_eq hs.maxBytes_eq, fun hfit => hlimits fun s c hs hc h => ?_⟩
    · obtain ⟨c, hc, -, hdot, hdelta⟩ := hs.log_sent p hp
      exact ⟨c, hc, hdot, hdelta⟩
    · exact hs.not_overflows ⟨c, hc, h, rfl, rfl⟩ hfit
  · obtain ⟨_, _, hrun', -, -, hend⟩ :=
      receiveAll_steps apply (hstart changes) fun c hc h => ⟨c, hc, h, rfl, rfl⟩
    cases hrun.symm.trans hrun'
    exact hend happlies hfree.sentIn hsettled hlimit
  obtain ⟨_, _, hrun, hsteps₁, -, hend₁⟩ :=
    receiveAll_steps apply (hstart l₁) fun c hc h => ⟨c, hc, h, rfl, rfl⟩
  cases hrun₁.symm.trans hrun
  obtain ⟨_, _, hrun, hsteps₂, -, hend₂⟩ :=
    receiveAll_steps apply (hstart l₁) fun c hc h => ⟨c, (hmem c).mpr hc, h, rfl, rfl⟩
  cases hrun₂.symm.trans hrun
  obtain ⟨hsettled₁, hheld₁⟩ := hend₁ happlies hfree.sentIn hsettled hlimit₁
  obtain ⟨hsettled₂, hheld₂⟩ := hend₂ happlies hfree.sentIn hsettled hlimit₂
  refine eq_of_held ((hstart l₁).steps hsteps₁) ((hstart l₁).steps hsteps₂) hsettled₁ hsettled₂ ?_ ?_
    hfree.sentIn
  · rintro d b ⟨c, hc, haccepts, rfl, rfl⟩
    exact hheld₁ c hc haccepts
  · rintro d b ⟨c, hc, haccepts, rfl, rfl⟩
    exact hheld₂ c ((hmem c).mp hc) haccepts

/-- Two changes of one actor that arrive the wrong way round, and the right way round with the
first one twice. -/
theorem inbox_delivery_swapped :
    let manifest : Manifest := {groupID := [103], schemaID := [115], epoch := 1, protocol := ⟨1, 3, [], 1, 0⟩}
    let first : Change := ⟨⟨[97], 1⟩, manifest, [7], true⟩
    let second : Change := ⟨⟨[97], 2⟩, manifest, [8, 9], true⟩
    let start : Receiver Unit := ⟨{manifest, frontier := ∅, maxPending := 2, maxBytes := 3}, (), []⟩
    ∃ s₁ r₁ s₂ r₂, receiveAll (fun _ _ => (true, ())) (plainEnv .bits64) start [second, first] = some (s₁, r₁) ∧
      receiveAll (fun _ _ => (true, ())) (plainEnv .bits64) start [first, second, first] = some (s₂, r₂) ∧
      s₁.inbox.frontier = s₂.inbox.frontier ∧ s₁.inbox.pending = s₂.inbox.pending ∧ s₁.Settled ∧
      s₁.applied [97] = [(first.dot, [7]), (second.dot, [8, 9])] ∧ s₁.applied [97] = s₂.applied [97] := by
  intro manifest first second start
  have hnew : newInbox manifest ∅ 2 3 = .ok {manifest, frontier := ∅, maxPending := 2, maxBytes := 3} := rfl
  obtain ⟨hruns, hprogress, hsame⟩ := inbox_delivery (fun _ _ => (true, ())) (plainEnv .bits64) () hnew
  obtain ⟨s₁, r₁, hrun₁, -, -, -, -, -, -, -, hlimit₁⟩ := hruns [second, first]
  obtain ⟨s₂, r₂, hrun₂, -, -, -, -, -, -, -, hlimit₂⟩ := hruns [first, second, first]
  have hfree : ConflictFree (plainEnv .bits64) manifest [second, first] := by
    intro c hc c' hc' _ _ hdot
    simp only [mem_cons, not_mem_nil, or_false] at hc hc'
    rcases hc with rfl | rfl <;> rcases hc' with rfl | rfl <;> first | rfl | cases hdot
  have hok := hlimit₁ ⟨by decide, by decide⟩
  have happlied : (receiveAll (fun _ _ => (true, ())) (plainEnv .bits64) start [second, first]).map
      (·.1.applied [97]) = some [(first.dot, [7]), (second.dot, [8, 9])] := by decide +kernel
  rw [hrun₁] at happlied
  have heq := hsame (fun _ _ => rfl) _ _ (by simp [or_comm]) hfree s₁ r₁ s₂ r₂ hrun₁ hrun₂ hok
    (hlimit₂ ⟨by decide, by decide⟩)
  exact ⟨s₁, r₁, s₂, r₂, hrun₁, hrun₂, heq.1, heq.2.1, (hprogress (fun _ _ => rfl) _ hfree s₁ r₁ hrun₁ hok).1,
    Option.some.inj happlied, heq.2.2 _⟩

end Receiver

end Crdt.Replica
