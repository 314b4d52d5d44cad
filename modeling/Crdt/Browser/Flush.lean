import Mathlib

/-! The outbox of a browser document.

A local update is appended to the store and then waits in the outbox until it was sent and acknowledged. The steps of
the store are queued, and one drain at a time sends what was in the outbox when it began. `flush` waits for the steps
that are queued and then for a drain. Both documents of the browser client work like this, and `close` calls `flush`.

If a drain is in progress, `flush` waits for that one. An update that was appended after the drain had begun is still
in the outbox when `flush` resolves, and was never sent (`flush_delivers`, `update_left_behind`). -/
namespace Crdt.Browser

open List Relation

/-- A step of the store. Updates have the numbers that the store gives them, in the order of the appends. -/
inductive Op
  | append (update : Nat)
  | acknowledge (update : Nat)
  | other

/-- A drain sends an update or waits for its acknowledgement; the others come after it. -/
inductive Drain
  | sending (rest : List Nat)
  | acknowledging (update : Nat) (rest : List Nat)

def Drain.pending : Drain → List Nat
  | .sending rest => rest
  | .acknowledging update rest => update :: rest

/-- How far a call of `flush` is. -/
inductive Flush
  | idle
  | waiting
  | draining
  | resolved

/-- A call of `flush` waits for as many steps of the queue as `waiting` says. The last three fields are not in the
source: the local updates, and what has become of them. -/
structure State where
  connected : Bool := false
  queue : List Op := []
  outbox : List Nat
  drain : Option Drain := none
  sequence : Nat
  flush : Flush := .idle
  waiting : Nat := 0
  recorded : List Nat := outbox
  sent : List Nat := []
  acknowledged : List Nat := []

/-- A step of the queue has ended. -/
def State.next (s : State) (queue : List Op) : State := {s with queue, waiting := s.waiting - 1}

def State.callFlush (s : State) : State := {s with flush := .waiting, waiting := s.queue.length}

/-- What `flush` comes to when the queued steps have ended. -/
def State.drainsNow (s : State) : Prop := s.flush = .waiting ∧ s.waiting = 0

/-- What `drainOutbox` has to do. -/
def State.drains (s : State) : Bool := s.connected && !s.outbox.isEmpty

def State.runDrain (s : State) : Drain := .sending (s.outbox.insertionSort (· ≤ ·))

/-- What happens next; only while the document is edited are there new updates and failures. Other steps of the store
are queued at any time, and `drainOutbox` is called after an append and by other calls of `flush`. -/
inductive Step (s : State) : (edited : Bool) → State → Prop
  | connect {edited} (connected : Bool) : Step s edited {s with connected}
  | recordUpdate : Step s true {s with
      sequence := s.sequence + 1
      queue := s.queue ++ [.append (s.sequence + 1)]
      recorded := (s.sequence + 1) :: s.recorded}
  | enqueue {edited} : Step s edited {s with queue := s.queue ++ [.other]}
  | append {edited queue} (update : Nat) (h : s.queue = .append update :: queue) :
    Step s edited {s.next queue with outbox := s.outbox ++ [update]}
  | acknowledge {edited queue rest} (update : Nat) (h : s.queue = .acknowledge update :: queue)
    (hdrain : s.drain = some (.acknowledging update rest)) :
    Step s edited {s.next queue with
      outbox := s.outbox.filter (· ≠ update)
      acknowledged := update :: s.acknowledged
      drain := some (.sending rest)}
  | other {edited queue} (h : s.queue = .other :: queue) : Step s edited (s.next queue)
  | drainOutbox {edited} (h : s.drains) (hdrain : s.drain = none) : Step s edited {s with drain := some s.runDrain}
  | sent {edited update rest} (hdrain : s.drain = some (.sending (update :: rest))) :
    Step s edited {s with
      drain := some (.acknowledging update rest)
      queue := s.queue ++ [.acknowledge update]
      sent := update :: s.sent}
  | sendFailed {update rest} (hdrain : s.drain = some (.sending (update :: rest))) : Step s true {s with drain := none}
  | drained {edited} (hdrain : s.drain = some (.sending [])) (h : s.flush ≠ .draining) :
    Step s edited {s with drain := none}
  | flushed {edited} (hdrain : s.drain = some (.sending [])) (h : s.flush = .draining) :
    Step s edited {s with drain := none, flush := .resolved}
  | flushNothing {edited} (h : s.drainsNow) (hdrains : s.drains = false) :
    Step s edited {s with flush := .resolved}
  | flushJoins {edited drain} (h : s.drainsNow) (hdrains : s.drains) (hdrain : s.drain = some drain) :
    Step s edited {s with flush := .draining}
  | flushDrains {edited} (h : s.drainsNow) (hdrains : s.drains) (hdrain : s.drain = none) :
    Step s edited {s with drain := some s.runDrain, flush := .draining}

/-! ### What becomes of an update -/

structure Inv (s : State) : Prop where
  tracked : ∀ u ∈ s.recorded, .append u ∈ s.queue ∨ u ∈ s.outbox ∨ (u ∈ s.sent ∧ u ∈ s.acknowledged)
  sent : ∀ {u rest}, s.drain = some (.acknowledging u rest) → u ∈ s.sent

variable {s s' : State} {edited : Bool}

theorem Inv.step (h : Inv s) (hstep : Step s edited s') : Inv s' := by
  obtain ⟨htracked, hsent⟩ := h
  cases hstep with
  | recordUpdate =>
    refine ⟨fun u hu => ?_, hsent⟩
    simp only [mem_cons, mem_append, Op.append.injEq] at hu ⊢
    have := htracked u
    tauto
  | enqueue => exact ⟨fun u hu => (htracked u hu).imp_left (mem_append_left _), hsent⟩
  | append update hqueue =>
    refine ⟨fun u hu => ?_, hsent⟩
    have := htracked u hu
    simp only [hqueue, mem_cons, Op.append.injEq] at this
    simp only [State.next, mem_append, mem_singleton]
    tauto
  | acknowledge update hqueue hdrain =>
    refine ⟨fun u hu => ?_, nofun⟩
    have := htracked u hu
    simp only [hqueue, mem_cons, reduceCtorEq, false_or] at this
    simp only [State.next, mem_filter, mem_cons, decide_eq_true_eq]
    by_cases he : u = update
    · exact .inr (.inr ⟨he ▸ hsent hdrain, .inl he⟩)
    · tauto
  | other hqueue =>
    refine ⟨fun u hu => ?_, hsent⟩
    have := htracked u hu
    simp only [hqueue, mem_cons, reduceCtorEq, false_or] at this
    exact this
  | sent hdrain =>
    refine ⟨fun u hu => ?_, ?_⟩
    · exact (htracked u hu).imp (mem_append_left _) (.imp_right (.imp_left (mem_cons_of_mem _)))
    · rintro u rest ⟨⟩
      exact mem_cons_self
  | _ => exact ⟨htracked, by first | exact hsent | exact nofun⟩

theorem Inv.run (h : Inv s) (hrun : ReflTransGen (Step · edited) s s') : Inv s' := by
  induction hrun with
  | refl => exact h
  | tail _ hstep ih => exact ih.step hstep

/-! ### What a flush waits for -/

/-- No update is recorded any more, so `flush` waits for every append. -/
def Flushing (s : State) : Prop := ∀ u, .append u ∉ s.queue.drop s.waiting

theorem Flushing.enqueue (h : Flushing s) {op : Op} (hop : ∀ u, .append u ≠ op) (u : Nat) :
    .append u ∉ (s.queue ++ [op]).drop s.waiting := by
  rw [drop_append, mem_append, not_or]
  exact ⟨h u, fun hu => hop u (mem_singleton.mp (mem_of_mem_drop hu))⟩

theorem Flushing.next (h : Flushing s) {op : Op} {queue : List Op} (hqueue : s.queue = op :: queue) (u : Nat) :
    .append u ∉ (s.next queue).queue.drop (s.next queue).waiting := by
  have hu := h u
  rw [hqueue] at hu
  unfold State.next
  cases hwaiting : s.waiting with
  | zero =>
    rw [hwaiting] at hu
    exact fun hmem => hu (mem_cons_of_mem _ hmem)
  | succ n =>
    rw [hwaiting] at hu
    exact hu

theorem Flushing.step (h : Flushing s) (hstep : Step s false s') : Flushing s' := by
  cases hstep with
  | enqueue => exact h.enqueue nofun
  | append _ hqueue => exact h.next hqueue
  | acknowledge _ hqueue => exact h.next hqueue
  | other hqueue => exact h.next hqueue
  | sent => exact h.enqueue nofun
  | _ => exact h

theorem Flushing.run (h : Flushing s) (hrun : ReflTransGen (Step · false) s s') : Flushing s' := by
  induction hrun with
  | refl => exact h
  | tail _ hstep ih => exact ih.step hstep

/-- `flush` waits for a drain, which will have sent the whole outbox if and only if `covered`. -/
structure Draining (covered : Prop) (s : State) : Prop where
  flush : s.flush = .draining
  waiting : s.waiting = 0
  drain : ∃ drain, s.drain = some drain ∧ (covered ↔ ∀ u ∈ s.outbox, u ∈ drain.pending)

theorem Draining.step {covered : Prop} (hflushing : Flushing s) (h : Draining covered s) (hstep : Step s false s') :
    Draining covered s' ∨ s'.flush = .resolved ∧ s'.waiting = 0 ∧ (s'.outbox = [] ↔ covered) := by
  obtain ⟨hflush, hwaiting, drain, hdrain, hiff⟩ := h
  cases hstep with
  | connect => exact .inl ⟨hflush, hwaiting, drain, hdrain, hiff⟩
  | enqueue => exact .inl ⟨hflush, hwaiting, drain, hdrain, hiff⟩
  | append update hqueue =>
    refine absurd ?_ (hflushing update)
    rw [hqueue, hwaiting]
    exact mem_cons_self
  | acknowledge update hqueue hdrain' =>
    cases hdrain'.symm.trans hdrain
    refine .inl ⟨hflush, by rw [State.next, hwaiting], _, rfl, hiff.trans (forall_congr' fun u => ?_)⟩
    simp only [Drain.pending, mem_filter, mem_cons, decide_eq_true_eq]
    tauto
  | other => exact .inl ⟨hflush, by rw [State.next, hwaiting], drain, hdrain, hiff⟩
  | drainOutbox _ hdrain' => cases hdrain'.symm.trans hdrain
  | sent hdrain' =>
    cases hdrain'.symm.trans hdrain
    exact .inl ⟨hflush, hwaiting, _, rfl, hiff⟩
  | drained _ hne => exact absurd hflush hne
  | flushed hdrain' =>
    cases hdrain'.symm.trans hdrain
    exact .inr ⟨rfl, hwaiting, by simp [hiff, Drain.pending, eq_nil_iff_forall_not_mem]⟩
  | flushNothing hnow => cases hflush.symm.trans hnow.1
  | flushJoins hnow => cases hflush.symm.trans hnow.1
  | flushDrains hnow => cases hflush.symm.trans hnow.1

/-- A run without edits and failures, until `flush` resolves. -/
inductive Resolves : State → State → Prop
  | now {s : State} (h : s.flush = .resolved) : Resolves s s
  | step {s s' s'' : State} (h : s.flush ≠ .resolved) (hstep : Step s false s') (hrest : Resolves s' s'') :
    Resolves s s''

theorem Resolves.run (h : Resolves s s') : ReflTransGen (Step · false) s s' := by
  induction h with
  | now => exact .refl
  | step _ hstep _ ih => exact .head hstep ih

theorem Resolves.of_resolved (h : Resolves s s') (hs : s.flush = .resolved) : s = s' := by
  cases h with
  | now => rfl
  | step hne => exact absurd hs hne

theorem Draining.resolves {covered : Prop} (hflushing : Flushing s) (h : Draining covered s) (hrun : Resolves s s') :
    s'.waiting = 0 ∧ (s'.outbox = [] ↔ covered) := by
  induction hrun with
  | now hresolved => cases h.flush.symm.trans hresolved
  | step _ hstep hrest ih =>
    rcases h.step hflushing hstep with hdraining | ⟨hresolved, hdone⟩
    · exact ih (hflushing.step hstep) hdraining
    · exact hrest.of_resolved hresolved ▸ hdone

/-- The outbox is empty, and every local update was sent and acknowledged. -/
def Delivered (s : State) : Prop := s.outbox = [] ∧ ∀ u ∈ s.recorded, u ∈ s.sent ∧ u ∈ s.acknowledged

theorem Inv.delivered_iff (h : Inv s) (hqueue : ∀ u, .append u ∉ s.queue) : Delivered s ↔ s.outbox = [] := by
  refine and_iff_left_of_imp fun hempty u hu => ?_
  rcases h.tracked u hu with happend | houtbox | hdone
  · exact absurd happend (hqueue u)
  · simp [hempty] at houtbox
  · exact hdone

/-- There is nothing to send, or it is sent by a drain that begins now or has taken up the whole outbox. -/
def State.Covers (s : State) : Prop :=
  s.outbox = [] ∨ s.connected = true ∧ ∀ drain, s.drain = some drain → ∀ u ∈ s.outbox, u ∈ drain.pending

/-- When `flush` resolves everything is delivered, if and only if the drain that it waits for had taken up the
whole outbox in the state `s` in which `flush` comes to that drain. -/
theorem flush_delivers {outbox : List Nat} {sequence : Nat} {s₁ s s₂ s' : State}
    (hbefore : ReflTransGen (Step · true) {outbox, sequence} s₁)
    (hafter : ReflTransGen (Step · false) s₁.callFlush s) (hwaits : s.flush = .waiting) (hstep : Step s false s₂)
    (hcomes : s₂.flush ≠ .waiting) (hresolves : Resolves s₂ s') : Delivered s' ↔ s.Covers := by
  have hstart : Inv {outbox, sequence} := ⟨fun u hu => .inr (.inl hu), nofun⟩
  have hcalled : Inv s₁.callFlush := ⟨(hstart.run hbefore).tracked, (hstart.run hbefore).sent⟩
  have hflushing : Flushing s := Flushing.run (s := s₁.callFlush) (by simp [Flushing, State.callFlush]) hafter
  have hflushing₂ := hflushing.step hstep
  have hflushing' := hflushing₂.run hresolves.run
  have hinv := (((hcalled.run hafter).step hstep).run hresolves.run).delivered_iff
  suffices h : s'.waiting = 0 ∧ (s'.outbox = [] ↔ s.Covers) by
    unfold Flushing at hflushing'
    rw [h.1] at hflushing'
    exact (hinv hflushing').trans h.2
  unfold State.Covers
  cases hstep with
  | flushNothing hnow hdrains =>
    obtain rfl := hresolves.of_resolved rfl
    refine ⟨hnow.2, (or_iff_left_of_imp fun hcovers => ?_).symm⟩
    simpa [State.drains, hcovers.1] using hdrains
  | flushJoins hnow hdrains hdrain =>
    simp only [State.drains, Bool.and_eq_true, Bool.not_eq_true', List.isEmpty_eq_false_iff] at hdrains
    exact Draining.resolves hflushing₂ ⟨rfl, hnow.2, _, hdrain, by simp [hdrains, hdrain]⟩ hresolves
  | flushDrains hnow hdrains hdrain =>
    simp only [State.drains, Bool.and_eq_true, Bool.not_eq_true', List.isEmpty_eq_false_iff] at hdrains
    exact Draining.resolves hflushing₂
      ⟨rfl, hnow.2, _, rfl, by simp [hdrains, hdrain, State.runDrain, Drain.pending]⟩ hresolves
  | flushed _ hflush => cases hwaits.symm.trans hflush
  | _ => exact absurd hwaits hcomes

/-- A restored update is sent by the drain that `flush` begins. -/
theorem flush_delivers_restored : ∃ s : State, s.recorded = [1] ∧ Delivered s :=
  ⟨_, rfl, (@flush_delivers [1] 0 _ _ _ _ (.single (.connect true)) .refl rfl (.flushDrains ⟨rfl, rfl⟩ rfl rfl) nofun
    (.step nofun (.sent rfl) (.step nofun (.acknowledge 1 rfl rfl) (.step nofun (.flushed rfl rfl)
      (.now rfl))))).mpr (.inr ⟨rfl, nofun⟩)⟩

/-- The second update is appended while the first is sent. -/
theorem update_left_behind : ∃ s s' : State, ReflTransGen (Step · true) {outbox := [], sequence := 0} s ∧
    s.connected ∧ s.recorded = [2, 1] ∧ Resolves s.callFlush s' ∧ s'.outbox = [2] ∧ s'.sent = [1] :=
  ⟨_, _, .head (.connect true) (.head .recordUpdate (.head (.append 1 rfl) (.head (.drainOutbox rfl rfl)
      (.head .recordUpdate (.head (.append 2 rfl) .refl))))), rfl, rfl,
    .step nofun (.flushJoins ⟨rfl, rfl⟩ rfl rfl) (.step nofun (.sent rfl) (.step nofun (.acknowledge 1 rfl rfl)
      (.step nofun (.flushed rfl rfl) (.now rfl)))), rfl, rfl⟩

end Crdt.Browser
