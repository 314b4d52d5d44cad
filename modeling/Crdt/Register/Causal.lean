import Crdt.Lib.Causal
import Crdt.Register.MvRegister

/-! The multi-value register shows the causally maximal writes.

The ghost of a run is the log of all writes, each with the writes that its replica knew of when it
made it. A state, a delta or a snapshot stands for a history, a set of writes that has the past
of each of its members (`Represents`): the version vector counts the writes of every replica,
which are always its first ones, and the values are the maximal writes. Joins stand for unions,
because a dot that one side lacks as a value but covers was overwritten there. -/
namespace Crdt.Register

open MapLoop UInt64 List
open Std.ExtTreeMap (contains_eq_isSome_getElem? getElem?_empty)

/-- A write, and the writes that its replica knew of. -/
structure Write where
  dot : MVDot
  value : List UInt8
  past : Finset MVDot

/-- The first dot is in the past of the write of the second. -/
def Before (log : List Write) (d e : MVDot) : Prop := ∃ w ∈ log, w.dot = e ∧ d ∈ w.past

/-- A version vector and values that stand for a history. -/
structure Represents (log : List Write) (s : MVRegisterDelta) (H : Finset MVDot) : Prop where
  logged : ∀ d ∈ H, ∃ w ∈ log, w.dot = d
  closed : Causal.Closed (Before log) H
  counted : ∀ d, d ∈ H ↔ d.counter ≠ 0 ∧ mvContextCovers s.context d = true
  listed : ∀ (i : List UInt8) (c : UInt64), s.context[i]? = some c → blank i = false ∧ c ≠ 0
  shows : ∀ (d : MVDot) (v : List UInt8), s.values[d]? = some v ↔
    d ∈ Causal.maximal (Before log) H ∧ ∃ w ∈ log, w.dot = d ∧ w.value = v

variable {log : List Write} {s t : MVRegisterDelta} {H K : Finset MVDot} {r r' : MVRegister}

variable {d : MVDot} {context : Context} {c : UInt64}

theorem covers_iff : mvContextCovers context d = true ↔ d.counter ≤ context.counter d.replicaID := by
  simp [mvContextCovers]

theorem Represents.mem_of_shown (h : Represents log s H) {v : List UInt8}
    (hv : s.values[d]? = some v) : d ∈ H := ((h.shows d v).mp hv).1.1

theorem Represents.covers_iff_mem (h : Represents log s H) (hd : d.counter ≠ 0) :
    mvContextCovers s.context d = true ↔ d ∈ H := by
  simp [h.counted, hd]

/-- What validation checks. The replica of a dot that is covered is listed, so it is not blank. -/
structure Valid (s : MVRegisterDelta) : Prop where
  context : ∀ (i : List UInt8) (c : UInt64), s.context[i]? = some c → blank i = false ∧ c ≠ 0
  values : ∀ (d : MVDot) (v : List UInt8), s.values[d]? = some v →
    d.counter ≠ 0 ∧ mvContextCovers s.context d = true

theorem validateMVState_iff : validateMVState s.context s.values = .ok () ↔ Valid s := by
  unfold validateMVState
  constructor
  · intro h
    split_ifs at h with hc hv
    rw [Bool.not_eq_true, any_toList] at hc hv
    refine ⟨fun i c hi => ?_, fun d v hd => ?_⟩
    · simpa [Tag.valid] using hc i c hi
    have := hv d v hd
    simp only [validMVDot, Bool.or_eq_false_iff, Bool.not_eq_false', Bool.and_eq_true, decide_eq_true_eq] at this
    exact ⟨this.1.2, this.2⟩
  intro h
  rw [if_neg, if_neg]
  · rw [Bool.not_eq_true, any_toList]
    intro d v hd
    obtain ⟨hne, hcov⟩ := h.values d v hd
    have hlisted : blank d.replicaID = false := by
      cases hc : s.context[d.replicaID]? with
      | some c => exact (h.context d.replicaID c hc).1
      | none =>
        rw [covers_iff, Context.counter, hc] at hcov
        exact absurd (UInt64.le_zero_iff.mp hcov) hne
    simp [validMVDot, hlisted, hne, hcov]
  · rw [Bool.not_eq_true, any_toList]
    intro i c hi
    obtain ⟨hid, hne⟩ := h.context i c hi
    simp [Tag.valid, hid, hne]

theorem Represents.validates (h : Represents log s H) : validateMVState s.context s.values = .ok () :=
  validateMVState_iff.mpr ⟨h.listed, fun d _ hv => (h.counted d).mp (h.mem_of_shown hv)⟩

/-! ### Joins -/

/-- What the first loop keeps. -/
def keepLeft (rightContext : Context) (rightValues merged : Values) (p : MVDot × List UInt8) : Values :=
  if rightValues.contains p.1 || !mvContextCovers rightContext p.1 then merged.insert p.1 p.2 else merged

theorem joinLeft_total {rightContext : Context} {rightValues : Values} {l : List (MVDot × List UInt8)}
    (h : ∀ p ∈ l, ∀ v, rightValues[p.1]? = some v → p.2 = v) (merged : Values) :
    joinLeft rightContext rightValues l merged =
      .ok (l.foldl (keepLeft rightContext rightValues) merged) := by
  induction l generalizing merged with
  | nil => rfl
  | cons p l ih =>
    obtain ⟨hp, hl⟩ := forall_mem_cons.mp h
    rw [joinLeft, foldl_cons]
    cases hr : rightValues[p.1]? with
    | some v =>
      have hkeep : keepLeft rightContext rightValues merged p = merged.insert p.1 p.2 := by
        rw [keepLeft]
        simp [contains_eq_isSome_getElem?, hr]
      rw [hkeep, ← ih hl]
      simp [hp v hr]
    | none =>
      have hkeep : keepLeft rightContext rightValues merged p =
          if mvContextCovers rightContext p.1 then merged else merged.insert p.1 p.2 := by
        rw [keepLeft, contains_eq_isSome_getElem?, hr]
        cases mvContextCovers rightContext p.1 <;> rfl
      rw [hkeep, ← ih hl]

theorem getElem?_keepLeft (rightContext : Context) (rightValues leftValues : Values) (d : MVDot) :
    (leftValues.toList.foldl (keepLeft rightContext rightValues) ∅)[d]? = leftValues[d]?.elim none fun v =>
        if rightValues.contains d || !mvContextCovers rightContext d then some v else none := by
  refine (getElem?_foldl_insertIf (fun d _ _ => (rightValues.contains d || !mvContextCovers rightContext d) = true)
    (fun v => v) leftValues ∅ d).trans ?_
  simp

theorem getElem?_joinRight (leftContext : Context) (leftValues rightValues merged : Values) (d : MVDot) :
    (rightValues.toList.foldl (joinRight leftContext leftValues) merged)[d]? =
      rightValues[d]?.elim merged[d]? fun v =>
        if leftValues.contains d || mvContextCovers leftContext d then merged[d]? else some v := by
  refine getElem?_foldl_touch (g := fun d v current =>
    if leftValues.contains d || mvContextCovers leftContext d then current else some v)
    (f := joinRight leftContext leftValues) ?_ ?_ rightValues merged d
  · intro acc d v
    unfold joinRight
    split_ifs <;> simp
  intro acc d v a hne
  unfold joinRight
  split_ifs
  · rfl
  · rw [get?_insert, if_neg hne.symm]

theorem getElem?_joinContext (left right : Context) (i : List UInt8) :
    (right.toList.foldl joinContext left)[i]? =
      right[i]?.elim left[i]? fun c => if c > left.counter i then some c else left[i]? := by
  exact getElem?_foldl_insertIf (fun _ c current => c > current.getD 0) (fun c => c) right left i

theorem joinContext_cases {left right : Context} {i : List UInt8}
    (h : (right.toList.foldl joinContext left)[i]? = some c) : left[i]? = some c ∨ right[i]? = some c := by
  rw [getElem?_joinContext] at h
  cases hr : right[i]? with
  | none => exact .inl (by simpa [hr] using h)
  | some c' =>
    rw [hr, Option.elim_some] at h
    split_ifs at h
    · exact .inr h
    · exact .inl h

theorem counter_joinContext (left right : Context) (i : List UInt8) :
    Context.counter (right.toList.foldl joinContext left) i = max (left.counter i) (right.counter i) := by
  rw [Context.counter, getElem?_joinContext]
  cases hc : right[i]? with
  | none => simp [Context.counter, hc]
  | some c =>
    have hright : right.counter i = c := by rw [Context.counter, hc, Option.getD_some]
    rw [hright, Option.elim_some]
    split_ifs with hlt
    · rw [Option.getD_some, max_eq_right hlt.le]
    · rw [max_eq_left (not_lt.mp hlt)]
      rfl

theorem Represents.agree (hlog : (log.map Write.dot).Nodup) (hs : Represents log s H)
    (ht : Represents log t K) {v v' : List UInt8} (hv : s.values[d]? = some v)
    (hv' : t.values[d]? = some v') : v = v' := by
  obtain ⟨-, w, hw, hdot, rfl⟩ := (hs.shows d v).mp hv
  obtain ⟨-, w', hw', hdot', rfl⟩ := (ht.shows d v').mp hv'
  rw [inj_on_of_nodup_map hlog hw hw' (hdot.trans hdot'.symm)]

theorem Represents.contains_iff (h : Represents log s H) :
    s.values.contains d = true ↔ d ∈ Causal.maximal (Before log) H := by
  rw [Std.ExtTreeMap.contains_iff_mem, mem_iff]
  constructor
  · rintro ⟨v, hv⟩
    exact ((h.shows d v).mp hv).1
  intro hm
  obtain ⟨w, hw, hdot⟩ := h.logged d hm.1
  exact ⟨w.value, (h.shows d w.value).mpr ⟨hm, w, hw, hdot, rfl⟩⟩

theorem getElem?_joined (left right : MVRegisterDelta) (d : MVDot) :
    (right.values.toList.foldl (joinRight left.context left.values)
        (left.values.toList.foldl (keepLeft right.context right.values) ∅))[d]? =
      match left.values[d]?, right.values[d]? with
      | some v, some _ => some v
      | some v, none => if mvContextCovers right.context d then none else some v
      | none, some v => if mvContextCovers left.context d then none else some v
      | none, none => none := by
  rw [getElem?_joinRight, getElem?_keepLeft]
  simp only [contains_eq_isSome_getElem?]
  cases left.values[d]? with
  | none =>
    cases right.values[d]? with
    | none => rfl
    | some v => cases mvContextCovers left.context d <;> rfl
  | some v =>
    cases right.values[d]? with
    | none => cases mvContextCovers right.context d <;> rfl
    | some v' => rfl

theorem Represents.not_shown (h : Represents log s H) (hd : d ∉ H) : s.values[d]? = none := by
  by_contra hv
  obtain ⟨v, hv⟩ := Option.ne_none_iff_exists'.mp hv
  exact hd (h.mem_of_shown hv)

theorem Represents.not_covered (h : Represents log s H) (hne : d.counter ≠ 0)
    (hd : d ∉ H) : mvContextCovers s.context d = false := by
  rw [← Bool.not_eq_true, h.covers_iff_mem hne]
  exact hd

theorem Represents.not_maximal (h : Represents log s H) (hv : s.values[d]? = none) :
    d ∉ Causal.maximal (Before log) H := by
  rw [← h.contains_iff, contains_eq_isSome_getElem?, hv]
  simp

theorem Represents.joined_shows (hs : Represents log s H) (ht : Represents log t K) (d : MVDot)
    (v : List UInt8) : (t.values.toList.foldl (joinRight s.context s.values)
        (s.values.toList.foldl (keepLeft t.context t.values) ∅))[d]? = some v ↔
      d ∈ Causal.maximal (Before log) (H ∪ K : Set MVDot) ∧ ∃ w ∈ log, w.dot = d ∧ w.value = v := by
  rw [getElem?_joined]
  by_cases hH : d ∈ H
  · have hne : d.counter ≠ 0 := ((hs.counted d).mp hH).1
    by_cases hK : d ∈ K
    · -- both sides know the write: it is visible if neither has overwritten it
      rw [Causal.mem_maximal_union_of_mem (Finset.mem_coe.mpr hH) (Finset.mem_coe.mpr hK)]
      cases hv : s.values[d]? with
      | none => cases t.values[d]? <;> simp [(hs.covers_iff_mem hne).mpr hH, hs.not_maximal hv]
      | some x =>
        cases hv' : t.values[d]? with
        | none => simp [(ht.covers_iff_mem hne).mpr hK, ht.not_maximal hv']
        | some x' =>
          show some x = some v ↔ _
          rw [← hv, hs.shows d v]
          exact and_congr_left fun _ => (and_iff_left ((ht.shows d x').mp hv').1).symm
    · rw [Causal.mem_maximal_union_of_not_mem ht.closed (mt Finset.mem_coe.mp hK), ← hs.shows d v,
        ht.not_shown hK]
      cases s.values[d]? <;> simp [ht.not_covered hne hK]
  rw [Set.union_comm, Causal.mem_maximal_union_of_not_mem hs.closed (mt Finset.mem_coe.mp hH),
    ← ht.shows d v, hs.not_shown hH]
  cases hv : t.values[d]? with
  | none => simp
  | some x =>
    have hne : d.counter ≠ 0 := ((ht.counted d).mp (ht.mem_of_shown hv)).1
    simp [hs.not_covered hne hH]

section
variable (hlog : (log.map Write.dot).Nodup)
include hlog

/-- The join of two states of one run never conflicts and stands for the union. -/
theorem Represents.join (hs : Represents log s H) (ht : Represents log t K) :
    ∃ context values, joinMVState s.context s.values t.context t.values = .ok (context, values) ∧
      Represents log ⟨context, values⟩ (H ∪ K) := by
  have hagree : ∀ p ∈ s.values.toList, ∀ v, t.values[p.1]? = some v → p.2 = v := fun p hp v hv =>
    hs.agree hlog ht (mem_toList.mp hp) hv
  refine ⟨_, _, by rw [joinMVState, joinLeft_total hagree], ?_⟩
  refine ⟨fun d hd => ?_, ?_, fun d => ?_, fun i c hc => ?_, fun d v => ?_⟩
  · rcases Finset.mem_union.mp hd with hd | hd
    · exact hs.logged d hd
    · exact ht.logged d hd
  · rw [Finset.coe_union]
    exact hs.closed.union ht.closed
  · rw [Finset.mem_union, hs.counted, ht.counted, covers_iff, covers_iff, covers_iff,
      counter_joinContext, le_max_iff, ← and_or_left]
  · exact (joinContext_cases hc).elim (hs.listed i c) (ht.listed i c)
  · rw [Finset.coe_union]
    exact hs.joined_shows ht d v

/-! ### Calls -/

theorem Represents.merge_deltas (hs : Represents log s H)
    (ht : Represents log t K) : ∃ f, s.merge t = .ok f ∧ Represents log f (H ∪ K) := by
  obtain ⟨context, values, hj, hr⟩ := hs.join hlog ht
  refine ⟨⟨context, values⟩, ?_, hr⟩
  unfold MVRegisterDelta.merge
  rw [hs.validates, ht.validates]
  simp only [hj]

theorem Represents.join_register (hr : Represents log r.state H)
    (ht : Represents log t K) : ∃ r', r.join t.context t.values = (r', .ok ()) ∧
      r'.replicaID = r.replicaID ∧ Represents log r'.state (H ∪ K) := by
  obtain ⟨context, values, hj, hrep⟩ := hr.join hlog ht
  refine ⟨{r with context, values}, ?_, rfl, hrep⟩
  have hv : validateMVState r.context r.values = .ok () := hr.validates
  have hj : joinMVState r.context r.values t.context t.values = .ok (context, values) := hj
  unfold MVRegister.join
  simp only [hv, hj]

theorem Represents.merge_register {o : MVRegister}
    (hr : Represents log r.state H) (ho : Represents log o.state K) :
    ∃ r', r.merge o = (r', .ok ()) ∧ r'.replicaID = r.replicaID ∧ Represents log r'.state (H ∪ K) := by
  have hv : validateMVState o.context o.values = .ok () := ho.validates
  unfold MVRegister.merge
  rw [hv]
  exact hr.join_register hlog ho

end

theorem counter_le_of_all
    (h : (context.toList.all fun p => !decide (r.context.counter p.1 < p.2)) = true) (i : List UInt8) :
    context.counter i ≤ r.context.counter i := by
  unfold Context.counter
  cases hi : context[i]? with
  | none => exact UInt64.zero_le
  | some c =>
    have hle := all_toList.mp h i c hi
    rwa [Bool.not_eq_true', decide_eq_false_iff_not, not_lt] at hle

theorem Represents.apply_register (hlog : (log.map Write.dot).Nodup) (hr : Represents log r.state H)
    (ht : Represents log t K) : ∃ r', r.applyDelta t = (r', .ok ()) ∧
      r'.replicaID = r.replicaID ∧ Represents log r'.state (H ∪ K) := by
  have hagree : (t.values.toList.any fun p => (r.values[p.1]?).any (· ≠ p.2)) = false :=
    any_toList_ne.mpr fun d v w hv hw => hr.agree hlog ht hv hw
  unfold MVRegister.applyDelta
  rw [ht.validates]
  simp only [MVRegister.subsumes, hagree, Bool.false_eq_true]
  cases hc : t.context.toList.all fun p => !decide (r.context.counter p.1 < p.2) with
  | false => exact hr.join_register hlog ht
  | true =>
    -- a context that is covered belongs to a history that is known already
    refine ⟨r, rfl, rfl, ?_⟩
    have hsub : K ⊆ H := by
      intro d hd
      obtain ⟨hne, hcov⟩ := (ht.counted d).mp hd
      exact (hr.counted d).mpr ⟨hne, covers_iff.mpr ((covers_iff.mp hcov).trans (counter_le_of_all hc _))⟩
    rwa [Finset.union_eq_left.mpr hsub]

/-! ### Runs -/

/-- Replicas under their IDs, and all that was ever sent, with the ghost of each: the writes that
went into it. Nothing that was sent is ever taken away, so it may arrive late, twice or never. -/
structure World where
  log : List Write := []
  registers : List UInt8 → Option (MVRegister × Finset MVDot) := fun _ => none
  deltas : List (MVRegisterDelta × Finset MVDot) := []
  snapshots : List (MVRegisterDelta × Finset MVDot) := []

namespace World

def update (w : World) (id : List UInt8) (r : MVRegister) (H : Finset MVDot) : World :=
  {w with registers := Function.update w.registers id (some (r, H))}

/-- A write of a replica that knows of `H`. -/
def write (w : World) (id : List UInt8) (r : MVRegister) (d : MVRegisterDelta) (x : Write) : World :=
  {w.update id r (insert x.dot x.past) with
    log := w.log ++ [x]
    deltas := w.deltas ++ [(d, insert x.dot x.past)]}

end World

inductive Step : World → World → Prop
  | create {w : World} {id : List UInt8} {r : MVRegister} (hid : w.registers id = none)
      (h : newMVRegister id = .ok r) : Step w (w.update id r ∅)
  | set {w : World} {id value : List UInt8} {r r' : MVRegister} {H : Finset MVDot} {d : MVRegisterDelta}
      (hr : w.registers id = some (r, H)) (h : r.set value = (r', .ok d)) :
    Step w (w.write id r' d ⟨⟨r.replicaID, r.context.counter r.replicaID + 1⟩, value, H⟩)
  | apply {w : World} {id : List UInt8} {r r' : MVRegister} {H K : Finset MVDot} {d : MVRegisterDelta}
      (hr : w.registers id = some (r, H)) (hd : (d, K) ∈ w.deltas) (h : r.applyDelta d = (r', .ok ())) :
    Step w (w.update id r' (H ∪ K))
  | mergeDeltas {w : World} {d e f : MVRegisterDelta} {H K : Finset MVDot} (hd : (d, H) ∈ w.deltas)
      (he : (e, K) ∈ w.deltas) (h : d.merge e = .ok f) :
    Step w {w with deltas := w.deltas ++ [(f, H ∪ K)]}
  | merge {w : World} {id id' : List UInt8} {r r' o : MVRegister} {H K : Finset MVDot}
      (hr : w.registers id = some (r, H)) (ho : w.registers id' = some (o, K))
      (h : r.merge o = (r', .ok ())) : Step w (w.update id r' (H ∪ K))
  | snapshot {w : World} {id : List UInt8} {r : MVRegister} {H : Finset MVDot}
      (hr : w.registers id = some (r, H)) : Step w {w with snapshots := w.snapshots ++ [(r.state, H)]}
  /-- A replica ID comes to life from a snapshot: one that has not written before, or one whose own
  writes the snapshot has. -/
  | restore {w : World} {id : List UInt8} {s : MVRegisterDelta} {H : Finset MVDot} {r : MVRegister}
      (hs : (s, H) ∈ w.snapshots) (hown : ∀ x ∈ w.log, x.dot.replicaID = id → x.dot ∈ H)
      (h : newMVRegisterFromSnapshot id s = .ok r) : Step w (w.update id r H)

inductive Reachable : World → Prop
  | start : Reachable {}
  | step {w w' : World} (hw : Reachable w) (h : Step w w') : Reachable w'

/-- A replica that knows all writes under its own ID. -/
structure Owns (log : List Write) (id : List UInt8) (r : MVRegister) (H : Finset MVDot) : Prop where
  replicaID : r.replicaID = id
  valid : blank id = false
  represents : Represents log r.state H
  own : ∀ x ∈ log, x.dot.replicaID = id → x.dot ∈ H

structure Inv (w : World) : Prop where
  log : (w.log.map Write.dot).Nodup
  registers : ∀ id r H, w.registers id = some (r, H) → Owns w.log id r H
  unborn : ∀ id, w.registers id = none → ∀ x ∈ w.log, x.dot.replicaID ≠ id
  deltas : ∀ p ∈ w.deltas, Represents w.log p.1 p.2
  snapshots : ∀ p ∈ w.snapshots, Represents w.log p.1 p.2

variable {w w' : World} {id : List UInt8}

theorem World.update_registers (w : World) (id id' : List UInt8) (r : MVRegister) (H : Finset MVDot) :
    (w.update id r H).registers id' = if id' = id then some (r, H) else w.registers id' :=
  Function.update_apply ..

theorem Inv.update (h : Inv w) (hr : Owns w.log id r H) : Inv (w.update id r H) := by
  refine ⟨h.log, fun id' r' K hr' => ?_, fun id' hid' => ?_, h.deltas, h.snapshots⟩
  · rw [World.update_registers] at hr'
    split_ifs at hr' with hid
    · cases hr'
      exact hid ▸ hr
    · exact h.registers id' r' K hr'
  rw [World.update_registers] at hid'
  split_ifs at hid'
  exact h.unborn id' hid'

variable {x : Write}

theorem before_append {e : MVDot} (he : e ≠ x.dot) : Before (log ++ [x]) d e ↔ Before log d e := by
  unfold Before
  simp only [mem_append, mem_singleton, or_and_right, exists_or, exists_eq_left]
  exact or_iff_left fun hx => he hx.1.symm

theorem Represents.extend (h : Represents log s H) (hx : x.dot ∉ H) : Represents (log ++ [x]) s H := by
  have hsame : ∀ e ∈ (H : Set MVDot), ∀ d, Before (log ++ [x]) d e ↔ Before log d e :=
    fun e he d => before_append fun heq => hx (heq ▸ he)
  refine ⟨fun d hd => ?_, h.closed.congr hsame, h.counted, h.listed, fun d v => ?_⟩
  · obtain ⟨y, hy, hdot⟩ := h.logged d hd
    exact ⟨y, mem_append_left _ hy, hdot⟩
  rw [h.shows, Causal.maximal_congr hsame]
  refine and_congr_right fun hd => ?_
  simp only [mem_append, mem_singleton, or_and_right, exists_or, exists_eq_left]
  exact (or_iff_left fun hxd : x.dot = d ∧ x.value = v => hx (hxd.1 ▸ hd.1)).symm

variable {value : List UInt8} {d : MVRegisterDelta}

theorem set_ok (h : r.set value = (r', .ok d)) :
    r.context.counter r.replicaID ≠ 0xFFFFFFFFFFFFFFFF ∧ d = r'.state ∧ r' = {r with
      context := r.context.insert r.replicaID (r.context.counter r.replicaID + 1)
      values := (∅ : Values).insert ⟨r.replicaID, r.context.counter r.replicaID + 1⟩ value} := by
  unfold MVRegister.set at h
  by_cases hmax : r.context.counter r.replicaID = 0xFFFFFFFFFFFFFFFF
  · rw [if_pos hmax] at h
    cases h
  rw [if_neg hmax] at h
  obtain ⟨rfl, hd⟩ := Prod.mk.inj h
  exact ⟨hmax, (Except.ok.inj hd).symm, rfl⟩

theorem toNat_succ (h : c ≠ 0xFFFFFFFFFFFFFFFF) : (c + 1).toNat = c.toNat + 1 := by
  have hlt := c.toNat_lt
  have hne : c.toNat ≠ 0xFFFFFFFFFFFFFFFF := fun he => h (UInt64.toNat_inj.mp he)
  rw [UInt64.toNat_add, UInt64.toNat_one]
  omega

section
variable (h : Owns log id r H) (hmax : r.context.counter r.replicaID ≠ 0xFFFFFFFFFFFFFFFF)
include h hmax

theorem Owns.next_fresh : (⟨r.replicaID, r.context.counter r.replicaID + 1⟩ : MVDot) ∉ H := by
  intro hm
  have hle := UInt64.le_iff_toNat_le.mp (covers_iff.mp ((h.represents.counted _).mp hm).2)
  have hs : (r.context.counter r.replicaID + 1).toNat = _ := toNat_succ hmax
  have hc : Context.counter r.state.context r.replicaID = r.context.counter r.replicaID := rfl
  rw [hc] at hle
  dsimp only at hle
  omega

theorem Owns.next_not_logged {y : Write} (hy : y ∈ log) :
    y.dot ≠ ⟨r.replicaID, r.context.counter r.replicaID + 1⟩ := by
  intro he
  have hm := h.own y hy (by rw [he, h.replicaID])
  rw [he] at hm
  exact h.next_fresh hmax hm

end

theorem counter_insert (context : Context) (i j : List UInt8) (c : UInt64) :
    Context.counter (context.insert i c) j = if i = j then c else context.counter j := by
  rw [Context.counter, get?_insert]
  split_ifs <;> rfl

/-- A write of a replica makes its history larger by one maximal write. -/
theorem Owns.set (h : Owns log id r H) (hset : r.set value = (r', .ok d))
    (hx : x = ⟨⟨r.replicaID, r.context.counter r.replicaID + 1⟩, value, H⟩) :
    Represents (log ++ [x]) r'.state (insert x.dot H) := by
  obtain ⟨hmax, -, rfl⟩ := set_ok hset
  have hfresh : x.dot ∉ H := hx ▸ h.next_fresh hmax
  have hnat := toNat_succ hmax
  have hrep := h.represents.extend hfresh
  have hnolog : ∀ y ∈ log, y.dot ≠ x.dot := fun y hy => hx ▸ h.next_not_logged hmax hy
  have hall : ∀ e, Before (log ++ [x]) e x.dot ↔ e ∈ (H : Set MVDot) := by
    intro e
    unfold Before
    simp only [mem_append, mem_singleton, or_and_right, exists_or, exists_eq_left, true_and]
    rw [or_iff_right fun ⟨y, hy, he, _⟩ => hnolog y hy he, hx]
    exact Finset.mem_coe.symm
  refine ⟨fun e he => ?_, ?_, fun e => ?_, fun i c hc => ?_, fun e v => ?_⟩
  · rcases Finset.mem_insert.mp he with rfl | he
    · exact ⟨x, by simp, rfl⟩
    · exact hrep.logged e he
  · rw [Finset.coe_insert]
    exact hrep.closed.insert fun e he => (hall e).mp he
  · -- the dots of the replica up to the new one
    rw [Finset.mem_insert, h.represents.counted, covers_iff, covers_iff]
    change _ ↔ _ ∧ _ ≤ Context.counter (r.context.insert _ _) _
    change _ ∨ _ ∧ _ ≤ r.context.counter _ ↔ _
    rw [counter_insert]
    split_ifs with hi
    · rw [← hi, hx]
      have hdot : e = ⟨r.replicaID, r.context.counter r.replicaID + 1⟩ ↔
          e.counter = r.context.counter r.replicaID + 1 := ⟨fun he => by rw [he], fun hc => by rw [← hc, hi]⟩
      rw [hdot]
      simp only [UInt64.le_iff_toNat_le, ← UInt64.toNat_inj, ne_eq, UInt64.toNat_zero]
      omega
    · refine or_iff_right fun he => hi ?_
      rw [he, hx]
  · change (r.context.insert _ _)[i]? = _ at hc
    rw [get?_insert] at hc
    split_ifs at hc with hi
    · cases hc
      refine ⟨by rw [← hi, h.replicaID]; exact h.valid, fun h0 => ?_⟩
      rw [h0, UInt64.toNat_zero] at hnat
      omega
    · exact h.represents.listed i c hc
  rw [Finset.coe_insert, Causal.mem_maximal_insert hrep.closed (mt Finset.mem_coe.mp hfresh) hall]
  change ((∅ : Values).insert _ _)[e]? = _ ↔ _
  rw [get?_insert, getElem?_empty]
  simp only [mem_append, mem_singleton, or_and_right, exists_or, exists_eq_left]
  constructor
  · intro hv
    split_ifs at hv with he
    cases hv
    exact ⟨by rw [hx, he], .inr ⟨by rw [hx, he], by rw [hx]⟩⟩
  rintro ⟨rfl, ⟨y, hy, he, -⟩ | ⟨-, rfl⟩⟩
  · exact absurd he (hnolog y hy)
  · rw [hx, if_pos rfl]

theorem Inv.set (h : Inv w) (hr : w.registers id = some (r, H)) (hset : r.set value = (r', .ok d)) :
    Inv (w.write id r' d ⟨⟨r.replicaID, r.context.counter r.replicaID + 1⟩, value, H⟩) := by
  have ho := h.registers id r H hr
  obtain ⟨x, hx⟩ : ∃ x : Write, x = ⟨⟨r.replicaID, r.context.counter r.replicaID + 1⟩, value, H⟩ := ⟨_, rfl⟩
  obtain ⟨hmax, rfl, hr'⟩ := set_ok hset
  have hpast : x.past = H := by rw [hx]
  have hrep := ho.set hset hx
  have hid : x.dot.replicaID = id := by rw [hx, ho.replicaID]
  have hnolog : ∀ y ∈ w.log, y.dot ≠ x.dot := fun y hy => hx ▸ ho.next_not_logged hmax hy
  -- no other history has the new dot
  have hext : ∀ {s : MVRegisterDelta} {K : Finset MVDot}, Represents w.log s K →
      Represents (w.log ++ [x]) s K := fun hs => hs.extend fun hm => by
    obtain ⟨y, hy, hdot⟩ := hs.logged _ hm
    exact hnolog y hy hdot
  rw [← hx]
  refine ⟨?_, fun id' r₁ K hr₁ => ?_, fun id' hid' => ?_, fun p hp => ?_, fun p hp => ?_⟩
  · change ((w.log ++ [x]).map Write.dot).Nodup
    rw [map_append, map_singleton, ← concat_eq_append]
    refine h.log.concat fun hm => ?_
    obtain ⟨y, hy, he⟩ := mem_map.mp hm
    exact hnolog y hy he
  · change (w.update id r' (insert x.dot x.past)).registers id' = _ at hr₁
    rw [World.update_registers] at hr₁
    split_ifs at hr₁ with he
    · cases hr₁
      subst he
      refine ⟨by rw [hr']; exact ho.replicaID, ho.valid, hpast.symm ▸ hrep, ?_⟩
      refine forall_mem_append.mpr ⟨fun y hy hyid => ?_, forall_mem_singleton.mpr fun _ => ?_⟩
      · exact Finset.mem_insert_of_mem (hpast.symm ▸ ho.own y hy hyid)
      · exact Finset.mem_insert_self _ _
    have ho₁ := h.registers id' r₁ K hr₁
    exact ⟨ho₁.replicaID, ho₁.valid, hext ho₁.represents, forall_mem_append.mpr
      ⟨ho₁.own, forall_mem_singleton.mpr fun hx => absurd (hx.symm.trans hid) he⟩⟩
  · change (w.update id r' (insert x.dot x.past)).registers id' = _ at hid'
    rw [World.update_registers] at hid'
    split_ifs at hid' with he
    exact forall_mem_append.mpr ⟨h.unborn id' hid', forall_mem_singleton.mpr (hid ▸ Ne.symm he)⟩
  · exact forall_mem_append.mpr ⟨fun p hp => hext (h.deltas p hp), forall_mem_singleton.mpr (hpast.symm ▸ hrep)⟩ p hp
  · exact hext (h.snapshots p hp)

theorem newMVRegister_ok (h : newMVRegister id = .ok r) : r = {replicaID := id} ∧ blank id = false := by
  unfold newMVRegister at h
  split_ifs at h with hv
  cases h
  exact ⟨rfl, by simpa [Tag.valid] using hv⟩

theorem represents_empty (log : List Write) : Represents log ⟨∅, ∅⟩ ∅ := by
  refine ⟨by simp, by simp [Causal.Closed], fun d => ?_, by simp, by simp [Causal.maximal]⟩
  rw [covers_iff, Context.counter]
  simp only [Finset.notMem_empty, getElem?_empty, false_iff, not_and]
  exact fun hne hle => hne (UInt64.le_zero_iff.mp hle)

theorem Inv.step (h : Inv w) (hstep : Step w w') : Inv w' := by
  cases hstep with
  | @create id r hid hnew =>
    obtain ⟨rfl, hvalid⟩ := newMVRegister_ok hnew
    exact h.update ⟨rfl, hvalid, represents_empty w.log, fun x hx he => absurd he (h.unborn id hid x hx)⟩
  | set hr hset => exact h.set hr hset
  | @apply id r r' H K d hr hd happ =>
    have ho := h.registers id r H hr
    obtain ⟨r₁, he, hid, hrep⟩ := ho.represents.apply_register h.log (h.deltas _ hd)
    rw [happ] at he
    cases he
    exact h.update ⟨hid.trans ho.replicaID, ho.valid, hrep, fun x hx hi =>
      Finset.mem_union_left _ (ho.own x hx hi)⟩
  | mergeDeltas hd he hm =>
    obtain ⟨f, hf, hrep⟩ := (h.deltas _ hd).merge_deltas h.log (h.deltas _ he)
    rw [hm] at hf
    cases hf
    exact ⟨h.log, h.registers, h.unborn, forall_mem_append.mpr ⟨h.deltas, forall_mem_singleton.mpr hrep⟩, h.snapshots⟩
  | @merge id id' r r' o H K hr ho hm =>
    have hown := h.registers id r H hr
    obtain ⟨r₁, he, hid, hrep⟩ := hown.represents.merge_register h.log (h.registers id' o K ho).represents
    rw [hm] at he
    cases he
    exact h.update ⟨hid.trans hown.replicaID, hown.valid, hrep, fun x hx hi =>
      Finset.mem_union_left _ (hown.own x hx hi)⟩
  | snapshot hr =>
    exact ⟨h.log, h.registers, h.unborn, h.deltas, forall_mem_append.mpr
      ⟨h.snapshots, forall_mem_singleton.mpr (h.registers _ _ _ hr).represents⟩⟩
  | @restore id s H r hs hown hnew =>
    unfold newMVRegisterFromSnapshot at hnew
    split at hnew
    · cases hnew
    rename_i r₀ hr₀
    cases hnew
    obtain ⟨rfl, hvalid⟩ := newMVRegister_ok hr₀
    exact h.update ⟨rfl, hvalid, h.snapshots _ hs, hown⟩

theorem Reachable.inv (h : Reachable w) : Inv w := by
  induction h with
  | start => exact ⟨nodup_nil, by simp, by simp, by simp, by simp⟩
  | step _ hs ih => exact ih.step hs

theorem Represents.count (hlog : (log.map Write.dot).Nodup) (h : Represents log s H) (i : List UInt8) :
    log.countP (fun x => x.dot.replicaID = i ∧ x.dot ∈ H) = (Context.counter s.context i).toNat := by
  have hcard : (H.filter (·.replicaID = i)).card = (Context.counter s.context i).toNat := by
    have himage : H.filter (·.replicaID = i) =
        (Finset.Icc 1 (Context.counter s.context i).toNat).image fun n => ⟨i, ofNat n⟩ := by
      ext d
      simp only [Finset.mem_filter, h.counted, covers_iff, UInt64.le_iff_toNat_le, Finset.mem_image,
        Finset.mem_Icc]
      constructor
      · rintro ⟨⟨hne, hle⟩, rfl⟩
        refine ⟨d.counter.toNat, ⟨?_, hle⟩, by rw [UInt64.ofNat_toNat]⟩
        exact Nat.one_le_iff_ne_zero.mpr fun h0 => hne (UInt64.toNat_inj.mp h0)
      rintro ⟨n, ⟨hn, hle⟩, rfl⟩
      have hlt : n < 2 ^ 64 := hle.trans_lt (toNat_lt _)
      have hnat : (ofNat n).toNat = n := toNat_ofNat_of_lt' hlt
      refine ⟨⟨fun h0 => ?_, hnat.symm ▸ hle⟩, rfl⟩
      have h0 : (ofNat n).toNat = 0 := congrArg toNat h0
      omega
    rw [himage, Finset.card_image_of_injOn, Nat.card_Icc, Nat.add_sub_cancel]
    intro n hn m hm he
    have hn := (Finset.mem_Icc.mp hn).2.trans_lt (toNat_lt _)
    have hm := (Finset.mem_Icc.mp hm).2.trans_lt (toNat_lt _)
    have := congrArg toNat (MVDot.mk.inj he).2
    rwa [toNat_ofNat_of_lt' hn, toNat_ofNat_of_lt' hm] at this
  rw [← hcard, countP_eq_length_filter, ← length_map (f := Write.dot)]
  have hnodup : ((log.filter fun x => x.dot.replicaID = i ∧ x.dot ∈ H).map Write.dot).Nodup :=
    hlog.sublist (filter_sublist.map _)
  rw [← toFinset_card_of_nodup hnodup]
  congr 1
  ext d
  simp only [mem_toFinset, mem_map, List.mem_filter, decide_eq_true_eq, Finset.mem_filter]
  constructor
  · rintro ⟨x, ⟨-, hid, hm⟩, rfl⟩
    exact ⟨hm, hid⟩
  rintro ⟨hm, hid⟩
  obtain ⟨x, hx, rfl⟩ := h.logged d hm
  exact ⟨x, ⟨hx, hid, hm⟩, rfl⟩

/-- In every run, a replica that knows of the writes `H` shows those of them that are not in the
past of another one, its version vector has the number of the writes of every replica among them,
and no delivery fails. -/
theorem mv_register_shows_maximal_writes (hw : Reachable w) : (w.log.map Write.dot).Nodup ∧
    (∀ id r H, w.registers id = some (r, H) →
      (∀ d ∈ H, ∃ x ∈ w.log, x.dot = d) ∧ (∀ x ∈ w.log, x.dot ∈ H → x.past ⊆ H) ∧
      (∀ d v, (d, v) ∈ r.visible ↔ ∃ x ∈ w.log, x.dot = d ∧ x.value = v ∧ d ∈ H ∧
        ∀ y ∈ w.log, y.dot ∈ H → d ∉ y.past) ∧ (∀ i, (Context.counter r.context i).toNat =
        w.log.countP fun x => x.dot.replicaID = i ∧ x.dot ∈ H) ∧
      (∀ p ∈ w.deltas, (r.applyDelta p.1).2 = .ok ()) ∧
      ∀ id' o K, w.registers id' = some (o, K) → (r.merge o).2 = .ok ()) ∧
    ∀ p ∈ w.deltas, ∀ q ∈ w.deltas, ∃ f, p.1.merge q.1 = .ok f := by
  have h := hw.inv
  refine ⟨h.log, fun id r H hr => ?_, fun p hp q hq => ?_⟩
  · have hrep := (h.registers id r H hr).represents
    refine ⟨hrep.logged, fun x hx hm d hd => ?_, fun d v => ?_, fun i => (hrep.count h.log i).symm,
      fun p hp => ?_, fun id' o K ho => ?_⟩
    · exact hrep.closed x.dot hm d ⟨x, hx, rfl, hd⟩
    · have hmax : d ∈ Causal.maximal (Before w.log) H ↔ d ∈ H ∧ ∀ y ∈ w.log, y.dot ∈ H → d ∉ y.past := by
        refine and_congr_right fun _ => ⟨fun hall y hy hm hd => hall y.dot hm ⟨y, hy, rfl, hd⟩, ?_⟩
        rintro hall e he ⟨y, hy, rfl, hd⟩
        exact hall y hy he hd
      rw [MVRegister.visible, mem_toList]
      refine (hrep.shows d v).trans ?_
      rw [hmax]
      constructor
      · rintro ⟨⟨hm, hall⟩, x, hx, hdot, hv⟩
        exact ⟨x, hx, hdot, hv, hm, hall⟩
      · rintro ⟨x, hx, hdot, hv, hm, hall⟩
        exact ⟨⟨hm, hall⟩, x, hx, hdot, hv⟩
    · obtain ⟨r', he, -, -⟩ := hrep.apply_register h.log (h.deltas p hp)
      rw [he]
    · obtain ⟨r', he, -, -⟩ := hrep.merge_register h.log (h.registers id' o K ho).represents
      rw [he]
  · obtain ⟨f, hf, -⟩ := (h.deltas p hp).merge_deltas h.log (h.deltas q hq)
    exact ⟨f, hf⟩

/-- Two replicas write without knowing of each other; one of them hears of the other. -/
theorem mv_register_shows_both_writes : ∃ w r H, Reachable w ∧ w.registers [2] = some (r, H) ∧
      (⟨[1], 1⟩, [10]) ∈ r.visible ∧ (⟨[2], 1⟩, [20]) ∈ r.visible := by
  let a : MVRegister := {replicaID := [1]}
  let b : MVRegister := {replicaID := [2]}
  let x : Write := ⟨⟨[1], 1⟩, [10], ∅⟩
  let y : Write := ⟨⟨[2], 1⟩, [20], ∅⟩
  let a' := (a.set [10]).1
  let b' := (b.set [20]).1
  let w₁ : World := World.update {} [1] a ∅
  let w₂ : World := w₁.update [2] b ∅
  let w₃ : World := w₂.write [1] a' a'.state x
  let w₄ : World := w₃.write [2] b' b'.state y
  have h₁ : Reachable w₁ := Reachable.start.step (.create rfl rfl)
  have h₂ : Reachable w₂ := h₁.step (.create rfl rfl)
  have h₃ : Reachable w₃ := h₂.step (.set (r := a) rfl rfl)
  have h₄ : Reachable w₄ := h₃.step (.set (r := b) rfl rfl)
  have hd : (a'.state, insert x.dot x.past) ∈ w₄.deltas := by simp [w₄, w₃, World.write]
  have hok : (b'.applyDelta a'.state).2 = .ok () := by decide +kernel
  have hb : w₄.registers [2] = some (b', insert y.dot y.past) := rfl
  have h₅ := h₄.step (.apply hb hd (Prod.ext rfl hok))
  obtain ⟨-, hregs, -⟩ := mv_register_shows_maximal_writes h₅
  obtain ⟨-, -, hvis, -⟩ := hregs [2] _ _ rfl
  refine ⟨_, _, _, h₅, rfl, (hvis _ _).mpr ?_, (hvis _ _).mpr ?_⟩
  · exact ⟨x, mem_cons_self .., rfl, rfl, by decide, by decide⟩
  · exact ⟨y, mem_cons_of_mem _ (mem_cons_self ..), rfl, rfl, by decide, by decide⟩

end Crdt.Register
