import Crdt.Register.Causal

/-! The join of the multi-value register, on any valid states.

Of a dot, a state knows nothing, its value, or that it was overwritten: the context covers the dot
and the values lack it. A join takes the most that either side knows, so on valid states that agree
on the values of their dots it is the join of a semilattice. A delta whose context is covered is not
joined at all, which makes a difference exactly if it overwrites a value of the receiver. -/
namespace Crdt.Register

open MapLoop

variable {s t u : MVRegisterDelta} {d : MVDot}

/-- `joinMVState` of two states. -/
def MVRegisterDelta.join (s t : MVRegisterDelta) : Except Err MVRegisterDelta :=
  (joinMVState s.context s.values t.context t.values).map fun p => ⟨p.1, p.2⟩

/-- Equal dots carry equal bytes. -/
def Agree (s t : MVRegisterDelta) : Prop :=
  ∀ (d : MVDot) (v w : List UInt8), s.values[d]? = some v → t.values[d]? = some w → v = w

/-- What a join of states that agree gives. -/
def joined (s t : MVRegisterDelta) : MVRegisterDelta where
  context := t.context.toList.foldl joinContext s.context
  values := t.values.toList.foldl (joinRight s.context s.values)
    (s.values.toList.foldl (keepLeft t.context t.values) ∅)

theorem Agree.symm (h : Agree s t) : Agree t s := fun d v w hv hw => (h d w v hw hv).symm

theorem Agree.join (h : Agree s t) : s.join t = .ok (joined s t) := by
  rw [MVRegisterDelta.join, joinMVState, joinLeft_total fun p hp v hv => h p.1 p.2 v (mem_toList.mp hp) hv]
  rfl

theorem counter_joined (i : List UInt8) :
    (joined s t).context.counter i = max (s.context.counter i) (t.context.counter i) := counter_joinContext ..

theorem covers_joined (d : MVDot) : mvContextCovers (joined s t).context d =
    (mvContextCovers s.context d || mvContextCovers t.context d) := by
  rw [Bool.eq_iff_iff, Bool.or_eq_true, covers_iff, covers_iff, covers_iff, counter_joined, le_max_iff]

theorem getElem?_values_joined (d : MVDot) : (joined s t).values[d]? = match s.values[d]?, t.values[d]? with
    | some v, some _ => some v
    | some v, none => if mvContextCovers t.context d then none else some v
    | none, some v => if mvContextCovers s.context d then none else some v
    | none, none => none := getElem?_joined s t d

theorem joined_cases {v : List UInt8} (h : (joined s t).values[d]? = some v) :
    s.values[d]? = some v ∨ t.values[d]? = some v := by
  rw [getElem?_values_joined] at h
  cases hs : s.values[d]? with
  | some w => cases ht : t.values[d]? <;> simp_all
  | none => cases ht : t.values[d]? <;> simp_all

theorem Agree.joined_left (hsu : Agree s u) (htu : Agree t u) : Agree (joined s t) u := fun d v w hv hw =>
  (joined_cases hv).elim (fun hv => hsu d v w hv hw) fun hv => htu d v w hv hw

theorem Valid.join (hs : Valid s) (ht : Valid t) : Valid (joined s t) := by
  constructor
  · intro i c hc
    exact (joinContext_cases hc).elim (hs.context i c) (ht.context i c)
  intro d v hv
  rw [covers_joined, Bool.or_eq_true]
  rcases joined_cases hv with hv | hv
  · exact (hs.values d v hv).imp id .inl
  · exact (ht.values d v hv).imp id .inr

theorem Valid.ext (hs : Valid s) (ht : Valid t) (hc : ∀ i, s.context.counter i = t.context.counter i)
    (hv : ∀ d : MVDot, s.values[d]? = t.values[d]?) : s = t := by
  have hcontext : s.context = t.context :=
    ext_getD (fun i c hi => (hs.context i c hi).2) (fun i c hi => (ht.context i c hi).2) hc
  cases s
  cases t
  cases hcontext
  cases Std.ExtTreeMap.ext_getElem? hv
  rfl

theorem Agree.joined_comm (h : Agree s t) (hs : Valid s) (ht : Valid t) : joined s t = joined t s := by
  refine (hs.join ht).ext (ht.join hs) (fun i => ?_) fun d => ?_
  · rw [counter_joined, counter_joined, max_comm]
  rw [getElem?_values_joined, getElem?_values_joined]
  cases hv : s.values[d]? with
  | none => cases t.values[d]? <;> rfl
  | some v =>
    cases hw : t.values[d]? with
    | none => rfl
    | some w => rw [h d v w hv hw]

theorem Valid.joined_self (hs : Valid s) : joined s s = s := by
  refine (hs.join hs).ext hs (fun i => ?_) fun d => ?_
  · rw [counter_joined, max_self]
  · rw [getElem?_values_joined]
    cases s.values[d]? <;> rfl

theorem Valid.joined_assoc (hs : Valid s) (ht : Valid t) (hu : Valid u) :
    joined (joined s t) u = joined s (joined t u) := by
  refine ((hs.join ht).join hu).ext (hs.join (ht.join hu)) (fun i => ?_) fun d => ?_
  · simp only [counter_joined, max_assoc]
  simp only [getElem?_values_joined, covers_joined]
  generalize mvContextCovers s.context d = a, mvContextCovers t.context d = b, mvContextCovers u.context d = c
  cases s.values[d]? <;> cases t.values[d]? <;> cases u.values[d]? <;> cases a <;> cases b <;> cases c <;> rfl

theorem join_of_subsumes {r : MVRegister} (ht : Valid t) (h : r.subsumes t.context t.values = .ok true) :
    r.state.join t = .ok r.state ↔ ∀ d ∈ r.values, mvContextCovers t.context d = true → d ∈ t.values := by
  unfold MVRegister.subsumes at h
  split_ifs at h with hconflict
  have hle := counter_le_of_all (Except.ok.inj h)
  have hagree : Agree r.state t := any_toList_ne.mp (eq_false_of_ne_true hconflict)
  have hcontext : (joined r.state t).context = r.state.context := by
    refine Std.ExtTreeMap.ext_getElem? fun i => ?_
    rw [joined, getElem?_joinContext]
    cases hi : t.context[i]? with
    | none => rfl
    | some c =>
      have := hle i
      rw [Context.counter, hi] at this
      exact if_neg (not_lt.mpr this)
  rw [hagree.join, Except.ok.injEq, MVRegisterDelta.mk.injEq, and_iff_right hcontext, Std.ExtTreeMap.ext_getElem?_iff]
  refine forall_congr' fun d => ?_
  rw [getElem?_values_joined, mem_iff, mem_iff]
  cases hv : r.values[d]? with
  | some v => cases t.values[d]? <;> simp [MVRegister.state, hv]
  | none =>
    cases hw : t.values[d]? with
    | none => simp [MVRegister.state, hv]
    | some w =>
      -- the receiver covers what the delta covers, so it has overwritten the value already
      have : mvContextCovers r.context d = true :=
        covers_iff.mpr ((covers_iff.mp (ht.values d w hw).2).trans (hle _))
      simp [MVRegister.state, hv, this]

/-- Joins of valid states that agree form a semilattice, and a delta that is not joined because it is
covered would have changed nothing exactly if it overwrites no value of the receiver. -/
theorem join_is_semilattice (r : MVRegister) (s t u : MVRegisterDelta) (hs : Valid s) (ht : Valid t)
    (hu : Valid u) : (Agree s t → ∃ j, s.join t = .ok j ∧ t.join s = .ok j ∧ Valid j) ∧ s.join s = .ok s ∧
    (Agree s t → Agree t u → Agree s u →
      ∃ st tu stu, s.join t = .ok st ∧ t.join u = .ok tu ∧ st.join u = .ok stu ∧ s.join tu = .ok stu) ∧
    (r.subsumes t.context t.values = .ok true → r.applyDelta t = (r, .ok ()) ∧
      (r.state.join t = .ok r.state ↔
        ∀ d ∈ r.values, mvContextCovers t.context d = true → d ∈ t.values)) := by
  refine ⟨fun h => ?_, ?_, fun hst htu hsu => ?_, fun hsub => ?_⟩
  · refine ⟨_, h.join, ?_, hs.join ht⟩
    rw [h.joined_comm hs ht]
    exact h.symm.join
  · have hself : Agree s s := fun d v w hv hw => Option.some.inj (hv.symm.trans hw)
    rw [hself.join, hs.joined_self]
  · refine ⟨_, _, _, hst.join, htu.join, (hsu.joined_left htu).join, ?_⟩
    rw [hs.joined_assoc ht hu]
    exact (hst.symm.joined_left hsu.symm).symm.join
  refine ⟨?_, join_of_subsumes ht hsub⟩
  unfold MVRegister.applyDelta
  rw [validateMVState_iff.mpr ht, hsub]

/-- A register of replica "a" that has written once. -/
def written : MVRegister := ((⟨[97], ∅, ∅⟩ : MVRegister).set [120]).1

theorem agree_of_all {s t : MVRegisterDelta}
    (h : (s.values.toList.all fun p => (t.values[p.1]?).all (· = p.2)) = true) : Agree s t := by
  intro d v w hv hw
  have hone := List.all_eq_true.mp h (d, v) (mem_toList.mpr hv)
  rw [hw] at hone
  exact (of_decide_eq_true hone).symm

/-- A concurrent write of replica "b", and its next one. A state that is covered is not joined. -/
theorem join_is_semilattice_three : let other := ((⟨[98], ∅, ∅⟩ : MVRegister).set [121]).1
    let later := (other.set [122]).1
    (∃ st tu stu, written.state.join other.state = .ok st ∧ other.state.join later.state = .ok tu ∧
      st.join later.state = .ok stu ∧ written.state.join tu = .ok stu ∧
      stu.values.toList = [(⟨[97], 1⟩, [120]), (⟨[98], 2⟩, [122])]) ∧
    later.applyDelta other.state = (later, .ok ()) := by
  intro other later
  have h₁ : Valid written.state := validateMVState_iff.mp (by decide +kernel)
  have h₂ : Valid other.state := validateMVState_iff.mp (by decide +kernel)
  have h₃ : Valid later.state := validateMVState_iff.mp (by decide +kernel)
  obtain ⟨st, tu, stu, hst, htu, hstu, hassoc⟩ := (join_is_semilattice written _ _ _ h₁ h₂ h₃).2.2.1
    (agree_of_all (by decide +kernel)) (agree_of_all (by decide +kernel)) (agree_of_all (by decide +kernel))
  have hvalues : (written.state.join other.state >>= (·.join later.state)).toOption.map (·.values.toList) =
      some [(⟨[97], 1⟩, [120]), (⟨[98], 2⟩, [122])] := by decide +kernel
  rw [hst] at hvalues
  rw [show (Except.ok st >>= (·.join later.state)) = st.join later.state from rfl, hstu] at hvalues
  refine ⟨⟨st, tu, stu, hst, htu, hstu, hassoc, Option.some.inj hvalues⟩, ?_⟩
  exact ((join_is_semilattice later _ _ _ h₂ h₂ h₂).2.2.2 (by decide +kernel)).1

/-- A delta that says only that the write was overwritten: it is valid and covered, so the value stays;
joined, as by `Merge`, it takes the value away. -/
theorem covered_delta_overwrites : let delta : MVRegisterDelta := ⟨(∅ : Context).insert [97] 1, ∅⟩
    validateMVState delta.context delta.values = .ok () ∧
      written.subsumes delta.context delta.values = .ok true ∧
      (written.applyDelta delta).1.visible = [(⟨[97], 1⟩, [120])] ∧
      (written.state.join delta).toOption.map (·.values.toList) = some [] ∧
      (written.merge ⟨[98], delta.context, delta.values⟩).1.visible = [] := by
  decide +kernel

end Crdt.Register
