import Crdt.Counter.Group

/-! Counters converge.

The value of a counter is the sum of the amounts that it has received, whatever way they came, and a G-Counter
says that it overflows exactly if the sum does. Two counters that have received the same amounts have the same
components. They need not have the same map: adding zero to a component that is zero stores it, and no join
does (`zero_is_stored`). In a run without such additions the maps are equal, and so are the frames and whatever
is computed from them (`counters_converge`). -/
namespace Crdt.Counter

open Wire MapLoop GCounter List

section Sums

theorem GCounter.sumChecked_eq (values : List UInt64) (total : UInt64) :
    sumChecked values total = if total.toNat + (values.map (·.toNat)).sum < 2 ^ 64 then
      .ok (.ofNat (total.toNat + (values.map (·.toNat)).sum)) else .error .counterOverflow := by
  induction values generalizing total with
  | nil =>
    rw [sumChecked, map_nil, sum_nil, Nat.add_zero, if_pos total.toNat_lt, UInt64.ofNat_toNat]
  | cons value rest ih =>
    have hlt := total.toNat_lt
    rw [sumChecked, headroom, map_cons, sum_cons]
    split_ifs with hover hsum hsum
    · omega
    · rfl
    · have hadd : (total + value).toNat = total.toNat + value.toNat := by
        rw [UInt64.toNat_add, Nat.mod_eq_of_lt (by omega)]
      rw [ih, hadd, if_pos (by omega), Nat.add_assoc]
    have hadd : (total + value).toNat = total.toNat + value.toNat := by
      rw [UInt64.toNat_add, Nat.mod_eq_of_lt (by omega)]
    rw [ih, if_neg (by omega)]

theorem PNCounter.sumCounts_eq (order : List (ReplicaID × UInt64)) :
    PNCounter.sumCounts order = ((order.map fun p => p.2.toNat).sum : ℕ) := by
  have hfold : ∀ (l : List (ReplicaID × UInt64)) (total : Int),
      l.foldl (fun total p => total + (p.2.toNat : Int)) total = total + ((l.map fun p => p.2.toNat).sum : ℕ) := by
    intro l
    induction l with
    | nil => simp
    | cons p l ih =>
      intro total
      rw [foldl_cons, ih, map_cons, sum_cons]
      push_cast
      ring
  rw [PNCounter.sumCounts, hfold, Int.zero_add]

theorem sum_map_eq_of_subset {l l' : List ReplicaID} (hl : l.Nodup) (hl' : l'.Nodup) (hsub : ∀ a ∈ l, a ∈ l')
    {f : ReplicaID → ℕ} (hzero : ∀ a, a ∉ l → f a = 0) : (l.map f).sum = (l'.map f).sum := by
  rw [← sum_toFinset f hl, ← sum_toFinset f hl']
  refine Finset.sum_subset (fun a ha => ?_) fun a _ ha => hzero a ?_
  · exact mem_toFinset.mpr (hsub a (mem_toFinset.mp ha))
  · exact fun hm => ha (mem_toFinset.mpr hm)

end Sums

namespace Group
variable {k : Kind} {g : Group k} {id id' : ReplicaID} {c c' : k.State}

/-- The sum of the amounts that a replica has received. -/
def received (g : Group k) (id : ReplicaID) (half : k.Half) : ℕ :=
  (g.counters.toList.map fun p => Cumulative.total (g.log (half, p.1)) (g.seen id (half, p.1))).sum

theorem Inv.sum_counts (h : g.Inv) (hc : g.counters[id]? = some c) (half : k.Half) {order : List (ReplicaID × UInt64)}
    (ho : order.Perm (k.counts c half).toList) : (order.map fun p => p.2.toNat).sum = g.received id half := by
  have hsees := (h.holds hc).sees
  have hcounts : ∀ p ∈ (k.counts c half).toList, p.2.toNat = values (k.counts c) (half, p.1) := by
    intro p hp
    rw [values, count, mem_toList.mp hp]
    rfl
  have hnodup : ∀ {V : Type} (m : ByteMap V), (m.toList.map (·.1)).Nodup :=
    fun m => pairwise_map.mpr (nodup_keys_toList m)
  rw [(ho.map _).sum_eq, map_congr_left hcounts, received]
  simp only [← hsees.eq]
  have hkeys : ∀ {V : Type} (m : ByteMap V), (m.toList.map fun p => values (k.counts c) (half, p.1)) =
      (m.toList.map (·.1)).map fun a => values (k.counts c) (half, a) := fun m => by rw [map_map]; rfl
  rw [hkeys, hkeys]
  refine sum_map_eq_of_subset (hnodup _) (hnodup _) (fun a ha => ?_) fun a ha => ?_
  · obtain ⟨p, hp, rfl⟩ := mem_map.mp ha
    obtain ⟨d, hd⟩ := mem_iff.mp ((h.holds hc).known half p.1 (mem_iff.mpr ⟨p.2, mem_toList.mp hp⟩))
    exact mem_map.mpr ⟨(p.1, d), mem_toList.mpr hd, rfl⟩
  have hnot : a ∉ k.counts c half := by
    intro hm
    obtain ⟨v, hv⟩ := mem_iff.mp hm
    exact ha (mem_map.mpr ⟨(a, v), mem_toList.mpr hv, rfl⟩)
  rw [values, count_eq_zero hnot]
  rfl

end Group

/-- An addition after which the replica's own component is not zero. -/
def Kind.Raises (k : Kind) (c : k.State) (amount : UInt64) (half : k.Half) : Prop :=
  amount ≠ 0 ∨ count (k.counts c half) (k.replicaID c) ≠ 0

namespace Group
variable {k : Kind} {g : Group k} {id id' : ReplicaID} {c c' : k.State} {e : Env}

variable (hk : k.Lawful) (h : g.Reachable e k.Raises) (hc : g.counters[id]? = some c)
include hk h hc

theorem Reachable.positive : ∀ half, Positive (k.counts c half) := by
  induction h generalizing id c with
  | start => simp at hc
  | create _ _ hnew ih =>
    rw [get?_insert] at hc
    split_ifs at hc
    · cases hc
      obtain ⟨-, -, hempty⟩ := hk.new hnew
      intro half id' v hv
      simp [hempty] at hv
    · exact ih hc
  | add _ hold hraises hadd ih =>
    simp only [Group.add, get?_insert] at hc
    split_ifs at hc
    · cases hc
      obtain ⟨-, next, hnext, hcounts, -⟩ := hk.add hadd
      have hne : next ≠ 0 := by
        intro hzero
        have hsum := toNat_addCount hnext
        rw [hzero] at hsum
        have hzeros := Nat.add_eq_zero_iff.mp hsum.symm
        cases hraises with
        | inl hamount => exact hamount (UInt64.toNat_inj.mp hzeros.2)
        | inr hcount => exact hcount (UInt64.toNat_inj.mp hzeros.1)
      intro half
      rw [hcounts]
      split_ifs with hhalf
      · exact (ih hold _).insert hne
      · exact ih hold half
    · exact ih hc
  | add_error _ hold _ hadd ih =>
    rw [get?_insert] at hc
    split_ifs at hc
    · cases hc
      exact hk.add_error hadd ▸ ih hold
    · exact ih hc
  | combine _ _ _ _ ih => exact ih hc
  | share _ _ ih => exact ih hc
  | travel _ _ _ ih => exact ih hc
  | receive _ _ hold hr ih =>
    simp only [Group.receive, get?_insert] at hc
    split_ifs at hc
    · cases hc
      intro half
      rw [(hk.receive hr).2]
      exact (ih hold half).join
    · exact ih hc
  | receive_error _ _ hold hr ih =>
    rw [get?_insert] at hc
    split_ifs at hc
    · cases hc
      exact hk.receive_error hr ▸ ih hold
    · exact ih hc

theorem Reachable.counts_eq
    (hc' : g.counters[id']? = some c') (hseen : g.seen id = g.seen id') : k.counts c = k.counts c' := by
  have hinv := h.inv hk
  have hsees' := (hinv.holds hc').sees
  rw [← hseen] at hsees'
  have hvalues := (hinv.holds hc).sees.value_eq hsees'
  funext half
  refine (h.positive hk hc half).ext (h.positive hk hc' half) fun id'' => ?_
  exact UInt64.toNat_inj.mp (congrFun hvalues (half, id''))

end Group

/-- Values, in any run; maps and frames, in a run in which every addition leaves the replica's own component
above zero. -/
theorem counters_converge (e : Env) :
    (∀ g : Group gCounter, g.Reachable e (fun _ _ _ => True) → ∀ (id : ReplicaID) (c : GCounter),
      g.counters[id]? = some c → ∀ order : List (ReplicaID × UInt64), order.Perm c.counts.toList →
        value order = if g.received id () < 2 ^ 64 then .ok (.ofNat (g.received id ()))
          else .error .counterOverflow) ∧
    (∀ g : Group pnCounter, g.Reachable e (fun _ _ _ => True) → ∀ (id : ReplicaID) (c : PNCounter),
      g.counters[id]? = some c → ∀ positive negative : List (ReplicaID × UInt64),
        positive.Perm c.positive.toList → negative.Perm c.negative.toList →
          PNCounter.value positive negative = (g.received id true : Int) - g.received id false) ∧
    (∀ g : Group gCounter, g.Reachable e gCounter.Raises → ∀ (id id' : ReplicaID) (c c' : GCounter),
      g.counters[id]? = some c → g.counters[id']? = some c' → g.seen id = g.seen id' →
        c.counts = c'.counts ∧ c.marshalBinary e = c'.marshalBinary e ∧
          ∀ digest : List UInt8 → List UInt8, digest <$> c.marshalBinary e = digest <$> c'.marshalBinary e) ∧
    (∀ g : Group pnCounter, g.Reachable e pnCounter.Raises → ∀ (id id' : ReplicaID) (c c' : PNCounter),
      g.counters[id]? = some c → g.counters[id']? = some c' → g.seen id = g.seen id' →
        (c.positive = c'.positive ∧ c.negative = c'.negative) ∧ c.marshalBinary e = c'.marshalBinary e ∧
          ∀ digest : List UInt8 → List UInt8, digest <$> c.marshalBinary e = digest <$> c'.marshalBinary e) := by
  refine ⟨?_, ?_, ?_, ?_⟩
  · intro g h id c hc order ho
    have hsum := (h.inv gCounter_lawful).sum_counts hc () ho
    rw [value, sumChecked_eq, map_map]
    simp only [UInt64.toNat_zero, Nat.zero_add]
    exact hsum ▸ rfl
  · intro g h id c hc positive negative hp hn
    have hinv := h.inv pnCounter_lawful
    rw [PNCounter.value, PNCounter.sumCounts_eq, PNCounter.sumCounts_eq, hinv.sum_counts hc true hp,
      hinv.sum_counts hc false hn]
  · intro g h id id' c c' hc hc' hseen
    have hcounts : c.counts = c'.counts := congrFun (h.counts_eq gCounter_lawful hc hc' hseen) ()
    have hframe : c.marshalBinary e = c'.marshalBinary e := by rw [marshalBinary, hcounts, marshalBinary]
    exact ⟨hcounts, hframe, fun digest => by rw [hframe]⟩
  intro g h id id' c c' hc hc' hseen
  have hcounts := h.counts_eq pnCounter_lawful hc hc' hseen
  have hpositive : c.positive = c'.positive := congrFun hcounts true
  have hnegative : c.negative = c'.negative := congrFun hcounts false
  have hframe : c.marshalBinary e = c'.marshalBinary e := by
    rw [PNCounter.marshalBinary, hpositive, hnegative, PNCounter.marshalBinary]
  exact ⟨⟨hpositive, hnegative⟩, hframe, fun digest => by rw [hframe]⟩

theorem exchange_reachable (e : Env) (allowed : GCounter → UInt64 → Unit → Prop) (amount : UInt64) {a b : GCounter}
    {d : GCounterDelta} (hallowed : allowed {replicaID := [65]} amount ())
    (hadd : increment {replicaID := [65]} amount = (a, .ok d))
    (hreceive : gCounter.receive ({replicaID := [66]} : GCounter) (.delta d) = (b, .ok ())) :
    ∃ g : Group gCounter, g.Reachable e allowed ∧ g.counters[([65] : ReplicaID)]? = some a ∧
      g.counters[([66] : ReplicaID)]? = some b ∧ g.seen [65] = g.seen [66] := by
  have hself : ∀ (m : ByteMap GCounter) (id : ReplicaID) (c : GCounter), (m.insert id c)[id]? = some c :=
    fun m id c => (get?_insert m id id c).trans (if_pos rfl)
  have hother : ∀ (m : ByteMap GCounter) {id id' : ReplicaID} (c : GCounter), id ≠ id' → (m.insert id c)[id']? = m[id']? :=
    fun m id id' c hne => (get?_insert m id id' c).trans (if_neg hne)
  have hne : ([66] : ReplicaID) ≠ [65] := by decide
  have h₁ := (Group.Reachable.start : Group.Reachable (k := gCounter) e allowed {}).create
    (not_mem_iff.mpr Std.ExtTreeMap.getElem?_empty : ([65] : ReplicaID) ∉ (∅ : ByteMap GCounter)) rfl
  have h₂ := h₁.create (not_mem_iff.mpr ((hother _ _ hne.symm).trans Std.ExtTreeMap.getElem?_empty)) rfl
  have h₃ := h₂.add ((hother _ _ hne).trans (hself _ _ _)) hallowed hadd
  have h₄ := h₃.receive mem_cons_self ((hother _ _ hne.symm).trans (hself _ _ _)) hreceive
  refine ⟨_, h₄, (hother _ _ hne).trans (hself _ _ _), hself _ _ _, ?_⟩
  funext x
  simp [Group.add, Group.receive]

/-- Three is added and received. -/
theorem counters_converge_three :
    (∃ (g : Group gCounter) (b : GCounter), g.counters[([66] : ReplicaID)]? = some b ∧
      value b.counts.toList = .ok 3 ∧ g.received [66] () = 3) ∧
    ∃ (g : Group gCounter) (a b : GCounter), g.counters[([65] : ReplicaID)]? = some a ∧
      g.counters[([66] : ReplicaID)]? = some b ∧ a.counts = b.counts := by
  constructor
  · obtain ⟨g, hreach, -, hb, -⟩ := exchange_reachable (plainEnv .bits64) (fun _ _ _ => True) 3 trivial rfl rfl
    have hvalue := (counters_converge (plainEnv .bits64)).1 g hreach [66] _ hb _ (.refl _)
    have hthree : value (joinCounts ∅ ((∅ : Counts).insert [65] 3)).toList = .ok 3 := by decide +kernel
    refine ⟨g, _, hb, hthree, ?_⟩
    have hsum := hthree.symm.trans hvalue
    split_ifs at hsum with hlt
    have hreceived := congrArg UInt64.toNat (Except.ok.inj hsum)
    rw [UInt64.toNat_ofNat_of_lt' hlt] at hreceived
    exact hreceived.symm
  obtain ⟨g, hreach, ha, hb, hseen⟩ :=
    exchange_reachable (plainEnv .bits64) gCounter.Raises 3 (.inl (by decide)) rfl rfl
  exact ⟨g, _, _, ha, hb, ((counters_converge (plainEnv .bits64)).2.2.1 g hreach [65] [66] _ _ ha hb hseen).1⟩

/-- Zero is added and received: both counters have received the same, and their maps and frames differ. -/
theorem zero_is_stored : ∃ (g : Group gCounter) (a b : GCounter),
    g.Reachable (plainEnv .bits64) (fun _ _ _ => True) ∧ g.counters[([65] : ReplicaID)]? = some a ∧
      g.counters[([66] : ReplicaID)]? = some b ∧ g.seen [65] = g.seen [66] ∧ a.counts ≠ b.counts ∧
      a.marshalBinary (plainEnv .bits64) ≠ b.marshalBinary (plainEnv .bits64) := by
  obtain ⟨g, hreach, ha, hb, hseen⟩ := exchange_reachable (plainEnv .bits64) (fun _ _ _ => True) 0 trivial rfl rfl
  have hframes : marshalBinary (plainEnv .bits64) ⟨[65], (∅ : Counts).insert [65] 0⟩ ≠
      marshalBinary (plainEnv .bits64) ⟨[66], ∅⟩ := by decide +kernel
  refine ⟨g, _, _, hreach, ha, hb, hseen, fun heq => hframes ?_, hframes⟩
  have heq : (∅ : Counts).insert [65] 0 = ∅ := heq
  rw [marshalBinary, marshalBinary, heq]

end Crdt.Counter
