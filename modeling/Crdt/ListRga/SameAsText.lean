import Crdt.ListRga.Apply
import Crdt.Text.Converge

/-! The text and the list are one algorithm.

`InStep enc t l`: a text and a list were new and got the same deltas, with payloads that
`enc` translates, and no call was rejected for a limit or by the clock. Either package
may refuse a delta, for a cycle or a conflict; then the other refuses it too, and at any
time both have integrated, keep pending and show the same positions
(`text_and_list_agree`). -/
namespace Crdt.ListRga

open Rga Option

/-- The delta with encoded payloads. -/
def encode (codecID : List UInt8) (enc : Text.Rune → List UInt8) (d : Text.Delta) : Delta where
  codecID := codecID
  nodes := d.nodes.map fun _ => Node.map enc
  tombstones := d.tombstones

variable {T : Type} {enc : Text.Rune → List UInt8} {t t' : Text.RGA} {l l' : RGA T} {d : Text.Delta}

/-- The payloads of a delta are runes, and their codings pass the list's check on values. -/
def Coded (enc : Text.Rune → List UInt8) (l : RGA T) (d : Text.Delta) : Prop :=
  ∀ (x : Position) item, d.nodes[x]? = some item → Text.validRune item.value = true ∧
    validateValue l.codec l.options (enc item.value) = .ok ()

inductive InStep (enc : Text.Rune → List UInt8) : Text.RGA → RGA T → Prop
  | new {state state' : Clock.State} {options : Text.Options} {options' : Options}
      {codec : ElementCodec T} {t : Text.RGA} {l : RGA T} :
      Text.newFromClockWithOptions state options = some (.ok t) →
      newFromClockWithOptions state' codec options' = some (.ok l) → InStep enc t l
  | apply {t t' : Text.RGA} {l l' : RGA T} {d : Text.Delta} {millis millis' : Int64}
      {res : Except Text.Err Unit} {res' : Except Err Unit} : InStep enc t l → Coded enc l d →
      t.applyDelta d millis = some (t', res) → ¬ Text.Rejected res →
      l.applyDelta (encode l.codecID enc d) millis' = some (l', res') → ¬ Rejected res' →
      InStep enc t' l'

/-- The two have the same history, as far as it is kept. -/
structure Same (enc : Text.Rune → List UInt8) (t : Text.RGA) (l : RGA T) : Prop where
  textInv : t.Inv ∧ t.Settled ∧ t.Acyclic
  listInv : l.Inv ∧ l.Settled ∧ l.Acyclic
  codecID : blank l.codecID = false
  runes : ∀ x item, t.known x = some item → Text.validRune item.value = true
  known : ∀ x, l.known x = (t.known x).map (Node.map enc)
  tombstones : l.tombstones = t.tombstones

theorem getElem?_encode (codecID : List UInt8) (d : Text.Delta) (x : Position) :
    (encode codecID enc d).nodes[x]? = d.nodes[x]?.map (Node.map enc) := Std.ExtTreeMap.getElem?_map ..

theorem encode_valid (h : Coded enc l d) (hc : blank l.codecID = false) :
    (encode l.codecID enc d).Valid ↔ d.Valid := by
  constructor
  · refine fun hv => ⟨⟨fun x item hx => ?_⟩, hv.tombstones⟩
    have := hv.nodes.valid x (item.map enc) (by rw [getElem?_encode, hx]; rfl)
    exact ⟨this.1, (h x item hx).1, this.2⟩
  refine fun hv => ⟨hc, ⟨fun x item' hx => ?_⟩, hv.tombstones⟩
  rw [getElem?_encode] at hx
  obtain ⟨item, hitem, rfl⟩ := map_eq_some_iff.mp hx
  have := hv.nodes.valid x item hitem
  exact ⟨this.1, this.2.2⟩

section
variable (h : Same enc t l) (henc : Set.InjOn enc {v | Text.validRune v = true}) (hd : Coded enc l d)
include h henc hd

theorem Same.accepts : Accepts l.toReplica (encode l.codecID enc d).nodes ↔ Accepts t.toReplica d.nodes := by
  have hparent : joinParent l.toReplica (encode l.codecID enc d).nodes =
      joinParent t.toReplica d.nodes := by
    funext x
    rw [joinParent, joinParent, h.known, getElem?_encode]
    cases t.known x <;> cases d.nodes[x]? <;> rfl
  have hagree : Agrees l.toReplica (encode l.codecID enc d).nodes ↔ Agrees t.toReplica d.nodes := by
    constructor
    · intro ha x item hx
      have := ha x (item.map enc) (by rw [getElem?_encode, hx]; rfl)
      rw [h.known] at this
      refine this.imp map_eq_none_iff.mp fun hk => ?_
      obtain ⟨it, hit, heq⟩ := map_eq_some_iff.mp hk
      have hvalue := henc (h.runes x it hit) (hd x item hx).1 (congrArg Node.value heq)
      rw [hit, show it = item from by
        cases it
        cases item
        exact congr (congrArg Node.mk (congrArg Node.parent heq)) hvalue]
    intro ha x item' hx
    rw [getElem?_encode] at hx
    obtain ⟨item, hitem, rfl⟩ := map_eq_some_iff.mp hx
    rw [h.known]
    exact (ha x item hitem).imp (fun hk => by rw [hk]; rfl) fun hk => by rw [hk]; rfl
  constructor
  · exact fun ha => ⟨hagree.mp ha.agrees, hparent ▸ ha.acyclic⟩
  · exact fun ha => ⟨hagree.mpr ha.agrees, hparent ▸ ha.acyclic⟩

/-- One step: both calls return, with the same answer, and the histories stay the same. -/
theorem Same.apply (millis millis' : Int64) : ∃ t' res l' res', t.applyDelta d millis = some (t', res) ∧
      l.applyDelta (encode l.codecID enc d) millis' = some (l', res') ∧
      (¬ Text.Rejected res → ¬ Rejected res' → (res = .ok () ↔ res' = .ok ()) ∧ Same enc t' l') := by
  obtain ⟨hinv, hs, hac⟩ := h.textInv
  obtain ⟨hinv', hs', hac'⟩ := h.listInv
  obtain ⟨t', res, happ, hres⟩ := Text.applyDelta_spec hinv hs d millis
  obtain ⟨l', res', happ', hres'⟩ := applyDelta_spec hinv' hs' hac' (encode l.codecID enc d) millis'
  obtain ⟨hacc, hrej⟩ := Text.applyDelta_accepts hinv hac happ
  refine ⟨t', res, l', res', happ, happ', fun hnr hnr' => ?_⟩
  have hvalues : l.validateValues (encode l.codecID enc d) = .ok () :=
    validateValues_eq_ok.mpr fun x item' hx => by
      rw [getElem?_encode] at hx
      obtain ⟨item, hitem, rfl⟩ := map_eq_some_iff.mp hx
      exact (hd x item hitem).2
  have hsame : res = .ok () ↔ res' = .ok () := by
    constructor
    · intro hok
      rcases hres with ⟨_, ha⟩ | ⟨⟨err, herr⟩, _⟩
      · rcases hres' with ⟨hok', _⟩ | ⟨_, _, hno⟩
        · exact hok'
        · exact (hnr' (hno ((h.accepts henc hd).mpr (hacc hok)) ((encode_valid hd h.codecID).mpr ha.valid)
            rfl hvalues)).elim
      · simp [herr] at hok
    intro hok'
    rcases hres' with ⟨_, _, _, ha, hv⟩ | ⟨⟨err, herr⟩, _⟩
    · exact (hrej ((encode_valid hd h.codecID).mp hv) ((h.accepts henc hd).mp ha)).resolve_right hnr
    · simp [herr] at hok'
  refine ⟨hsame, ?_⟩
  rcases hres with ⟨hok, ha⟩ | ⟨⟨err, herr⟩, rfl⟩ <;>
    rcases hres' with ⟨hok', hj', hk', ha', _⟩ | ⟨⟨err', herr'⟩, rfl, _⟩
  · refine ⟨⟨ha.joins.inv, ha.joins.settled, (hacc hok).joins ha.joins⟩,
      ⟨hj'.inv, hj'.settled, ha'.joins hj'⟩, hk'.codecID ▸ h.codecID, fun x item hx => ?_, fun x => ?_,
      Std.ExtTreeSet.ext_mem fun x => ?_⟩
    · rcases (ha.joins.known_iff ha.agrees).mp hx with hx | hx
      · exact h.runes x item hx
      · exact (hd x item hx).1
    · rw [hj'.known, ha.joins.known, h.known, getElem?_encode]
      cases t.known x <;> cases d.nodes[x]? <;> rfl
    · rw [hj'.tombstones, ha.joins.tombstones, h.tombstones]
      rfl
  · simp [herr', hok] at hsame
  · simp [herr, hok'] at hsame
  · exact h

end

theorem same_new {state state' : Clock.State} {options : Text.Options} {options' : Options}
    {codec : ElementCodec T} (ht : Text.newFromClockWithOptions state options = some (.ok t))
    (hl : newFromClockWithOptions state' codec options' = some (.ok l)) : Same enc t l := by
  have hh := Text.newFromClockWithOptions_spec ht
  obtain ⟨hinv, hs, hk, htomb, hid⟩ := newFromClockWithOptions_spec hl
  have hk' : ∀ x, t.known x = none := fun x => eq_none_iff_forall_ne_some.mpr fun item hx => by
    simpa using (hh.known x item).mp hx
  refine ⟨⟨hh.inv, hh.settled, fun x => .out ?_⟩, ⟨hinv, hs, fun x => .out ?_⟩, hid, fun x item hx => ?_,
    fun x => ?_, ?_⟩
  · simp [Replica.parent, hk']
  · simp [Replica.parent, hk]
  · simp [hk'] at hx
  · simp [hk, hk']
  · rw [htomb]
    exact Std.ExtTreeSet.ext_mem fun x => by simp [hh.tombstones]

theorem InStep.same (henc : Set.InjOn enc {v | Text.validRune v = true}) (h : InStep enc t l) :
    Same enc t l := by
  induction h with
  | new ht hl => exact same_new ht hl
  | @apply _ _ _ _ _ millis millis' _ _ _ hd happ hnr happ' hnr' ih =>
    obtain ⟨t', res, l', res', heq, heq', hstep⟩ := ih.apply henc hd millis millis'
    rw [happ] at heq
    rw [happ'] at heq'
    cases heq
    cases heq'
    exact (hstep hnr hnr').2

/-- Text and list RGA are one algorithm. After every step of a run, the two replicas have
the same integrated nodes, the same pending nodes, the same tombstones and the same
positions; and every further delta is applied by both or refused by both. -/
theorem text_and_list_agree (henc : Set.InjOn enc {v | Text.validRune v = true}) (h : InStep enc t l) :
    l.nodes = t.nodes.map (fun _ => Node.map enc) ∧
      l.pending = t.pending.map (fun _ => Node.map enc) ∧ l.tombstones = t.tombstones ∧
      (∃ ps, t.positions = some ps ∧ l.positions = some ps) ∧
      ∀ (d : Text.Delta) (millis millis' : Int64), Coded enc l d →
        ∃ t' res l' res', t.applyDelta d millis = some (t', res) ∧
          l.applyDelta (encode l.codecID enc d) millis' = some (l', res') ∧
          (¬ Text.Rejected res → ¬ Rejected res' → (res = .ok () ↔ res' = .ok ()) ∧ InStep enc t' l') := by
  have hs := h.same henc
  obtain ⟨hn, hp⟩ := map_of_known enc hs.textInv.1 hs.textInv.2.1 hs.listInv.1 hs.listInv.2.1 hs.known
  refine ⟨hn, hp, hs.tombstones, ⟨_, visiblePositions_spec hs.textInv.1, ?_⟩, fun d millis millis' hd => ?_⟩
  · rw [RGA.positions, visiblePositions_spec hs.listInv.1, hn, hs.tombstones, projection_map]
  obtain ⟨t', res, l', res', happ, happ', hstep⟩ := hs.apply henc hd millis millis'
  exact ⟨t', res, l', res', happ, happ', fun hnr hnr' =>
    ⟨(hstep hnr hnr').1, h.apply hd happ hnr happ' hnr'⟩⟩

/-! ### A run -/

/-- A successful step of both. -/
def applyBoth (enc : Text.Rune → List UInt8) (millis : Int64) (p : Text.RGA × RGA T)
    (d : Text.Delta) : Option (Text.RGA × RGA T) :=
  if (d.nodes.toList.all fun (_, item) => Text.validRune item.value &&
      decide (validateValue p.2.codec p.2.options (enc item.value) = .ok ())) then
    match p.1.applyDelta d millis, p.2.applyDelta (encode p.2.codecID enc d) millis with
    | some (t, .ok ()), some (l, .ok ()) => some (t, l)
    | _, _ => none
  else none

theorem InStep.applyBoth {millis : Int64} {p : Text.RGA × RGA T} (h : InStep enc t l)
    (happ : ListRga.applyBoth enc millis (t, l) d = some p) : InStep enc p.1 p.2 := by
  unfold ListRga.applyBoth at happ
  split_ifs at happ with hcoded
  simp only [MapLoop.all_toList, Bool.and_eq_true, decide_eq_true_eq] at hcoded
  split at happ
  · rename_i t' l' ht hl
    cases happ
    refine h.apply hcoded ht (fun hr => ?_) hl fun hr => ?_
    · simp [Text.Rejected] at hr
    · simp [Rejected] at hr
  · simp at happ

/-- A rune in three bytes. -/
def threeBytes (v : Text.Rune) : List UInt8 :=
  [UInt8.ofNat (v.toNat / 65536), UInt8.ofNat (v.toNat / 256), UInt8.ofNat v.toNat]

theorem threeBytes_injOn : Set.InjOn threeBytes {v | Text.validRune v = true} := by
  intro (v : Int) hv (w : Int) hw h
  have hv' : (0 ≤ v ∧ v < 0xD800) ∨ (0xDFFF < v ∧ v ≤ 0x10FFFF) := of_decide_eq_true hv
  have hw' : (0 ≤ w ∧ w < 0xD800) ∨ (0xDFFF < w ∧ w ≤ 0x10FFFF) := of_decide_eq_true hw
  simp only [threeBytes, List.cons.injEq, and_true] at h
  have h₁ := congrArg UInt8.toNat h.1
  have h₂ := congrArg UInt8.toNat h.2.1
  have h₃ := congrArg UInt8.toNat h.2.2
  simp only [UInt8.toNat_ofNat'] at h₁ h₂ h₃
  change v = w
  omega

/-- Byte strings as they are. -/
def rawCodec : ElementCodec (List UInt8) := ⟨[114, 97, 119], some, some⟩

/-- A node, then a chain of sixteen it was waiting for: the text splices it as one run. -/
def chainRun : Option (Text.RGA × RGA (List UInt8)) :=
  let tag (n : Nat) : Tag := ⟨[1], UInt64.ofNat n, 0⟩
  let chain := (List.range 16).foldl (fun (nodes : TagMap (Node Text.Rune)) n =>
    nodes.insert (tag (n + 1)) ⟨if n = 0 then .zero else tag n, 97⟩) ∅
  match Text.newWithOptions [7] Text.defaultOptions,
    newFromClockWithOptions ⟨[8], 0, 0⟩ rawCodec defaultOptions with
  | some (.ok t), some (.ok l) => do
    let p ← applyBoth threeBytes 0 (t, l) {nodes := (∅ : TagMap (Node Text.Rune)).insert (tag 20) ⟨tag 3, 98⟩}
    applyBoth threeBytes 0 p {nodes := chain, tombstones := (∅ : TagSet).insert (tag 2)}
  | _, _ => none

theorem inStep_chainRun {p : Text.RGA × RGA (List UInt8)} (h : chainRun = some p) :
    InStep threeBytes p.1 p.2 := by
  unfold chainRun at h
  split at h
  · rename_i t l ht hl
    obtain ⟨q, hq, h⟩ := bind_eq_some_iff.mp h
    exact ((InStep.new ht hl).applyBoth hq).applyBoth h
  · simp at h

theorem text_and_list_agree_chain :
    ∃ t l, InStep (T := List UInt8) threeBytes t l ∧ t.nodes.size = 17 ∧ t.pending.size = 0 ∧
      (∃ ps, t.positions = some ps ∧ l.positions = some ps) := by
  have h : (chainRun.map fun p => (p.1.nodes.size, p.1.pending.size)) = some (17, 0) := by
    decide +kernel
  obtain ⟨⟨t, l⟩, hp, hsize⟩ := map_eq_some_iff.mp h
  simp only [Prod.mk.injEq] at hsize
  have hstep := inStep_chainRun hp
  exact ⟨t, l, hstep, hsize.1, hsize.2, (text_and_list_agree threeBytes_injOn hstep).2.2.2.1⟩

end Crdt.ListRga
