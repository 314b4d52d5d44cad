import Crdt.Lww.Converge
import Crdt.Lww.Map

/-! Last-writer-wins maps converge.

A map is a table whose keys are strings that are not blank and whose deletions have no value
(`mapRules`): every call of the map does to its table what the call of the table does (`table_call`). So what
holds of tables holds of maps (`lww_map_converges`). -/
namespace Crdt.Lww

open Clock MapLoop LwwMap

variable {m m' other : LwwMap} {got got' ds es : List Entries} {d e f : Entries} {millis : Int64}

def mapRules : Rules MapOptions (List UInt8) MapEntry where
  tag := MapEntry.tag
  present := MapEntry.present
  malformed key entry := blank key || !entry.tag.valid || (!entry.present && !entry.value.isEmpty)
  invalid := .invalidDelta
  conflict := mapEntriesConflict
  allow options key entry := validateMapWrite key entry.value entry.present options
  maxEntries := MapOptions.maxEntries
  valid_tag h := by
    simp only [Bool.or_eq_false_iff, Bool.not_eq_false'] at h
    exact h.1.2
  conflict_self e := by simp [mapEntriesConflict]
  tag_of_conflict h := by
    simp only [mapEntriesConflict, Bool.and_eq_true, decide_eq_true_eq] at h
    exact h.1

def LwwMap.table (m : LwwMap) : Table MapOptions (compare (α := List UInt8)) MapEntry :=
  ⟨m.replicaID, m.clock, m.options, m.entries, m.tags⟩

/-! ### Calls of a map are calls of its table -/

theorem wins_eq (current : Option MapEntry) (incoming : MapEntry) :
    wins current incoming = mapRules.wins current incoming := by
  cases current <;> rfl

theorem takeEntry_eq : takeEntry = mapRules.take := by
  funext store p
  unfold takeEntry Rules.take
  cases store.1[p.1]? <;> rfl

section
variable (l : List (Key × MapEntry))

theorem checkEntries_eq (owners : TagMap Key) : checkEntries l owners = mapRules.check l owners := by
  induction l generalizing owners with
  | nil => rfl
  | cons p l ih =>
    rw [checkEntries, ih]
    rfl

theorem validateMapEntries_eq (entries : Entries) : validateMapEntries entries = mapRules.validate entries :=
  checkEntries_eq _ _

theorem subsumed_eq (existing incoming : Entries) :
    mapRules.subsumed existing incoming = mapEntriesSubsumed existing incoming := by
  unfold mapEntriesSubsumed Rules.subsumed
  congr 1
  funext p
  cases existing[p.1]? <;> rfl

theorem mergeEntries_eq (merged : Entries) : mergeEntries l merged = mapRules.mergeEntries l merged := by
  induction l generalizing merged with
  | nil => rfl
  | cons p l ih =>
    rw [mergeEntries, ih, wins_eq]
    rfl

theorem mergeDeltas_eq (d e : Entries) : mergeDeltas d e = mapRules.mergeDeltas d e := by
  unfold mergeDeltas Rules.mergeDeltas
  simp only [validateMapEntries_eq, mergeEntries_eq]
  cases mapRules.validate d with
  | error err => rfl
  | ok => cases mapRules.validate e with
    | error err => rfl
    | ok => cases mapRules.mergeEntries e.toList d <;> rfl

theorem byTag_eq_table (index : TagMap Key) : byTag l index = mapRules.byTag l index := by
  induction l generalizing index with
  | nil => rfl
  | cons p l ih =>
    rw [byTag, ih]
    rfl

end

theorem compactKeys_eq (entries : Entries) (index : TagMap Key) (l : List Tag) (seen : TagSet) :
    compactKeys entries index l seen = mapRules.compactKeys entries index l seen := by
  induction l generalizing seen with
  | nil => rfl
  | cons tag l ih =>
    rw [compactKeys, Rules.compactKeys]
    simp only [ih]
    cases index[tag]? <;> rfl

theorem table_apply (m : LwwMap) (entries : Entries) (millis : Int64) :
    (m.applyOwnedMapEntries entries millis).map table id = mapRules.apply m.table entries millis := by
  have hfits : mapRules.allows m.table.options entries = validateMapEntriesWithOptions entries m.options := rfl
  have hcompat : mapRules.tagsCompatible m.table.tags entries = tagsCompatible m.tags entries := rfl
  have hagrees : (entries.toList.any fun p => (m.table.entries[p.1]?).any (mapRules.conflict · p.2)) =
      entries.toList.any fun p => (m.entries[p.1]?).any (mapEntriesConflict · p.2) := rfl
  have hsub : mapRules.subsumed m.table.entries entries = mapEntriesSubsumed m.entries entries :=
    subsumed_eq m.entries entries
  have hroom : ((m.table.entries.size : Int) + Rules.newEntries entries m.table.entries >
      mapRules.maxEntries m.table.options) =
      ((m.entries.size : Int) + newMapEntries entries m.entries > m.options.maxEntries) := rfl
  have hgreatest : mapRules.greatestTag entries = greatestMapTag entries := rfl
  unfold applyOwnedMapEntries Rules.apply
  rw [validateMapEntries_eq, takeEntry_eq, hfits, hcompat, hagrees, hsub, hgreatest]
  simp only [hroom]
  cases mapRules.validate entries with
  | error err => rfl
  | ok => cases validateMapEntriesWithOptions entries m.options with
    | error err => rfl
    | ok =>
      dsimp only [table]
      split_ifs
      · rfl
      · rfl
      · rfl
      · rfl
      cases greatestMapTag entries with
      | none => rfl
      | some tag =>
        dsimp only
        rcases m.clock.witness tag millis with ⟨clock, err | ⟨⟩⟩ <;> rfl

theorem table_merge (m other : LwwMap) (millis : Int64) :
    (m.merge other millis).map table id = mapRules.apply m.table other.entries millis := by
  rw [← table_apply]
  unfold merge applyOwnedMapEntries
  cases validateMapEntries other.entries <;> rfl

theorem validateMapWrite_ok {key : Key} {value : List UInt8} {present : Bool} {o : MapOptions}
    (h : validateMapWrite key value present o = .ok ()) : blank key = false := by
  unfold validateMapWrite at h
  split_ifs at h with hk
  simp only [Bool.or_eq_true, not_or, Bool.not_eq_true] at hk
  exact hk.1

/-- A local write as the table sees it. -/
def mapWrite (key : Key) (value : List UInt8) (present : Bool) : mapRules.Write where
  key := key
  entry tag := ⟨tag, present, if present then value else []⟩
  tag_entry _ := rfl
  wellFormed o tag htag h := by
    change validateMapWrite key (if present then value else []) present o = .ok () at h
    have hkey := validateMapWrite_ok h
    change (blank key || !tag.valid || (!present && !(if present then value else []).isEmpty)) = false
    cases present <;> simp [hkey, htag]

theorem table_write (m : LwwMap) (key : Key) (value : List UInt8) (present : Bool) (millis : Int64) :
    (m.writeDelta key value present millis).map table id =
      mapRules.write m.table (mapWrite key value present) millis := by
  have hallow : mapRules.allow m.table.options (mapWrite key value present).key
      ((mapWrite key value present).entry .zero) = validateMapWrite key value present m.options := by
    cases present <;> rfl
  have hfull : (!m.table.entries.contains (mapWrite key value present).key &&
      decide ((m.table.entries.size : Int) ≥ mapRules.maxEntries m.table.options)) =
      (!m.entries.contains key && decide ((m.entries.size : Int) ≥ m.options.maxEntries)) := rfl
  unfold writeDelta Rules.write
  rw [hallow, hfull]
  cases validateMapWrite key value present m.options with
  | error err => rfl
  | ok =>
    by_cases hroom : (!m.entries.contains key && decide ((m.entries.size : Int) ≥ m.options.maxEntries)) = true
    · rw [if_pos hroom, if_pos hroom]
      rfl
    rw [if_neg hroom, if_neg hroom, show m.table.clock = m.clock from rfl]
    rcases m.clock.now millis with ⟨clock, err | tag⟩
    · rfl
    have hwins : mapRules.wins m.table.entries[(mapWrite key value present).key]?
        ((mapWrite key value present).entry tag) =
        wins m.entries[key]? ⟨tag, present, if present then value else []⟩ := (wins_eq _ _).symm
    have hfree : (m.table.tags[tag]?).any (· ≠ (mapWrite key value present).key) =
        (m.tags[tag]?).any (· ≠ key) := rfl
    dsimp only
    rw [hwins, hfree]
    by_cases hconflict : (m.tags[tag]?).any (· ≠ key) = true
    · rw [if_pos hconflict, if_pos hconflict]
      rfl
    rw [if_neg hconflict, if_neg hconflict]
    by_cases hw : wins m.entries[key]? ⟨tag, present, if present then value else []⟩ = true
    · rw [if_pos hw, if_pos hw]
      rfl
    · rw [if_neg hw, if_neg hw]
      rfl

theorem table_install (m : LwwMap) (entries : Entries) (millis : Int64) :
    (m.install entries millis).map table id = mapRules.install m.table entries millis := by
  have hfits : mapRules.allows m.table.options entries = validateMapEntriesWithOptions entries m.options := rfl
  have hgreatest : mapRules.greatestTag entries = greatestMapTag entries := rfl
  have hroom : ((entries.size : Int) > mapRules.maxEntries m.table.options) =
      ((entries.size : Int) > m.options.maxEntries) := rfl
  unfold install Rules.install
  rw [validateMapEntries_eq, hfits, hgreatest, show m.table.clock = m.clock from rfl]
  simp only [hroom]
  split_ifs
  · rfl
  cases validateMapEntriesWithOptions entries m.options with
  | error err => rfl
  | ok => cases mapRules.validate entries with
    | error err => rfl
    | ok => cases greatestMapTag entries with
      | none => rfl
      | some tag =>
        dsimp only
        rcases m.clock.witness tag millis with ⟨clock, err | ⟨⟩⟩ <;> rfl

theorem table_compactTombstones (m : LwwMap) (tags : List Tag) :
    (m.compactTombstones tags).map table id = mapRules.compactTombstones m.table tags := by
  unfold compactTombstones Rules.compactTombstones
  rw [byTag_eq_table, show m.table.entries = m.entries from rfl]
  split_ifs
  · rfl
  cases mapRules.byTag m.entries.toList ∅ with
  | none => rfl
  | some index =>
    dsimp only
    rw [compactKeys_eq]
    cases mapRules.compactKeys m.entries index tags ∅ <;> rfl

/-! ### Runs -/

inductive Call
  | set (key : Key) (value : List UInt8)
  | delete (key : Key)
  | applyDelta (delta : Entries)
  | merge (other : LwwMap)
  | install (entries : Entries)
  | compactTombstones (tags : List Tag)

def LwwMap.call (m : LwwMap) (c : Call) (millis : Int64) : LwwMap × Except Err Unit :=
  match c with
  | .set key value => (m.setWithDelta key value millis).map id (Except.map fun _ => ())
  | .delete key => (m.deleteWithDelta key millis).map id (Except.map fun _ => ())
  | .applyDelta delta => m.applyDelta delta millis
  | .merge other => m.merge other millis
  | .install entries => m.install entries millis
  | .compactTombstones tags => (m.compactTombstones tags).map id (Except.map fun _ => ())

/-- The states of a map after any calls, those that failed included. -/
inductive Reachable : LwwMap → Prop
  | fresh {state : Clock.State} {options : MapOptions} {m : LwwMap}
      (h : newMapFromClockWithOptions state options = .ok m) : Reachable m
  | call {m : LwwMap} (hm : Reachable m) (c : Call) (millis : Int64) : Reachable (m.call c millis).1

section
variable {state : Clock.State} {options : MapOptions}
  (h : newMapFromClockWithOptions state options = .ok m)
include h

theorem newMapFromClockWithOptions_ok :
    m.entries = ∅ ∧ m.tags = ∅ ∧ options.valid = true ∧ m.options = options ∧
      Tag.valid ⟨m.clock.replicaID, 0, 0⟩ = true := by
  unfold newMapFromClockWithOptions at h
  split_ifs at h with hid hopt
  split at h
  · cases h
  rename_i clock hc
  cases h
  have hs := HLC.newHLCFromState_ok hc
  refine ⟨rfl, rfl, by simpa using hopt, rfl, ?_⟩
  have hid : Tag.valid ⟨state.replicaID, 0, 0⟩ = true := by simpa using hid
  rw [← hs] at hid
  exact hid

theorem indexed_new : mapRules.Indexed m.table ∧ m.entries = ∅ := by
  obtain ⟨he, ht, hv, ho, hid⟩ := newMapFromClockWithOptions_ok h
  simp only [MapOptions.valid, Bool.and_eq_true, decide_eq_true_eq] at hv
  have hmax : 0 < m.options.maxEntries := by
    rw [ho]
    exact hv.1.1
  exact ⟨indexed_fresh hmax he ht hid, he⟩

end

/-- A call of a map as its table sees it. -/
def Call.onTable : Call → mapRules.Call (compare (α := List UInt8))
  | .set key value => .write (mapWrite key value true)
  | .delete key => .write (mapWrite key [] false)
  | .applyDelta delta => .apply delta
  | .merge other => .apply other.entries
  | .install entries => .install entries
  | .compactTombstones tags => .compactTombstones tags

theorem table_call (m : LwwMap) (c : Call) (millis : Int64) :
    (m.call c millis).map table id = mapRules.call m.table c.onTable millis := by
  cases c with
  | set key value => exact congrArg (Prod.map id (Except.map fun _ => ())) (table_write m key value true millis)
  | delete key => exact congrArg (Prod.map id (Except.map fun _ => ())) (table_write m key [] false millis)
  | applyDelta delta => exact table_apply m delta millis
  | merge other => exact table_merge m other millis
  | install entries => exact table_install m entries millis
  | compactTombstones tags =>
    exact congrArg (Prod.map id (Except.map fun _ => ())) (table_compactTombstones m tags)

theorem call_table (m : LwwMap) (c : Call) (millis : Int64) :
    (m.call c millis).1.table = (mapRules.call m.table c.onTable millis).1 ∧
      (m.call c millis).2 = (mapRules.call m.table c.onTable millis).2 := by
  rw [← table_call]
  exact ⟨rfl, rfl⟩

theorem Reachable.indexed (h : Reachable m) : mapRules.Indexed m.table := by
  induction h with
  | fresh hnew => exact (indexed_new hnew).1
  | call _ c millis ih =>
    rw [(call_table _ c millis).1]
    exact (call_spec ih _ millis).1

/-! ### Deliveries -/

structure WellFormed (key : Key) (entry : MapEntry) : Prop where
  key : blank key = false
  tag : entry.tag.valid = true
  deleted : entry.present = false → entry.value = []

/-- What `validateMapEntries` checks. -/
structure Valid (entries : Entries) : Prop where
  wellFormed : ∀ k e, entries[k]? = some e → WellFormed k e
  distinct : ∀ (k k' : Key) (e e' : MapEntry), entries[k]? = some e → entries[k']? = some e' →
    e.tag = e'.tag → k = k'

theorem Valid.onTable (h : Valid d) : mapRules.Valid d := by
  refine ⟨fun k x hx => ?_, h.distinct⟩
  have hwf := h.wellFormed k x hx
  change (blank k || !x.tag.valid || (!x.present && !x.value.isEmpty)) = false
  rw [hwf.key, hwf.tag]
  simpa using hwf.deleted

/-- Deltas that travel as one. -/
inductive Bundle : List Entries → Entries → Prop
  | single (d : Entries) : Bundle [d] d
  | merge {ds es : List Entries} {d e f : Entries} (hd : Bundle ds d) (he : Bundle es e)
      (h : mergeDeltas d e = .ok f) : Bundle (ds ++ es) f

theorem Bundle.onTable (h : Bundle ds d) : mapRules.Bundle ds d := by
  induction h with
  | single d => exact .single d
  | merge _ _ hm ihd ihe => exact .merge ihd ihe (mergeDeltas_eq _ _ ▸ hm)

/-- A map and the deltas that went into it, by whatever way. -/
inductive Delivered : List Entries → LwwMap → Prop
  | fresh {state : Clock.State} {options : MapOptions} {m : LwwMap}
      (h : newMapFromClockWithOptions state options = .ok m) : Delivered [] m
  | write {got : List Entries} {m m' : LwwMap} {key : Key} {value : List UInt8} {present : Bool}
      {d : Entries} {millis : Int64} (hm : Delivered got m)
      (h : m.writeDelta key value present millis = (m', .ok d)) : Delivered (got ++ [d]) m'
  | apply {got ds : List Entries} {m m' : LwwMap} {d : Entries} {millis : Int64}
      (hm : Delivered got m) (hd : Bundle ds d) (h : m.applyDelta d millis = (m', .ok ())) :
    Delivered (got ++ ds) m'
  | merge {got got' : List Entries} {m m' other : LwwMap} {millis : Int64} (hm : Delivered got m)
      (ho : Delivered got' other) (h : m.merge other millis = (m', .ok ())) :
    Delivered (got ++ got') m'
  | refused {got : List Entries} {m : LwwMap} {c : Call} {err : Err} {millis : Int64}
      (hm : Delivered got m) (h : (m.call c millis).2 = .error err) :
    Delivered got (m.call c millis).1

theorem Delivered.onTable (h : Delivered got m) : mapRules.Delivered got m.table := by
  induction h with
  | fresh hnew => exact .fresh (indexed_new hnew).1 (indexed_new hnew).2
  | write _ hw ih => exact .write ih ((table_write _ _ _ _ _).symm.trans (congrArg (Prod.map _ _) hw))
  | apply _ hd happ ih =>
    exact .apply ih hd.onTable ((table_apply _ _ _).symm.trans (congrArg (Prod.map _ _) happ))
  | merge _ _ hmerge ihm iho =>
    exact .merge ihm iho ((table_merge _ _ _).symm.trans (congrArg (Prod.map _ _) hmerge))
  | @refused got m c err millis _ hr ih =>
    obtain ⟨hstate, hanswer⟩ := call_table m c millis
    rw [hstate]
    exact .refused ih (hanswer ▸ hr)

/-- Each tag belongs to one key and to one write. -/
def OneEntry (got : List Entries) : Prop :=
  ∀ d ∈ got, ∀ d' ∈ got, ∀ (k k' : Key) (x x' : MapEntry), d[k]? = some x → d'[k']? = some x' →
    x.tag = x'.tag → k = k' ∧ x = x'

/-- The entry of the greatest tag at a key. -/
def Greatest (got : List Entries) (k : Key) (x : MapEntry) : Prop :=
  (∃ d ∈ got, d[k]? = some x) ∧ ∀ d ∈ got, ∀ x' : MapEntry, d[k]? = some x' → x'.tag ≤ x.tag

/-- What the limits of a map leave room for. -/
structure Within (m : LwwMap) (entries : Entries) : Prop where
  fits : validateMapEntriesWithOptions entries m.options = .ok ()
  room : (m.entries.size : Int) + newMapEntries entries m.entries ≤ m.options.maxEntries

/-- Deltas in which a tag belongs to one key and one write leave, at every key, the entry of the
greatest tag, in whatever order, groups and number they came; within the limits they are refused
by nothing but the clock. In every state a map can reach, the index is the inverse of the tags of
the entries, there are no more entries than allowed, and a call that fails changes neither. -/
theorem lww_map_converges : (∀ got m, Delivered got m → OneEntry got →
      ∀ (k : Key) (x : MapEntry), m.entries[k]? = some x ↔ Greatest got k x) ∧
    (∀ ds es d e, Bundle ds d → Bundle es e → OneEntry (ds ++ es) → (∀ x ∈ ds ++ es, Valid x) →
      ∃ f, mergeDeltas d e = .ok f) ∧
    (∀ got ds m d millis, Delivered got m → Bundle ds d → OneEntry (got ++ ds) →
      (∀ x ∈ ds, Valid x) → Within m d →
      (m.applyDelta d millis).2 = .ok () ∨ ∃ err, (m.applyDelta d millis).2 = .error (.clock err)) ∧
    (∀ got got' m other millis, Delivered got m → Delivered got' other → OneEntry (got ++ got') →
      Within m other.entries →
      (m.merge other millis).2 = .ok () ∨ ∃ err, (m.merge other millis).2 = .error (.clock err)) ∧
    ∀ m, Reachable m →
      (∀ (t : Tag) (k : Key), m.tags[t]? = some k ↔ ∃ x, m.entries[k]? = some x ∧ x.tag = t) ∧
      m.tags.size = m.entries.size ∧ (m.entries.size : Int) ≤ m.options.maxEntries ∧
      ∀ c millis err, (m.call c millis).2 = .error err →
        (m.call c millis).1.entries = m.entries ∧ (m.call c millis).1.tags = m.tags := by
  refine ⟨fun got m hm hone k x => ?_, fun ds es d e hd he hone hv => ?_,
    fun got ds m d millis hm hd hone hv hw => ?_, fun got got' m other millis hm ho hone hw => ?_,
    fun m hm => ?_⟩
  · exact hm.onTable.spec.2.greatest_iff hone k x
  · rw [mergeDeltas_eq]
    exact mergeDeltas_total hd.onTable he.onTable hone fun x hx => (hv x hx).onTable
  · have hvd := hd.onTable.valid fun x hx => (hv x hx).onTable
    have htotal := hm.onTable.apply_total hd.onTable.covers hone hvd ⟨hw.fits, hw.room⟩ millis
    rwa [← table_apply] at htotal
  · obtain ⟨hi, hc⟩ := ho.onTable.spec
    have htotal := hm.onTable.apply_total hc hone hi.valid ⟨hw.fits, hw.room⟩ millis
    rwa [show other.table.entries = other.entries from rfl, ← table_merge] at htotal
  have hi := hm.indexed
  refine ⟨hi.index, hi.index.size, hi.bounded, fun c millis err herr => ?_⟩
  obtain ⟨hstate, hanswer⟩ := call_table m c millis
  rcases (call_spec hi c.onTable millis).2 with hok | ⟨he, ht⟩
  · rw [← hanswer, herr] at hok
    cases hok
  · rw [← hstate] at he ht
    exact ⟨he, ht⟩

/-- A delete that comes before the older write it answers. -/
theorem lww_map_converges_late_write : let deleted : MapEntry := ⟨⟨[2], 2, 0⟩, false, []⟩
    let written : MapEntry := ⟨⟨[1], 1, 0⟩, true, [9]⟩
    let got : List Entries := [(∅ : Entries).insert [97] deleted, (∅ : Entries).insert [97] written]
    ∃ m, Delivered got m ∧ OneEntry got ∧ m.entries[([97] : Key)]? = some deleted := by
  intro deleted written got
  let m₀ : LwwMap := {replicaID := [7], clock := ⟨[7], 0, 0⟩, options := .default}
  let m₁ := (m₀.applyDelta ((∅ : Entries).insert [97] deleted) 0).1
  have hnew : newMapFromClockWithOptions ⟨[7], 0, 0⟩ .default = .ok m₀ := rfl
  have h₀ : Delivered [] m₀ := .fresh hnew
  have h₁ : Delivered ([] ++ [(∅ : Entries).insert [97] deleted]) m₁ :=
    h₀.apply (.single _) (Prod.ext rfl (by decide +kernel))
  have hok : (m₁.applyDelta ((∅ : Entries).insert [97] written) 0).2 = .ok () := by decide +kernel
  have h₂ : Delivered got (m₁.applyDelta ((∅ : Entries).insert [97] written) 0).1 :=
    h₁.apply (.single _) (Prod.ext rfl hok)
  have hone : OneEntry got := Rules.OneEntry.pair (R := mapRules) [97] deleted written (by decide)
  refine ⟨_, h₂, hone, (lww_map_converges.1 got _ h₂ hone _ _).mpr ?_⟩
  exact Rules.Greatest.pair (R := mapRules) [97] deleted written (by decide)

end Crdt.Lww
