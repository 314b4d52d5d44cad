import Crdt.Text.UndoHistory

/-! Sessions of an undo manager.

`Tracks` relates a manager to the history that its user has in mind: the entries of both
stacks stand for the edits of the history, and the replica shows the names that these lead to.
Each of the calls keeps it (`Tracks.insert`, `Tracks.delete`, `Tracks.undoLast`,
`Tracks.redoLast`), undo and redo only if re-inserted runes go where the edit was made. -/
namespace Crdt.Text

open Clock Rga UndoManager MapLoop List Option Name

/-! ### Recording an entry -/

section Record

variable {r : RGA} {entries : List UndoEntry} {owners : TagMap PositionOwner} {live : List Nat}
  {place : Name → Position} {names : List Name} {entry : UndoEntry} {o : PositionOwner} {x : Position}

theorem positionOf_append (h : o.entry < entries.length) :
    positionOf (entries ++ [entry]) o = positionOf entries o := by
  rw [positionOf, getElem?_append_left h]
  rfl

theorem kindOf_append {id : Nat} (h : id < entries.length) :
    kindOf (entries ++ [entry]) id = kindOf entries id := by
  rw [kindOf, getElem?_append_left h]
  rfl

theorem lt_of_positionOf (h : positionOf entries o = some x) : o.entry < entries.length := by
  obtain ⟨_, he, _⟩ := bind_eq_some_iff.mp h
  exact (List.getElem?_eq_some_iff.mp he).1

theorem Cells.append (h : Cells r entries owners live place names)
    (hlive : ∀ id ∈ live, id < entries.length) : Cells r (entries ++ [entry]) owners live place names := by
  refine ⟨h.shows, h.nodup, fun n hn o ho => ?_, h.owned, h.known, fun id hid hk j x hx => ?_⟩
  · have hp := h.homes n hn o ho
    rw [positionOf_append (lt_of_positionOf hp)]
    exact hp
  rw [kindOf_append (hlive id hid)] at hk
  rw [positionOf_append (hlive id hid)] at hx
  exact h.stale id hid hk j x hx

theorem Cells.of_live (live' : List Nat) (h : Cells r entries owners live place names)
    (hlive : ∀ id ∈ live', id ∈ live ∨ kindOf entries id ≠ some .insertion) :
    Cells r entries owners live' place names := by
  refine ⟨h.shows, h.nodup, h.homes, h.owned, h.known, fun id hid hk => ?_⟩
  exact h.stale id ((hlive id hid).resolve_right fun hne => hne hk) hk

theorem Cells.of_perm {live' : List Nat} (h : Cells r entries owners live place names)
    (hp : live'.Perm live) : Cells r entries owners live' place names :=
  h.of_live live' fun _ hid => .inl (hp.mem_iff.mp hid)

/-- A position of an entry that owns no shown name is not the place of a name. -/
theorem Cells.not_place (h : Cells r entries owners live place names) {id j : Nat}
    (hid : id ∈ live) (hk : kindOf entries id = some .insertion)
    (hx : positionOf entries ⟨id, j⟩ = some x) (hnone : ∀ n ∈ names, n.owner ≠ some ⟨id, j⟩)
    {n : Name} (hn : n ∈ names) : x ≠ place n := by
  rintro rfl
  rcases h.stale id hid hk j _ hx with ht | ⟨n', hn', ho'⟩
  · exact (h.shows.placed hn).2 ht
  · exact hnone n' hn' ho'

/-- The redo stack is discarded. None of its insertions owns a shown name. -/
theorem Cells.disown {undo redo : List Nat} (h : Cells r entries owners (undo ++ redo) place names)
    (hredo : ∀ n ∈ names, ∀ o, n.owner = some o → o.entry ∉ redo) :
    Cells r entries (disown entries owners redo) undo place names := by
  refine ⟨h.shows, h.nodup, h.homes, fun n hn => ?_, fun x hx => h.known x (mem_of_mem_disown hx),
    fun id hid => h.stale id (mem_append_left _ hid)⟩
  rw [getElem?_disown, h.owned n hn]
  intro id hid hk j hx
  refine h.not_place (mem_append_right _ hid) hk hx (fun n' hn' ho' => ?_) hn rfl
  exact hredo n' hn' _ ho' hid

theorem Noted.block {entries' : List UndoEntry} {owners' : TagMap PositionOwner} {id : Nat}
    {value : List Rune} {ids : List Position} (hself : ∀ j, positionOf entries' ⟨id, j⟩ = ids[j]?)
    (hkept : ∀ n ∈ names, ∀ o, n.owner = some o → positionOf entries' o = positionOf entries o)
    (hf : FreshTags r.nodes r.tombstones ids) (hlen : ids.length = value.length)
    (hplace : ∀ n ∈ names, place n ∉ ids ∧ owners'[place n]? = owners[place n]?)
    (hknown : ∀ x ∈ owners', x ∈ owners)
    (hstale : ∀ e ∈ live, e ≠ id → kindOf entries' e = some .insertion → ∀ j x,
      positionOf entries' ⟨e, j⟩ = some x → x ∈ r.tombstones ∨ ∃ n ∈ names, n.owner = some ⟨e, j⟩) :
    Noted r entries entries' owners (registerFrom owners' id 0 ids) live place (Name.block id value) ids
      names := by
  refine ⟨fun j n o hj ho => ?_, hkept, fun j n x hj hx => ?_, fun n hn => ?_, fun x hx => ?_,
    fun e hm hk j x hx => ?_⟩
  · rw [owner_block hj, some.injEq] at ho
    rw [← ho]
    exact hself j
  · rw [owner_block hj, getElem?_registerFrom (hf.ascending.imp ne_of_lt) hf.valid hx, Nat.zero_add]
  · rw [getElem?_registerFrom_of_not_mem (hplace n hn).1]
    exact (hplace n hn).2
  · by_cases hm : x ∈ ids
    · exact .inr hm
    · rw [mem_iff, getElem?_registerFrom_of_not_mem hm, ← mem_iff] at hx
      exact .inl (hknown x hx)
  by_cases hid : e = id
  · subst hid
    rw [hself] at hx
    have hj : j < (Name.block e value).length := by
      rw [length_block, ← hlen]
      exact (List.getElem?_eq_some_iff.mp hx).1
    exact .inr ⟨_, .inr (getElem_mem hj), owner_block (getElem?_eq_getElem hj)⟩
  rcases hstale e hm hid hk j x hx with ht | ⟨n, hn, ho⟩
  · exact .inl ht
  · exact .inr ⟨n, .inl hn, ho⟩

theorem sortedDeltaPositions_eq {r' : RGA} {p : Position} {chain : List (Position × Rune)} {delta : Delta}
    (he : Edited r r' p chain []) (hdelta : delta.nodes = growChain ∅ p chain) :
    sortedDeltaPositions delta = chain.map Prod.fst := by
  rw [sortedDeltaPositions, hdelta, keys_growChain he.fresh.ascending]

end Record

/-! ### The invariant -/

variable {m m' : UndoManager} {hist : History} {place : Name → Position} {names : List Name}
  {delta : Delta}

/-- The manager does what the history says, and shows `names` for its present text. -/
structure Tracks (m : UndoManager) (hist : History) (place : Name → Position) (names : List Name) :
    Prop where
  cells : Cells m.value m.entries m.owners (m.undo ++ m.redo) place names
  past : Past m.entries m.undo hist.undo names
  future : Future m.entries place m.redo hist.redo names
  live : (m.undo ++ m.redo).Nodup
  present : hist.present = names.map rune

namespace Tracks

theorem text (h : Tracks m hist place names) : m.value.visibleRunes = some hist.present := by
  rw [h.cells.shows.text, h.present]

variable {id : Nat}

theorem found (h : Tracks m hist place names) (hid : id ∈ m.undo ++ m.redo) : id < m.entries.length := by
  obtain ⟨entry, he⟩ := (mem_append.mp hid).elim h.past.found h.future.found
  exact (List.getElem?_eq_some_iff.mp he).1

variable {n : Name}

section
variable (h : Tracks m hist place names)
include h

theorem not_redo (hn : n ∈ names) {o : PositionOwner}
    (ho : n.owner = some o) : o.entry ∉ m.redo := fun hm =>
  (nodup_append.mp h.live).2.2 _ (h.past.owned hn ho).1 _ hm rfl

theorem fresh {ids : List Position} {tombstones : TagSet}
    (hf : FreshTags m.value.nodes tombstones ids) (hn : n ∈ names) : place n ∉ ids :=
  fun hm => hf.not_mem hm (h.cells.shows.placed hn).1

theorem idle {r : RGA} {p : Position}
    (he : Edited m.value r p [] []) : Tracks {m with value := r} hist place names := by
  have he' : Edited m.value r .zero [] (List.map place []) :=
    ⟨he.ready, he.fresh, .inl rfl, he.nodes, he.tombstones⟩
  have hc : Cells m.value m.entries m.owners (m.undo ++ m.redo) place (names ++ [] ++ []) := by
    simpa using h.cells
  exact ⟨by simpa using hc.remove he', h.past, h.future, h.live, h.present⟩

end

variable {A N B : List Name} {undoRunes : Int} {entry : UndoEntry} {r : RGA} {value : List Rune}

theorem record (h : Tracks m hist place names) {owners : TagMap PositionOwner} {place' : Name → Position}
    (hnames : entry.kind.earlier A N B = names) (hmade : Made (m.entries ++ [entry]) m.entries.length entry
      ⟨hist.present, (entry.kind.later A N B).map rune, A.length⟩ A N B)
    (hcells : Cells r (m.entries ++ [entry]) owners (m.entries.length :: m.undo) place'
      (entry.kind.later A N B)) : Tracks {m with
        value := r
        entries := m.entries ++ [entry]
        undo := m.entries.length :: m.undo
        redo := []
        redoRunes := 0
        owners := owners
        undoRunes := undoRunes}
      (hist.edit A.length ((entry.kind.later A N B).map rune)) place' (entry.kind.later A N B) := by
  have hpast : Past (m.entries ++ [entry]) m.undo hist.undo (entry.kind.earlier A N B) := by
    rw [hnames]
    exact h.past.keeps (Keeps.append _ _)
  refine ⟨by simpa using hcells, .push hpast hmade, .done, ?_, rfl⟩
  simp only [append_nil, nodup_cons]
  refine ⟨fun hm => Nat.lt_irrefl _ (h.found (mem_append_left _ hm)), ?_⟩
  exact (nodup_append.mp h.live).1

/-- The cells behind a new entry: the redo stack is gone, and nothing else is forgotten. -/
theorem cells_record (h : Tracks m hist place names) (entry : UndoEntry) :
    Cells m.value (m.entries ++ [entry]) (disown m.entries m.owners m.redo) m.undo place names :=
  (h.cells.disown fun _ hn _ ho => h.not_redo hn ho).append fun _ hid => h.found (mem_append_left _ hid)

theorem recordNewEntry_eq (hfull : m.full entry.runes = false) : m.recordNewEntry entry = {m with
      entries := m.entries ++ [entry]
      undo := m.entries.length :: m.undo
      redo := []
      redoRunes := 0
      owners := disown m.entries m.owners m.redo
      undoRunes := m.undoRunes + entry.runes} := by
  rw [recordNewEntry, hfull]
  rfl

theorem noted_insert (h : Tracks m hist place names)
    {ids : List Position} (hnames : A ++ B = names) (hk : entry.positions = ids)
    (hlen : ids.length = value.length) (hf : FreshTags m.value.nodes m.value.tombstones ids) :
    Noted m.value (m.entries ++ [entry]) (m.entries ++ [entry]) (disown m.entries m.owners m.redo)
      (registerFrom (disown m.entries m.owners m.redo) m.entries.length 0 ids)
      (m.entries.length :: m.undo) place (Name.block m.entries.length value) ids (A ++ B) := by
  refine .block (fun j => by simp [positionOf, hk]) (fun _ _ _ _ => rfl) hf hlen
    (fun n hn => ⟨h.fresh hf (hnames ▸ hn), rfl⟩) (fun _ hx => hx) fun id hid hne hkind j x hx => ?_
  rw [hnames]
  exact (h.cells_record entry).stale id ((mem_cons.mp hid).resolve_left hne) hkind j x hx

variable {millis : Nat → Int64}

theorem insert {offset : Int}
    (h : Tracks m hist place names) (hfit : m.fits (.insert offset value millis) = true)
    (hok : m.insert offset value millis = some (m', .ok delta)) :
    ∃ place' names', Tracks m' (hist.call (.insert offset value millis)) place' names' := by
  unfold UndoManager.insert at hok
  split_ifs at hok with hv hmax
  · simp at hok
  · simp at hok
  obtain ⟨⟨r, res⟩, hins, hok⟩ := bind_eq_some_iff.mp hok
  rcases res with err | ⟨delta₁, predecessor⟩
  · simp at hok
  obtain ⟨hle, hthrough, chain, hval, he, hdelta⟩ := insertWithPredecessor_spec h.cells.shows.ready hins
  have hsize : delta₁.nodes.size = value.length := by
    rw [hdelta, size_growChain (he.fresh.ascending.imp ne_of_lt) (by simp), ← hval]
    simp
  by_cases hnil : value = []
  · have hchain : chain = [] := by simpa [hnil] using hval
    subst hnil hchain
    simp only [hsize, length_nil, if_true] at hok
    cases hok
    exact ⟨place, names, h.idle he⟩
  have hfull : m.full value.length = false := by simpa [fits, hnil] using hfit
  have hne : ¬ delta₁.nodes.size = 0 := by
    rw [hsize]
    simpa using hnil
  have hpos := sortedDeltaPositions_eq he hdelta
  obtain ⟨entry, hentry⟩ : ∃ entry : UndoEntry, entry =
    ⟨.insertion, predecessor, value, chain.map Prod.fst, [], value.length⟩ := ⟨_, rfl⟩
  have hfull' : full {m with value := r} entry.runes = false := by
    rw [hentry]
    exact hfull
  simp only [if_neg hne, hpos, ← hentry, recordNewEntry_eq hfull'] at hok
  cases hok
  -- the names in front, the new ones and those behind
  obtain ⟨A, B, hsplit, hlen⟩ : ∃ A B, A ++ B = names ∧ A.length = offset.toNat := by
    refine ⟨names.take offset.toNat, names.drop offset.toNat, take_append_drop .., ?_⟩
    have : names.length = m.value.visible.length := by rw [h.cells.shows.visible, length_map]
    rw [length_take]
    omega
  obtain ⟨N, hN⟩ : ∃ N, N = block m.entries.length value := ⟨_, rfl⟩
  have hidlen : (chain.map Prod.fst).length = value.length := by rw [← hval]; simp
  have hkind : entry.kind = .insertion := by rw [hentry]
  have hpred : entry.predecessor = .zero ∨ entry.predecessor.valid = true := by
    rw [hentry]
    exact he.reached.imp_right (h.cells.shows.ready.inv.indexed.forested.valid predecessor)
  have hearlier : entry.kind.earlier A N B = names := by rw [hkind, UndoKind.earlier, hsplit]
  have hmade : Made (m.entries ++ [entry]) m.entries.length entry
      ⟨hist.present, (entry.kind.later A N B).map rune, A.length⟩ A N B := by
    refine ⟨by simp, hpred, rfl, ?_, ?_, fun _ => by rw [hentry, hN], fun hd => by simp [hkind] at hd, ?_, rfl⟩
    · rw [hentry, hN, map_rune_block]
    · rw [hentry, hN, length_block]
      exact hidlen
    · rw [hearlier]
      exact h.present
  have hnodup : (A ++ N ++ B).Nodup := by
    have hpast := Past.push (hearlier.symm ▸ h.past.keeps (Keeps.append _ entry)) hmade
    rw [hkind] at hpast
    refine hpast.nodup (nodup_cons.mpr ⟨fun hm => ?_, (nodup_append.mp h.live).1⟩)
    exact Nat.lt_irrefl _ (h.found (mem_append_left _ hm))
  have hcells : Cells m.value (m.entries ++ [entry]) (disown m.entries m.owners m.redo) m.undo place (A ++ B) := by
    rw [hsplit]
    exact h.cells_record entry
  have hrune : N.map rune = chain.map Prod.snd := by rw [hN, map_rune_block, hval]
  have hcells' := hcells.restore he (hthrough.trans hlen.symm) hrune hnodup
    (hN ▸ h.noted_insert hsplit (by rw [hentry]) hidlen he.fresh)
  have hid : (m.entries ++ [entry]).length - 1 = m.entries.length := by simp
  have hcall : hist.call (.insert offset value millis) = hist.edit A.length ((entry.kind.later A N B).map rune) := by
    rw [History.call, if_neg hnil, ← hlen, hkind, h.present, ← hsplit, hN]
    simp [UndoKind.later, map_rune_block]
  rw [hid, hcall]
  exact ⟨_, _, h.record hearlier hmade (by rw [hkind]; exact hcells')⟩

theorem delete {offset count : Int} {millis : Int64} (h : Tracks m hist place names)
    (hfit : m.fits (.delete offset count millis) = true)
    (hok : m.delete offset count millis = some (m', .ok delta)) :
    ∃ place' names', Tracks m' (hist.call (.delete offset count millis)) place' names' := by
  obtain ⟨⟨r, res⟩, hdel, hok⟩ := bind_eq_some_iff.mp hok
  rcases res with err | ⟨delta₁, predecessor, value, positions⟩
  · simp at hok
  obtain ⟨hc₀, hle, hreach, hpos, hposlen, hval, he⟩ :=
    deleteWithUndoCapture_spec h.cells.shows.ready hdel
  by_cases hzero : count = 0
  · have hpositions : positions = [] := by
      rw [hpos, hzero]
      simp
    subst hzero hpositions
    cases hok
    exact ⟨place, names, h.idle he⟩
  obtain ⟨k, hk⟩ : ∃ k, k = offset.toNat := ⟨_, rfl⟩
  obtain ⟨c, hc⟩ : ∃ c, c = count.toNat := ⟨_, rfl⟩
  rw [← hk, ← hc] at hle hpos
  obtain ⟨entry, hentry⟩ : ∃ entry : UndoEntry, entry = ⟨.deletion, predecessor, value,
    replicate positions.length .zero, positions.map (target {m with value := r}),
    positions.length⟩ := ⟨_, rfl⟩
  have hruns : entry.runes = count := by
    rw [hentry]
    simp only [hposlen]
    omega
  have hfull : full {m with value := r} entry.runes = false := by
    have : m.full count = false := by simpa [fits, hzero] using hfit
    rw [hruns]
    exact this
  simp only [if_neg hzero, ← hentry, recordNewEntry_eq hfull] at hok
  cases hok
  -- the names in front, the deleted ones and those behind
  obtain ⟨A, hA⟩ : ∃ A, A = names.take k := ⟨_, rfl⟩
  obtain ⟨N, hN⟩ : ∃ N, N = (names.drop k).take c := ⟨_, rfl⟩
  obtain ⟨B, hB⟩ : ∃ B, B = names.drop (k + c) := ⟨_, rfl⟩
  have hsplit : A ++ N ++ B = names := by
    rw [hA, hN, hB, append_assoc, ← drop_drop, take_append_drop, take_append_drop]
  have hplaces : positions = N.map place := by
    rw [hpos, h.cells.shows.visible, hN, map_take, map_drop]
  have hmem : ∀ n ∈ N, n ∈ names := by
    intro n hn
    rw [← hsplit]
    simp [hn]
  have hlen : A.length = k := by
    have : names.length = m.value.visible.length := by rw [h.cells.shows.visible, length_map]
    rw [hA, length_take]
    omega
  have hkind : entry.kind = .deletion := by rw [hentry]
  have hpred : entry.predecessor = .zero ∨ entry.predecessor.valid = true := by
    rw [hentry]
    exact hreach.imp_right (h.cells.shows.ready.inv.indexed.forested.valid predecessor)
  have hmade : Made (m.entries ++ [entry]) m.entries.length entry
      ⟨hist.present, (entry.kind.later A N B).map rune, A.length⟩ A N B := by
    refine ⟨by simp, hpred, rfl, ?_, ?_, fun hi => by simp [hkind] at hi, fun _ => ?_, ?_, rfl⟩
    · rw [hentry, hval, hplaces, List.map_map]
      exact map_congr_left fun n hn => h.cells.shows.runes n (hmem n hn)
    · rw [hentry, length_replicate, hplaces, length_map]
    · rw [hentry, hplaces, List.map_map, List.map_map]
      refine map_congr_left fun n hn => ?_
      rw [← h.cells.owned n (hmem n hn)]
      simp only [Function.comp_apply, target]
      cases m.owners[place n]? <;> rfl
    · rw [hkind, UndoKind.earlier, hsplit]
      exact h.present
  have hearlier : entry.kind.earlier A N B = names := by rw [hkind, UndoKind.earlier, hsplit]
  have hrest : Cells m.value (m.entries ++ [entry]) (disown m.entries m.owners m.redo)
      m.undo place (A ++ N ++ B) := by
    rw [hsplit]
    exact h.cells_record entry
  have hcells := (hrest.remove (hplaces ▸ he)).of_live (m.entries.length :: m.undo) <| by
    intro id hid
    rcases mem_cons.mp hid with rfl | hid
    · exact .inr (by simp [kindOf, hkind])
    · exact .inl hid
  have hcall : hist.call (.delete offset count millis) =
      hist.edit A.length ((entry.kind.later A N B).map rune) := by
    rw [History.call, if_neg hzero, hlen, ← hk, ← hc, hkind, h.present]
    simp [UndoKind.later, hA, hB]
  rw [hcall]
  exact ⟨_, _, h.record hearlier hmade (by rw [hkind]; exact hcells)⟩

/-! ### Undo and redo -/

variable {edit : HistoryEdit} {positions : List Position}

theorem positions_eq (h : Tracks m hist place names) (hmade : Made m.entries id entry edit A N B)
    (hkind : entry.kind = .insertion) (hmem : ∀ n ∈ N, n ∈ names) : entry.positions = N.map place := by
  refine ext_getElem? fun j => ?_
  rw [getElem?_map]
  cases hj : N[j]? with
  | none =>
    rw [getElem?_eq_none_iff] at hj
    exact List.getElem?_eq_none_iff.mpr (hmade.length ▸ hj)
  | some n =>
    have hn := hmem n (mem_of_getElem? hj)
    rw [hmade.block hkind] at hj
    have hhome := h.cells.homes n hn ⟨id, j⟩ (owner_block hj)
    rw [positionOf, hmade.found] at hhome
    exact hhome

theorem targetPositions_eq (place : Name → Position) {index : Nat} {targets : List UndoTarget}
    (hown : targets.map UndoTarget.owner = N.map owner)
    (hhome : ∀ n ∈ N, ∀ o, n.owner = some o → positionOf m.entries o = some (place n))
    (hback : ∀ (j : Nat) (n : Name), N[j]? = some n → n.owner = none →
      entry.positions[index + j]? = some (place n))
    (hok : m.targetPositions entry index targets = some (some positions)) : positions = N.map place := by
  induction targets generalizing index N positions with
  | nil =>
    cases hok
    cases N with
    | nil => rfl
    | cons n N => simp at hown
  | cons t targets ih =>
    cases N with
    | nil => simp at hown
    | cons n N =>
      simp only [map_cons, List.cons.injEq] at hown
      have hback' : ∀ (j : Nat) (n : Name), N[j]? = some n → n.owner = none →
          entry.positions[index + 1 + j]? = some (place n) := by
        intro j n' hj hn'
        rw [Nat.add_assoc, Nat.add_comm 1]
        exact hback (j + 1) n' hj hn'
      have hstep : m.targetPositions entry index (t :: targets) =
          (m.targetPositions entry (index + 1) targets).bind fun ps => some (ps.map (place n :: ·)) := by
        cases t with
        | external p =>
          have hn : entry.positions[index]? = some (place n) := hback 0 n rfl hown.1.symm
          rw [targetPositions, hn]
          rfl
        | owned o =>
          obtain ⟨owner, howner, hp⟩ := bind_eq_some_iff.mp (hhome n (by simp) o hown.1.symm)
          simp only [targetPositions, howner, hp, bind_eq_bind, bind_some]
          rfl
      rw [hstep] at hok
      obtain ⟨rest, hrest, hok⟩ := bind_eq_some_iff.mp hok
      obtain ⟨rest', rfl, rfl⟩ := map_eq_some_iff.mp (some.inj hok)
      rw [map_cons, ih hown.2 (fun n' hn' => hhome n' (by simp [hn'])) hback' hrest]

variable {rest : List Nat} {edits : List HistoryEdit} {redoRunes : Int}

theorem undo_insertion {millis : Int64}
    (h : Tracks m hist place (A ++ N ++ B)) (hundo : m.undo = id :: rest)
    (hmade : Made m.entries id entry edit A N B)
    (hpast : Past m.entries rest edits (A ++ B)) (hkind : entry.kind = .insertion)
    (hok : m.value.tombstoneRetainedPositions entry.positions millis = some (r, .ok delta)) : Tracks {m with
        value := r
        undo := rest
        undoRunes := undoRunes
        redo := id :: m.redo
        redoRunes := redoRunes} ⟨edit.before, edits, edit :: hist.redo⟩ place (A ++ B) := by
  have he := tombstoneRetainedPositions_spec h.cells.shows.ready hok
  rw [h.positions_eq hmade hkind fun n hn => by simp [hn]] at he
  have hperm : (rest ++ id :: m.redo).Perm (m.undo ++ m.redo) := hundo ▸ perm_middle
  refine ⟨(h.cells.remove he).of_perm hperm, hpast, ?_, hperm.nodup_iff.mpr h.live, ?_⟩
  · have := Future.pull hmade (fun hd => by simp [hkind] at hd) (by rw [hkind]; exact h.future)
    rwa [hkind] at this
  · rw [hmade.before, hkind]
    rfl

theorem redo_deletion {millis : Int64} (h : Tracks m hist place (A ++ N ++ B))
    (hredo : m.redo = id :: rest) (hmade : Made m.entries id entry edit A N B) (hkind : entry.kind = .deletion)
    (hback : ∀ (j : Nat) (n : Name), N[j]? = some n → n.owner = none → entry.positions[j]? = some (place n))
    (hfuture : Future m.entries place rest edits (A ++ B))
    (hpos : m.targetPositions entry 0 entry.targets = some (some positions))
    (hok : m.value.tombstoneRetainedPositions positions millis = some (r, .ok delta)) : Tracks {m with
        value := r
        redo := rest
        redoRunes := redoRunes
        undo := id :: m.undo
        undoRunes := undoRunes} ⟨edit.after, edit :: hist.undo, edits⟩ place (A ++ B) := by
  have he := tombstoneRetainedPositions_spec h.cells.shows.ready hok
  rw [targetPositions_eq place (hmade.targets hkind)
    (fun n hn => h.cells.homes n (by simp [hn])) (by simpa using hback) hpos] at he
  have hperm : (id :: m.undo ++ rest).Perm (m.undo ++ m.redo) := hredo ▸ perm_middle.symm
  refine ⟨(h.cells.remove he).of_perm hperm, ?_, hfuture, hperm.nodup_iff.mpr h.live, ?_⟩
  · have := Past.push (by rw [hkind]; exact h.past) hmade
    rwa [hkind] at this
  · rw [hmade.after, hkind]
    rfl

section
variable (h : Tracks m hist place (A ++ B)) {entry : UndoEntry}
include h

theorem redo_insertion (hredo : m.redo = id :: rest)
    (hmade : Made m.entries id entry edit A N B) (hkind : entry.kind = .insertion)
    (hfuture : Future m.entries place rest edits (A ++ N ++ B))
    (hanchor : m.anchorOffset entry = edit.offset)
    (hok : m.value.insertAfter entry.predecessor entry.value millis = some (r, .ok delta)) :
    ∃ place', Tracks {m with
        value := r
        entries := m.entries.modify id fun e => {e with positions := sortedDeltaPositions delta}
        owners := registerFrom (unregister m.owners entry.positions) id 0 (sortedDeltaPositions delta)
        redo := rest
        redoRunes := redoRunes
        undo := id :: m.undo
        undoRunes := undoRunes} ⟨edit.after, edit :: hist.undo, edits⟩ place' (A ++ N ++ B) := by
  obtain ⟨chain, hval, he, hdelta⟩ := insertAfter_spec h.cells.shows.ready hmade.anchor hok
  rw [sortedDeltaPositions_eq he hdelta]
  obtain ⟨entries', hentries'⟩ : ∃ entries', entries' =
    m.entries.modify id fun e => {e with positions := chain.map Prod.fst} := ⟨_, rfl⟩
  rw [← hentries']
  have hperm : (id :: m.undo ++ rest).Perm (m.undo ++ m.redo) := hredo ▸ perm_middle.symm
  have hlive : (id :: (m.undo ++ rest)).Nodup := hperm.nodup_iff.mpr h.live
  obtain ⟨hnot, _⟩ := nodup_cons.mp hlive
  have hidlen : (chain.map Prod.fst).length = entry.value.length := by rw [← hval]; simp
  have hN := hmade.block hkind
  have hself : entries'[id]? = some {entry with positions := chain.map Prod.fst} := by
    rw [hentries', getElem?_modify, hmade.found]
    simp
  have hother : ∀ e, e ≠ id → entries'[e]? = m.entries[e]? := by
    intro e hne
    rw [hentries']
    simp [Ne.symm hne]
  have hkeeps : Keeps m.entries entries' := by
    rw [hentries']
    refine Keeps.modify (f := fun _ => chain.map Prod.fst) fun e hfound => ?_
    rw [hmade.found, some.injEq] at hfound
    rw [← hfound, hmade.length, hN, length_block]
    exact hidlen
  have hmade' : Made entries' id {entry with positions := chain.map Prod.fst} edit A N B := by
    refine ⟨hself, hmade.anchor, hmade.offset, hmade.value, ?_, hmade.block, hmade.targets, hmade.before, hmade.after⟩
    rw [hN, length_block]
    exact hidlen
  have hpast' : Past entries' (id :: m.undo) (edit :: hist.undo) (A ++ N ++ B) := by
    have := @Past.push entries' m.undo hist.undo id {entry with positions := chain.map Prod.fst} edit
      A N B (by rw [hkind]; exact h.past.keeps hkeeps) hmade'
    rwa [hkind] at this
  have hnodup := hpast'.nodup (nodup_cons.mpr
    ⟨fun hm => hnot (mem_append_left _ hm), (nodup_append.mp h.live).1⟩)
  have hrune : N.map rune = chain.map Prod.snd := by rw [← hmade.value, hval]
  have hforeign : ∀ n ∈ A ++ B, ∀ o, n.owner = some o → o.entry ≠ id := by
    intro n hn o ho hc
    exact h.not_redo hn ho (by simp [hc, hredo])
  have hnote : Noted m.value m.entries entries' m.owners
      (registerFrom (unregister m.owners entry.positions) id 0 (chain.map Prod.fst))
      (id :: m.undo ++ rest) place N (chain.map Prod.fst) (A ++ B) := by
    rw [hN]
    refine .block (fun j => by rw [positionOf, hself]; rfl) (fun n hn o ho => ?_) he.fresh hidlen
      (fun n hn => ⟨h.fresh he.fresh hn, getElem?_unregister_of_not_mem fun hm => ?_⟩)
      (fun _ => mem_of_mem_unregister) fun e hm hid hk j x hx => ?_
    · rw [positionOf, hother _ (hforeign n hn o ho)]
      rfl
    · obtain ⟨j, hj⟩ := mem_iff_getElem?.mp hm
      have hstored : positionOf m.entries ⟨id, j⟩ = some (place n) := by
        rw [positionOf, hmade.found]
        exact hj
      refine h.cells.not_place (by simp [hredo]) (by simp [kindOf, hmade.found, hkind]) hstored
        (fun n' hn' ho' => ?_) hn rfl
      exact hforeign n' hn' _ ho' rfl
    rw [kindOf, hother e hid] at hk
    rw [positionOf, hother e hid] at hx
    exact h.cells.stale e (hperm.mem_iff.mp hm) hk j x hx
  refine ⟨_, h.cells.restore he (hanchor.trans hmade.offset) hrune hnodup hnote, hpast', ?_, hlive, ?_⟩
  · refine hfuture.keeps hkeeps (fun e hm _ => hother e ?_) fun n _ hbase => rename_of_not_mem ?_
    · rintro rfl
      exact hnot (mem_append_right _ hm)
    intro hm
    rw [hN] at hm
    obtain ⟨j, v, _, rfl⟩ := mem_block hm
    simp [owner] at hbase
  · rw [hmade.after, hkind]
    rfl

/-- The entry of a name in the undone part of the text: an insertion further down the stack,
which still has the old, deleted position. -/
theorem old_position (hundo : m.undo = id :: rest)
    (hpast : Past m.entries rest edits (A ++ N ++ B)) (hnodup : (A ++ N ++ B).Nodup)
    (hn : n ∈ N) {o : PositionOwner} (ho : n.owner = some o) :
    o.entry ∈ rest ∧ (∀ n' ∈ A ++ B, n'.owner ≠ some o) ∧
      ∃ old, positionOf m.entries o = some old ∧ old ∈ m.value.tombstones := by
  have hmem : n ∈ A ++ N ++ B := by simp [hn]
  obtain ⟨hrest, entry, v, hfound, hkind, hlen, hv, _⟩ := hpast.owned hmem ho
  have hnone : ∀ n' ∈ A ++ B, n'.owner ≠ some o := by
    intro n' hn' ho'
    have heq := h.past.eq_of_owner hpast hn' hmem ho' ho
    exact (nodup_append.mp ((perm_names A N B).nodup_iff.mp hnodup)).2.2 n hn n' hn' heq.symm
  have hj : o.index < entry.positions.length := hlen ▸ (List.getElem?_eq_some_iff.mp hv).1
  have hold : positionOf m.entries o = some entry.positions[o.index] := by
    rw [positionOf, hfound]
    exact getElem?_eq_getElem hj
  refine ⟨hrest, hnone, _, hold, ?_⟩
  rcases h.cells.stale o.entry (by rw [hundo]; simp [hrest]) (by simp [kindOf, hfound, hkind])
    o.index _ hold with ht | ⟨n', hn', ho'⟩
  · exact ht
  · exact absurd ho' (hnone n' hn')

theorem undo_deletion (hundo : m.undo = id :: rest)
    (hmade : Made m.entries id entry edit A N B) (hkind : entry.kind = .deletion)
    (hpast : Past m.entries rest edits (A ++ N ++ B)) (hanchor : m.anchorOffset entry = edit.offset)
    (hok : m.value.insertAfter entry.predecessor entry.value millis = some (r, .ok delta))
    (hm : retarget {m with value := r} id 0
      ((sortedDeltaPositions delta).zip entry.targets) = some m') : ∃ place', Tracks {m' with
        undo := rest
        undoRunes := undoRunes
        redo := id :: m'.redo
        redoRunes := redoRunes} ⟨edit.before, edits, edit :: hist.redo⟩ place' (A ++ N ++ B) := by
  obtain ⟨chain, hval, he, hdelta⟩ := insertAfter_spec h.cells.shows.ready hmade.anchor hok
  rw [sortedDeltaPositions_eq he hdelta] at hm
  obtain ⟨ids, hids⟩ : ∃ ids, ids = chain.map Prod.fst := ⟨_, rfl⟩
  rw [← hids] at hm
  have hfresh : FreshTags m.value.nodes m.value.tombstones ids := hids ▸ he.fresh
  have hrune : N.map rune = chain.map Prod.snd := by rw [← hmade.value, hval]
  have hlenN : N.length = ids.length := by simpa [hids] using congrArg List.length hrune
  have hlent : entry.targets.length = N.length := by
    simpa using congrArg List.length (hmade.targets hkind)
  have hperm : (rest ++ id :: m.redo).Perm (m.undo ++ m.redo) := hundo ▸ perm_middle
  obtain ⟨hnot, hlive₀⟩ := nodup_cons.mp (hundo ▸ h.live)
  have hnodup := hpast.nodup (nodup_append.mp hlive₀).1
  have hNn : N.Nodup := hnodup.sublist (by simp)
  -- the targets are the owners of the names, index by index
  have htarget : ∀ (j : Nat) (n : Name), N[j]? = some n →
      ∃ t, entry.targets[j]? = some t ∧ t.owner = n.owner := by
    intro j n hj
    have := congrArg (·[j]?) (hmade.targets hkind)
    simp only [getElem?_map, hj] at this
    exact map_eq_some_iff.mp this
  have hzip : ∀ x o, (x, UndoTarget.owned o) ∈ ids.zip entry.targets → ∃ n ∈ N, n.owner = some o := by
    intro x o hx
    have hm := mem_map_of_mem (f := UndoTarget.owner) (of_mem_zip hx).2
    rw [hmade.targets hkind] at hm
    exact mem_map.mp hm
  have hfst : (ids.zip entry.targets).map Prod.fst = ids := map_fst_zip (by omega)
  have hret : Returned m.entries id (ids.zip entry.targets) := by
    refine ⟨by rw [hfst]; exact hfresh.ascending.imp ne_of_lt, ?_, fun x o hx => ?_⟩
    · have hsnd : (ids.zip entry.targets).map Prod.snd = entry.targets := map_snd_zip (by omega)
      have howners : (entry.targets.map UndoTarget.owner).Pairwise fun a b => ∀ o, a = some o → b ≠ some o := by
        rw [hmade.targets hkind, pairwise_map]
        exact hNn.imp_of_mem fun hn hn' hne o ho ho' =>
          hne (hpast.eq_of_owner hpast (by simp [hn]) (by simp [hn']) ho ho')
      rw [← hsnd, pairwise_map, pairwise_map] at howners
      exact howners.imp fun hne o ho ho' => hne o (by rw [ho]; rfl) (by rw [ho']; rfl)
    obtain ⟨n, hn, ho⟩ := hzip x o hx
    obtain ⟨hrest, _, old, hold, ht⟩ := h.old_position hundo hpast hnodup hn ho
    refine ⟨fun hc => hnot (hc ▸ mem_append_left _ hrest), old, hold, ?_⟩
    rw [hfst]
    exact fun hm => hfresh.shown old hm ht
  have hr := retarget_spec (m := {m with value := r}) hret hm
  have hself : ∀ e, kindOf m.entries e = some .insertion → e ≠ id := by
    rintro e hk rfl
    rw [kindOf, hmade.found, map_some, hkind] at hk
    cases hk
  have hnote : Noted m.value m.entries m'.entries m.owners m'.owners (rest ++ id :: m.redo) place N
      ids (A ++ B) := by
    refine ⟨fun j n o hj ho => ?_, fun n hn o ho => ?_, fun j n x hj hx => ?_, fun n hn => ?_,
      fun x hx => ?_, fun e hmem hk j x hx => ?_⟩
    · obtain ⟨t, ht, hto⟩ := htarget j n hj
      have hjl : j < ids.length := hlenN ▸ (List.getElem?_eq_some_iff.mp hj).1
      cases t with
      | external p => simp [UndoTarget.owner, ho] at hto
      | owned o' =>
        rw [ho] at hto
        cases hto
        rw [getElem?_eq_getElem hjl]
        exact (hr.owned ids[j] o (mem_of_getElem? (getElem?_zip_eq_some.mpr
          ⟨getElem?_eq_getElem hjl, ht⟩))).1
    · refine hr.other o (fun x hx => ?_) fun hc => ?_
      · obtain ⟨n', hn', ho'⟩ := hzip x o hx
        exact (h.old_position hundo hpast hnodup hn' ho').2.1 n hn ho
      · obtain ⟨_, e, _, hfound, hk, _⟩ := h.past.owned hn ho
        exact absurd hc (hself _ (by simp [kindOf, hfound, hk]))
    · obtain ⟨t, ht, hto⟩ := htarget j n hj
      cases t with
      | external p =>
        have hx' := (hr.external j x p (getElem?_zip_eq_some.mpr ⟨hx, ht⟩)).1
        rw [hx', ← hto]
        refine not_mem_iff.mp fun hmem => ?_
        exact hfresh.not_mem (mem_of_getElem? hx) (h.cells.known x hmem)
      | owned o =>
        rw [← hto]
        exact (hr.owned x o (mem_of_getElem? (getElem?_zip_eq_some.mpr ⟨hx, ht⟩))).2
    · refine hr.kept (place n) (hfst.symm ▸ h.fresh hfresh hn) fun x o hx hc => ?_
      obtain ⟨n', hn', ho'⟩ := hzip x o hx
      obtain ⟨_, _, old, hold, ht⟩ := h.old_position hundo hpast hnodup hn' ho'
      rw [show positionOf m.entries o = some (place n) from hc, some.injEq] at hold
      exact (h.cells.shows.placed hn).2 (hold ▸ ht)
    · have := hr.known x hx
      rwa [hfst] at this
    have hmem' : e ∈ m.undo ++ m.redo := hperm.mem_iff.mp hmem
    have hk' : kindOf m.entries e = some .insertion := by
      have hlt := h.found hmem'
      obtain ⟨ps, hps, _⟩ := hr.keeps e _ (getElem?_eq_getElem hlt)
      rw [kindOf, hps] at hk
      rw [kindOf, getElem?_eq_getElem hlt]
      exact hk
    by_cases hto : ∃ y, (y, UndoTarget.owned ⟨e, j⟩) ∈ ids.zip entry.targets
    · obtain ⟨y, hy⟩ := hto
      obtain ⟨n, hn, ho⟩ := hzip y _ hy
      exact .inr ⟨n, .inr hn, ho⟩
    have hsame := hr.other ⟨e, j⟩ (fun y hy => hto ⟨y, hy⟩) fun hc => absurd hc (hself e hk')
    rw [hsame] at hx
    rcases h.cells.stale e hmem' hk' j x hx with ht | ⟨n, hn, ho⟩
    · exact .inl ht
    · exact .inr ⟨n, .inl hn, ho⟩
  have hkeeps : Keeps m.entries m'.entries := hr.keeps
  have hvalue : m'.value = r := by rw [hr.rest]
  have hredo : m'.redo = m.redo := by rw [hr.rest]
  refine ⟨rename place N ids, ?_, hpast.keeps hkeeps, ?_, ?_, ?_⟩
  · have := h.cells.restore he (hanchor.trans hmade.offset) hrune hnodup (hids ▸ hnote)
    rw [← hids] at this
    simpa only [hvalue, hredo] using this
  · rw [hredo]
    obtain ⟨positions, hmade'⟩ := hmade.keeps hkeeps
    have hback : ∀ (j : Nat) (n : Name), N[j]? = some n → n.owner = none →
        positions[j]? = some (rename place N ids n) := by
      intro j n hj hn
      obtain ⟨t, ht, hto⟩ := htarget j n hj
      cases t with
      | owned o => simp [UndoTarget.owner, hn] at hto
      | external p =>
        have hx := (hr.external j _ p (getElem?_zip_eq_some.mpr ⟨rename_getElem place hNn hlenN hj, ht⟩)).2
        have hjl : j < entry.positions.length := hmade.length ▸ (List.getElem?_eq_some_iff.mp hj).1
        have hsome := hx (by simp [positionOf, hmade.found, hjl])
        rw [Nat.zero_add, positionOf, hmade'.found] at hsome
        exact hsome
    have hfuture : Future m'.entries (rename place N ids) m.redo hist.redo (A ++ B) := by
      refine h.future.keeps hkeeps (fun e hmem _ => hr.entry e ?_ fun x o hx hc => ?_)
        fun n hn _ => rename_of_not_mem fun hm => ?_
      · rintro rfl
        exact hnot (mem_append_right _ hmem)
      · obtain ⟨n, hn, ho⟩ := hzip x o hx
        have := (h.old_position hundo hpast hnodup hn ho).1
        exact (nodup_append.mp hlive₀).2.2 _ this _ hmem hc
      · exact (nodup_append.mp ((perm_names A N B).nodup_iff.mp hnodup)).2.2 n hm n hn rfl
    have := Future.pull hmade' (fun _ => hback) (by rw [hkind]; exact hfuture)
    rwa [hkind] at this
  · rw [hredo]
    exact hperm.nodup_iff.mpr h.live
  · rw [hmade.before, hkind]
    rfl

end

section
variable (h : Tracks m hist place names)
include h

theorem undoLast (hanch : anchored m hist (.undo millis) = true)
    (hok : m.undoLast millis = some (m', .ok delta)) :
    ∃ place' names', Tracks m' (hist.call (.undo millis)) place' names' := by
  unfold UndoManager.undoLast at hok
  cases hundo : m.undo with
  | nil => simp [hundo] at hok
  | cons id rest =>
    obtain ⟨entry, edit, edits, A, N, B, hedits, hnames, hmade, hpast⟩ := (hundo ▸ h.past).of_cons
    simp only [hundo, hmade.found, bind_eq_bind, bind_some] at hok
    obtain ⟨⟨m₁, res⟩, hentry, hok⟩ := bind_eq_some_iff.mp hok
    rcases res with err | delta₁
    · simp at hok
    cases hok
    have hcall : hist.call (.undo millis) = ⟨edit.before, edits, edit :: hist.redo⟩ := by
      rw [History.call, hedits]
    rw [hcall]
    unfold undoEntry at hentry
    cases hkind : entry.kind with
    | insertion =>
      rw [hkind] at hnames hpast hentry
      subst hnames
      obtain ⟨⟨r, res⟩, hr, hentry⟩ := bind_eq_some_iff.mp hentry
      cases hentry
      exact ⟨place, _, h.undo_insertion hundo hmade hpast hkind hr⟩
    | deletion =>
      rw [hkind] at hnames hpast hentry
      subst hnames
      have hanchor : m.anchorOffset entry = edit.offset := by
        simpa [anchored, hundo, hedits, hmade.found, hkind] using hanch
      obtain ⟨⟨r, res⟩, hr, hentry⟩ := bind_eq_some_iff.mp hentry
      rcases res with err | delta₂
      · simp at hentry
      dsimp only at hentry
      split_ifs at hentry with hlen
      · simp at hentry
      obtain ⟨m₂, hm₂, hentry⟩ := bind_eq_some_iff.mp hentry
      cases hentry
      obtain ⟨place', ht⟩ := h.undo_deletion hundo hmade hkind hpast hanchor hr hm₂
      exact ⟨place', _, ht⟩

theorem redoLast (hanch : anchored m hist (.redo millis) = true)
    (hok : m.redoLast millis = some (m', .ok delta)) :
    ∃ place' names', Tracks m' (hist.call (.redo millis)) place' names' := by
  unfold UndoManager.redoLast at hok
  cases hredo : m.redo with
  | nil => simp [hredo] at hok
  | cons id rest =>
    obtain ⟨entry, edit, edits, A, N, B, hedits, hnames, hmade, hback, hfuture⟩ :=
      (hredo ▸ h.future).of_cons
    simp only [hredo, hmade.found, bind_eq_bind, bind_some] at hok
    obtain ⟨⟨m₁, res⟩, hentry, hok⟩ := bind_eq_some_iff.mp hok
    rcases res with err | delta₁
    · simp at hok
    cases hok
    have hcall : hist.call (.redo millis) = ⟨edit.after, edit :: hist.undo, edits⟩ := by
      rw [History.call, hedits]
    rw [hcall]
    unfold redoEntry at hentry
    cases hkind : entry.kind with
    | insertion =>
      rw [hkind] at hnames hfuture hentry
      subst hnames
      have hanchor : m.anchorOffset entry = edit.offset := by
        simpa [anchored, hredo, hedits, hmade.found, hkind] using hanch
      obtain ⟨⟨r, res⟩, hr, hentry⟩ := bind_eq_some_iff.mp hentry
      rcases res with err | delta₂
      · simp at hentry
      cases hentry
      obtain ⟨place', ht⟩ := h.redo_insertion hredo hmade hkind hfuture hanchor hr
      exact ⟨place', _, ht⟩
    | deletion =>
      rw [hkind] at hnames hfuture hentry
      subst hnames
      obtain ⟨positions, hpos, hentry⟩ := bind_eq_some_iff.mp hentry
      cases positions with
      | none => simp at hentry
      | some positions =>
        obtain ⟨⟨r, res⟩, hr, hentry⟩ := bind_eq_some_iff.mp hentry
        cases hentry
        exact ⟨place, _, h.redo_deletion hredo hmade hkind (hback hkind) hfuture hpos hr⟩

theorem call {c : Call} (hfit : m.fits c = true)
    (hanch : anchored m hist c = true) (hok : m.call c = some (m', .ok delta)) :
    ∃ place' names', Tracks m' (hist.call c) place' names' := by
  cases c with
  | insert offset value millis => exact h.insert hfit hok
  | delete offset count millis => exact h.delete hfit hok
  | undo millis => exact h.undoLast hanch hok
  | redo millis => exact h.redoLast hanch hok

theorem session {calls : List Call} {hist' : History}
    (hrun : session anchored calls (m, hist) = some (m', hist')) :
    ∃ place' names', Tracks m' hist' place' names' := by
  induction calls generalizing m hist place names with
  | nil =>
    cases hrun
    exact ⟨place, names, h⟩
  | cons c calls ih =>
    unfold Text.session at hrun
    split_ifs at hrun with hc
    obtain ⟨hfit, hanch⟩ := Bool.and_eq_true_iff.mp hc
    split at hrun
    · rename_i m₁ delta hok
      obtain ⟨place₁, names₁, h₁⟩ := h.call hfit hanch hok
      exact ih h₁ hrun
    · simp at hrun

end

/-- A new manager knows the visible runes by the positions that it finds them at. -/
theorem new {options : UndoOptions} {text : List Rune} (hr : Ready r)
    (hm : newUndoManagerWithOptions r options = .ok m) (htext : r.visibleRunes = some text) :
    ∃ place names, Tracks m ⟨text, [], []⟩ place names := by
  unfold newUndoManagerWithOptions at hm
  split_ifs at hm
  cases hm
  let find (p : Position) : Name := .base p (r.runeAt p)
  let place : Name → Position
    | .base p _ => p
    | .owned _ _ _ => .zero
  have hplace : (r.visible.map find).map place = r.visible := by
    rw [List.map_map]
    exact map_id _
  have hbase : ∀ n ∈ r.visible.map find, ∃ p, n = find p := by
    intro n hn
    obtain ⟨p, _, rfl⟩ := mem_map.mp hn
    exact ⟨p, rfl⟩
  have hnodup : (r.visible.map find).Nodup := by
    refine List.Nodup.of_map place ?_
    rw [hplace]
    exact nodup_projection hr.inv.indexed.forested
  refine ⟨place, r.visible.map find, ⟨⟨hr, hplace.symm, fun n hn => ?_⟩, hnodup, fun n hn o ho => ?_,
    fun n hn => ?_, by simp, by simp⟩, .start (fun n hn => ?_) hnodup, .done, by simp, ?_⟩
  · obtain ⟨p, rfl⟩ := hbase n hn
    rfl
  · obtain ⟨p, rfl⟩ := hbase n hn
    cases ho
  · obtain ⟨p, rfl⟩ := hbase n hn
    simp [find, owner]
  · obtain ⟨p, rfl⟩ := hbase n hn
    rfl
  rw [visibleRunes_eq hr.inv, some.injEq] at htext
  rw [← htext, List.map_map]
  rfl

end Tracks

/-- A text replica with nothing pending is edited through one manager only. As long as
re-insertions find their anchors where the edit was made, its text is always the one that the
history gives. -/
theorem anchored_session_is_history {r : RGA} {options : UndoOptions} {text : List Rune}
    {calls : List Call} {hist : History} (hr : Reachable Onward r) (hp : r.pending = ∅)
    (hm : newUndoManagerWithOptions r options = .ok m) (htext : r.visibleRunes = some text)
    (hrun : session anchored calls (m, ⟨text, [], []⟩) = some (m', hist)) :
    m'.value.visibleRunes = some hist.present := by
  obtain ⟨place, names, h⟩ := Tracks.new (hr.ready hp) hm htext
  obtain ⟨place', names', h'⟩ := h.session hrun
  exact h'.text

/-- A session on a new, empty replica. -/
def newSession (guard : UndoManager → History → Call → Bool) (calls : List Call) :
    Option (RGA × UndoManager × UndoManager × History) := do
  let r ← newWith [7] []
  match newUndoManagerWithOptions r .default with
  | .ok m => return (r, m, ← session guard calls (m, ⟨[], [], []⟩))
  | .error _ => none

theorem newSession_spec {guard : UndoManager → History → Call → Bool} {calls : List Call} {text present : List Rune}
    (h : (newSession guard calls).map (fun p => (p.1.pending.size, p.1.visibleRunes, p.2.2.1.value.visibleRunes,
      p.2.2.2.present)) = some (0, some [], some text, present)) :
    ∃ r m m' hist, Reachable Onward r ∧ r.pending = ∅ ∧ newUndoManagerWithOptions r .default = .ok m ∧
      r.visibleRunes = some [] ∧ session guard calls (m, ⟨[], [], []⟩) = some (m', hist) ∧
      m'.value.visibleRunes = some text ∧ hist.present = present := by
  obtain ⟨⟨r, m, m', hist⟩, hsession, h⟩ := map_eq_some_iff.mp h
  simp only [Prod.mk.injEq] at h
  obtain ⟨hpend, htext, hvis, hpresent⟩ := h
  rw [newSession] at hsession
  obtain ⟨r₁, hr, hsession⟩ := bind_eq_some_iff.mp hsession
  split at hsession
  · rename_i m₁ hm
    obtain ⟨s, hs, hsession⟩ := bind_eq_some_iff.mp hsession
    cases hsession
    exact ⟨r, m, m', hist, reachable_newWith hr, Std.ExtTreeMap.eq_empty_iff_size_eq_zero.mpr hpend, hm, htext, hs,
      hvis, hpresent⟩
  · cases hsession

/-- Insert "abc", delete the "b", undo both, redo both: "ac". -/
theorem anchored_session_is_history_deletion :
    ∃ r m m' hist, Reachable Onward r ∧ r.pending = ∅ ∧ newUndoManagerWithOptions r .default = .ok m ∧
      session anchored [.insert 0 [97, 98, 99] fun _ => 0, .delete 1 1 0, .undo fun _ => 0,
        .undo fun _ => 0, .redo fun _ => 0, .redo fun _ => 0] (m, ⟨[], [], []⟩) = some (m', hist) ∧
      hist.present = [97, 99] ∧ m'.value.visibleRunes = some hist.present := by
  obtain ⟨r, m, m', hist, hr, hp, hm, htext, hrun, -, hpresent⟩ := @newSession_spec anchored
    [.insert 0 [97, 98, 99] fun _ => 0, .delete 1 1 0, .undo fun _ => 0, .undo fun _ => 0, .redo fun _ => 0,
      .redo fun _ => 0] [97, 99] [97, 99] (by decide +kernel)
  exact ⟨r, m, m', hist, hr, hp, hm, hrun, hpresent, anchored_session_is_history hr hp hm htext hrun⟩

/-- Insert "ab", insert "x" between them, undo both, redo both: the anchor of the "x" is the
first "a", which is deleted and stands in front of the new "ab" no more. -/
theorem redo_behind_stale_anchor :
    ∃ r m m' hist, Reachable Onward r ∧ r.pending = ∅ ∧ newUndoManagerWithOptions r .default = .ok m ∧
      r.visibleRunes = some [] ∧
      session (fun _ _ _ => true) [.insert 0 [97, 98] fun _ => 0, .insert 1 [120] fun _ => 0,
        .undo fun _ => 0, .undo fun _ => 0, .redo fun _ => 0, .redo fun _ => 0]
        (m, ⟨[], [], []⟩) = some (m', hist) ∧
      m'.value.visibleRunes = some [97, 98, 120] ∧ hist.present = [97, 120, 98] :=
  newSession_spec (by decide +kernel)

end Crdt.Text
