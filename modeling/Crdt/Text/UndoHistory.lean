import Crdt.Text.UndoCells

/-! Undo and redo as the editor's history.

`History` is what a user expects of Undo and Redo: every edit is kept with the texts before
and after it. An `UndoManager` keeps entries instead, and re-inserts runes behind the position
that an entry recorded. That position may have been given up since: undo two insertions, redo
them, and the second one goes where its old anchor was deleted and not where the anchor's rune
is now (`redo_behind_stale_anchor`). While every re-insertion finds its anchor at the offset of
the edit, the manager and the history agree (`anchored_session_is_history`). -/
namespace Crdt.Text

open Clock Rga List

/-! ### The two machines -/

structure HistoryEdit where
  before : List Rune
  after : List Rune
  offset : Nat
deriving DecidableEq, Repr

structure History where
  present : List Rune
  undo : List HistoryEdit := []
  redo : List HistoryEdit := []
deriving DecidableEq, Repr

/-- A call of the editor. The clock readings are part of it. -/
inductive Call
  | insert (offset : Int) (value : List Rune) (millis : Nat → Int64)
  | delete (offset count : Int) (millis : Int64)
  | undo (millis : Nat → Int64)
  | redo (millis : Nat → Int64)

namespace History

def edit (h : History) (offset : Nat) (after : List Rune) : History where
  present := after
  undo := ⟨h.present, after, offset⟩ :: h.undo
  redo := []

/-- Inserting no text and deleting nothing are no edits. -/
def call (h : History) : Call → History
  | .insert offset value _ =>
    if value = [] then h
    else h.edit offset.toNat
      (h.present.take offset.toNat ++ value ++ h.present.drop offset.toNat)
  | .delete offset count _ =>
    if count = 0 then h
    else h.edit offset.toNat
      (h.present.take offset.toNat ++ h.present.drop (offset.toNat + count.toNat))
  | .undo _ =>
    match h.undo with
    | [] => h
    | e :: rest => ⟨e.before, rest, e :: h.redo⟩
  | .redo _ =>
    match h.redo with
    | [] => h
    | e :: rest => ⟨e.after, e :: h.undo, rest⟩

end History

namespace UndoManager

variable (m : UndoManager)

def call : Call → Option (UndoManager × Except Err Delta)
  | .insert offset value millis => m.insert offset value millis
  | .delete offset count millis => m.delete offset count millis
  | .undo millis => m.undoLast millis
  | .redo millis => m.redoLast millis

/-- The retained history has room for the edit. -/
def fits : Call → Bool
  | .insert _ value _ => decide (value = []) || !m.full value.length
  | .delete _ count _ => decide (count = 0) || !m.full count
  | _ => true

/-- Where the runes of an entry would be re-inserted, counted in visible runes. -/
def anchorOffset (entry : UndoEntry) : Nat :=
  visibleThrough m.value.nodes m.value.tombstones entry.predecessor

end UndoManager

/-- Undoing a deletion and redoing an insertion find the entry's predecessor where the edit
was made. -/
def anchored (m : UndoManager) (h : History) : Call → Bool
  | .undo _ =>
    match m.undo.head?.bind (m.entries[·]?), h.undo.head? with
    | some entry, some e => entry.kind = .insertion || m.anchorOffset entry = e.offset
    | _, _ => true
  | .redo _ =>
    match m.redo.head?.bind (m.entries[·]?), h.redo.head? with
    | some entry, some e => entry.kind = .deletion || m.anchorOffset entry = e.offset
    | _, _ => true
  | _ => true

/-- A session: calls that succeed, within the budgets, each allowed by `guard`. -/
def session (guard : UndoManager → History → Call → Bool) :
    List Call → UndoManager × History → Option (UndoManager × History)
  | [], s => some s
  | c :: rest, (m, h) =>
    if m.fits c && guard m h c then
      match m.call c with
      | some (m, .ok _) => session guard rest (m, h.call c)
      | _ => none
    else none

/-! ### The entries of the stacks -/

/-- The names before an edit that puts in or takes out `N` between `A` and `B`. -/
def UndoKind.earlier : UndoKind → List Name → List Name → List Name → List Name
  | .insertion, A, _, B => A ++ B
  | .deletion, A, N, B => A ++ N ++ B

def UndoKind.later : UndoKind → List Name → List Name → List Name → List Name
  | .insertion, A, N, B => A ++ N ++ B
  | .deletion, A, _, B => A ++ B

def UndoTarget.owner : UndoTarget → Option PositionOwner
  | .owned o => some o
  | .external _ => none

variable {entries entries' : List UndoEntry} {id : Nat} {ids : List Nat} {entry : UndoEntry}
  {edit : HistoryEdit} {edits : List HistoryEdit} {place place' : Name → Position}
  {names A N B : List Name}

/-- The entry `id` stands for an edit of the history. -/
structure Made (entries : List UndoEntry) (id : Nat) (entry : UndoEntry) (edit : HistoryEdit)
    (A N B : List Name) : Prop where
  found : entries[id]? = some entry
  anchor : entry.predecessor = .zero ∨ entry.predecessor.valid = true
  offset : edit.offset = A.length
  value : entry.value = N.map Name.rune
  length : entry.positions.length = N.length
  block : entry.kind = .insertion → N = Name.block id entry.value
  targets : entry.kind = .deletion → entry.targets.map UndoTarget.owner = N.map Name.owner
  before : edit.before = (entry.kind.earlier A N B).map Name.rune
  after : edit.after = (entry.kind.later A N B).map Name.rune

theorem Made.keeps (h : Made entries id entry edit A N B) (hk : Keeps entries entries') :
    ∃ positions, Made entries' id {entry with positions} edit A N B := by
  obtain ⟨positions, he, hlen⟩ := hk id entry h.found
  exact ⟨positions, he, h.anchor, h.offset, h.value, hlen.trans h.length, h.block, h.targets, h.before, h.after⟩

/-- The undo stack, and the names that its edits lead to. -/
inductive Past (entries : List UndoEntry) : List Nat → List HistoryEdit → List Name → Prop
  | start {names : List Name} (base : ∀ n ∈ names, n.owner = none) (nodup : names.Nodup) :
    Past entries [] [] names
  | push {ids : List Nat} {edits : List HistoryEdit} {id : Nat} {entry : UndoEntry}
      {edit : HistoryEdit} {A N B : List Name} (past : Past entries ids edits (entry.kind.earlier A N B))
      (made : Made entries id entry edit A N B) :
    Past entries (id :: ids) (edit :: edits) (entry.kind.later A N B)

namespace Past

section
variable (h : Past entries ids edits names)
include h

theorem keeps (hk : Keeps entries entries') : Past entries' ids edits names := by
  induction h with
  | start base nodup => exact .start base nodup
  | @push ids edits id entry edit A N B past made ih =>
    obtain ⟨positions, made'⟩ := made.keeps hk
    exact @Past.push entries' ids edits id {entry with positions} edit A N B ih made'

theorem found (hid : id ∈ ids) : ∃ entry, entries[id]? = some entry := by
  induction h with
  | start => simp at hid
  | push past made ih =>
    rcases mem_cons.mp hid with rfl | hid
    · exact ⟨_, made.found⟩
    · exact ih hid

/-- An owned name belongs to an insertion of the stack, and its rune to the inserted text. -/
theorem owned {n : Name} (hn : n ∈ names) {o : PositionOwner}
    (ho : n.owner = some o) : o.entry ∈ ids ∧ ∃ entry v, entries[o.entry]? = some entry ∧
      entry.kind = .insertion ∧ entry.positions.length = entry.value.length ∧
      entry.value[o.index]? = some v ∧ n = .owned o.entry o.index v := by
  induction h with
  | start base => simp [base n hn] at ho
  | @push ids edits id entry edit A N B past made ih =>
    by_cases hN : n ∈ entry.kind.earlier A N B
    · obtain ⟨hmem, hrest⟩ := ih hN
      exact ⟨mem_cons_of_mem _ hmem, hrest⟩
    cases hk : entry.kind with
    | insertion =>
      rw [hk] at hn hN
      simp only [UndoKind.earlier, UndoKind.later, mem_append] at hn hN
      have hm : n ∈ N := by tauto
      rw [made.block hk] at hm
      obtain ⟨j, v, hv, rfl⟩ := Name.mem_block hm
      cases ho
      refine ⟨by simp, entry, v, made.found, hk, ?_, hv, rfl⟩
      rw [made.length, made.value, length_map]
    | deletion =>
      rw [hk] at hn hN
      simp only [UndoKind.earlier, UndoKind.later, mem_append] at hn hN
      tauto

theorem nodup (hids : ids.Nodup) : names.Nodup := by
  induction h with
  | start base nodup => exact nodup
  | @push ids edits id entry edit A N B past made ih =>
    obtain ⟨hid, hids⟩ := nodup_cons.mp hids
    have hnames := ih hids
    cases hk : entry.kind with
    | deletion =>
      rw [hk] at hnames
      exact hnames.sublist (by simp [UndoKind.earlier, UndoKind.later])
    | insertion =>
      rw [hk] at hnames past
      have hnew : ∀ n ∈ A ++ B, n ∉ N := by
        intro n hn hm
        rw [made.block hk] at hm
        obtain ⟨j, v, _, rfl⟩ := Name.mem_block hm
        exact hid (past.owned hn rfl).1
      refine (perm_names A N B).nodup_iff.mpr (nodup_append.mpr ⟨?_, hnames, ?_⟩)
      · rw [made.block hk]
        exact Name.nodup_block _ _
      · rintro n hn n' hn' rfl
        exact hnew n hn' hn

end

theorem of_cons (h : Past entries (id :: ids) edits names) : ∃ entry edit edits' A N B,
    edits = edit :: edits' ∧ names = entry.kind.later A N B ∧ Made entries id entry edit A N B ∧
      Past entries ids edits' (entry.kind.earlier A N B) := by
  cases h with
  | push past made => exact ⟨_, _, _, _, _, _, rfl, rfl, made, past⟩

theorem eq_of_owner {ids' : List Nat} {edits' : List HistoryEdit} {names' : List Name}
    (h : Past entries ids edits names) (h' : Past entries ids' edits' names') {n n' : Name}
    (hn : n ∈ names) (hn' : n' ∈ names') {o : PositionOwner} (ho : n.owner = some o)
    (ho' : n'.owner = some o) : n = n' := by
  obtain ⟨_, entry, v, he, _, _, hv, rfl⟩ := h.owned hn ho
  obtain ⟨_, entry', v', he', _, _, hv', rfl⟩ := h'.owned hn' ho'
  rw [he, Option.some.injEq] at he'
  subst he'
  rw [hv, Option.some.injEq] at hv'
  rw [hv']

end Past

/-- The redo stack. A deletion that was undone has the new positions of the runes that no
insertion owns. -/
inductive Future (entries : List UndoEntry) (place : Name → Position) :
    List Nat → List HistoryEdit → List Name → Prop
  | done {names : List Name} : Future entries place [] [] names
  | pull {ids : List Nat} {edits : List HistoryEdit} {id : Nat} {entry : UndoEntry}
      {edit : HistoryEdit} {A N B : List Name} (made : Made entries id entry edit A N B)
      (back : entry.kind = .deletion → ∀ (j : Nat) (n : Name), N[j]? = some n → n.owner = none →
        entry.positions[j]? = some (place n))
      (future : Future entries place ids edits (entry.kind.later A N B)) :
    Future entries place (id :: ids) (edit :: edits) (entry.kind.earlier A N B)

theorem Future.found (h : Future entries place ids edits names) (hid : id ∈ ids) :
    ∃ entry, entries[id]? = some entry := by
  induction h with
  | done => simp at hid
  | pull made back future ih =>
    rcases mem_cons.mp hid with rfl | hid
    · exact ⟨_, made.found⟩
    · exact ih hid

theorem Future.of_cons (h : Future entries place (id :: ids) edits names) :
    ∃ entry edit edits' A N B, edits = edit :: edits' ∧ names = entry.kind.earlier A N B ∧
      Made entries id entry edit A N B ∧
      (entry.kind = .deletion → ∀ (j : Nat) (n : Name), N[j]? = some n → n.owner = none →
        entry.positions[j]? = some (place n)) ∧
      Future entries place ids edits' (entry.kind.later A N B) := by
  cases h with
  | pull made back future => exact ⟨_, _, _, _, _, _, rfl, rfl, made, back, future⟩

theorem Future.keeps (h : Future entries place ids edits names) (hk : Keeps entries entries')
    (hsame : ∀ id ∈ ids, kindOf entries id = some .deletion → entries'[id]? = entries[id]?)
    (hplace : ∀ n ∈ names, n.owner = none → place' n = place n) : Future entries' place' ids edits names := by
  induction h with
  | done => exact .done
  | @pull ids edits id entry edit A N B made back future ih =>
    obtain ⟨positions, made'⟩ := made.keeps hk
    refine @Future.pull entries' place' ids edits id {entry with positions} edit A N B made'
      (fun hd j n hj hn => ?_) (ih ?_ ?_)
    · have hm : n ∈ entry.kind.earlier A N B := by
        rw [show entry.kind = .deletion from hd]
        simp [UndoKind.earlier, mem_of_getElem? hj]
      have hfound := hsame id (by simp) (by rw [kindOf, made.found]; exact congrArg some hd)
      rw [made'.found, made.found, Option.some.injEq] at hfound
      rw [hfound, hplace n hm hn]
      exact back hd j n hj hn
    · exact fun id' hid' => hsame id' (mem_cons_of_mem _ hid')
    intro n hn hbase
    refine hplace n ?_ hbase
    cases hkind : entry.kind with
    | deletion =>
      rw [hkind] at hn
      simp only [UndoKind.earlier, UndoKind.later, mem_append] at hn ⊢
      tauto
    | insertion =>
      rw [hkind] at hn
      simp only [UndoKind.earlier, UndoKind.later, mem_append] at hn ⊢
      have hN : n ∉ N := by
        intro hm
        rw [made.block hkind] at hm
        obtain ⟨j, v, _, rfl⟩ := Name.mem_block hm
        simp [Name.owner] at hbase
      tauto

end Crdt.Text
