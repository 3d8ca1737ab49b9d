import BloomServer.DbLayout

/-! The hash chains and the free list, as lists of the records they run through. -/
namespace BloomServer
open LinkedChain

/-- A null pointer is 0. -/
def link (p : ℕ) : Option ℕ := if p = 0 then none else some p

theorem link_of_ne {p : ℕ} (h : p ≠ 0) : link p = some p := if_neg h

theorem eq_of_link_some {p q : ℕ} (h : link p = some q) : p ≠ 0 ∧ p = q := by
  by_cases null : p = 0
  · subst null
    cases h
  · rw [link_of_ne null] at h
    exact ⟨null, Option.some.inj h⟩

theorem eq_of_link_none {p : ℕ} (h : link p = none) : p = 0 := by
  by_contra other
  rw [link_of_ne other] at h
  cases h

/-- Where the pointer at an offset leads. -/
def Layout.next (L : Layout) (a : ℕ) : Option (Option ℕ) :=
  if L.Cell a then some (link (L.ptr a)) else none

/-- A record on a chain, and its data when it is live. -/
structure Entry where
  offset : ℕ
  record : IndexRec
  data : List UInt8

/-- Which records the chain at a pointer is for. -/
def Belongs (c : ℕ) (r : IndexRec) : Prop :=
  if c = freeOff then r.isfree = 1 else r.isfree = 0 ∧ dbChainOff r.key = c

/-- Data areas that do not overlap. -/
def IndexRec.Clear (r r' : IndexRec) : Prop :=
  r.datoff + r.datlen ≤ r'.datoff ∨ r'.datoff + r'.datlen ≤ r.datoff

/-- What holds of an entry of the chain at a pointer. -/
structure Held (L : Layout) (dat : ByteFile) (c : ℕ) (e : Entry) : Prop where
  record : L.record e.offset = some e.record
  belongs : Belongs c e.record
  area : e.record.datoff + e.record.datlen ≤ dat.size
  used : c ≠ freeOff → e.record.datlenU = e.data.length
  data : c ≠ freeOff → dat.At e.record.datoff e.data

/-- The chains, by the offset of their first pointer. -/
structure Threads (L : Layout) (dat : ByteFile) (chain : ℕ → List Entry) : Prop where
  linked : ∀ c, Head c → Chain L.next (some c) (c :: (chain c).map Entry.offset)
  held : ∀ c, Head c → ∀ e ∈ chain c, Held L dat c e
  apart : ∀ c c', Head c → Head c' → c ≠ c' → ∀ e ∈ chain c, ∀ e' ∈ chain c',
    e.offset ≠ e'.offset ∧ e.record.Clear e'.record
  areas : ∀ c, Head c → ∀ e ∈ chain c, ∀ e' ∈ chain c, e.offset ≠ e'.offset →
    e.record.Clear e'.record

section Next

variable {L : Layout} {a b v offset : ℕ} {r : IndexRec}

theorem next_cell (cell : L.Cell a) : L.next a = some (link (L.ptr a)) := if_pos cell

theorem cell_of_record (held : L.record offset = some r) : L.Cell offset :=
  Or.inr (Option.isSome_iff_exists.mpr ⟨r, held⟩)

theorem ptr_setPtr_self : (L.setPtr a v).ptr a = v := by
  change Function.update L.ptr a v a = v
  rw [Function.update_self]

theorem ptr_setPtr_ne (other : b ≠ a) : (L.setPtr a v).ptr b = L.ptr b := by
  change Function.update L.ptr a v b = _
  rw [Function.update_of_ne other]

theorem ptr_put_self : (L.put offset r v).ptr offset = v := by
  change Function.update L.ptr offset v offset = v
  rw [Function.update_self]

theorem ptr_put_ne (other : b ≠ offset) : (L.put offset r v).ptr b = L.ptr b := by
  change Function.update L.ptr offset v b = _
  rw [Function.update_of_ne other]

theorem record_put_self : (L.put offset r v).record offset = some r := by
  change Function.update L.record offset (some r) offset = _
  rw [Function.update_self]

theorem record_put_ne (other : b ≠ offset) : (L.put offset r v).record b = L.record b := by
  change Function.update L.record offset (some r) b = _
  rw [Function.update_of_ne other]

theorem cell_put (cell : L.Cell b) : (L.put offset r v).Cell b := by
  by_cases same : b = offset
  · subst same
    exact cell_of_record record_put_self
  · unfold Layout.Cell
    rw [record_put_ne same]
    exact cell

theorem next_setPtr_self (cell : L.Cell a) : (L.setPtr a v).next a = some (link v) := by
  have held : (L.setPtr a v).Cell a := cell
  rw [next_cell held, ptr_setPtr_self]

theorem next_setPtr_ne (other : b ≠ a) : (L.setPtr a v).next b = L.next b := by
  rw [Layout.next, Layout.next, ptr_setPtr_ne other]
  rfl

theorem next_put_self : (L.put offset r v).next offset = some (link v) := by
  rw [next_cell (cell_of_record record_put_self), ptr_put_self]

theorem next_put_ne (other : b ≠ offset) : (L.put offset r v).next b = L.next b := by
  have cells : (L.put offset r v).Cell b ↔ L.Cell b := by
    unfold Layout.Cell
    rw [record_put_ne other]
  unfold Layout.next
  rw [ptr_put_ne other]
  exact if_congr cells rfl rfl

/-- No record where a pointer of the table is. -/
def Layout.Behind (L : Layout) : Prop := ∀ o r, L.record o = some r → ¬ Head o

theorem Layout.Behind.put (h : L.Behind) (high : ¬ Head offset) : (L.put offset r v).Behind := by
  intro o q held
  by_cases same : o = offset
  · rw [same]
    exact high
  · rw [record_put_ne same] at held
    exact h o q held

end Next

theorem mem_of_split {α : Type*} {l l₁ l₂ : List α} {a : α} (split : l = l₁ ++ a :: l₂) : a ∈ l := by
  rw [split]
  exact List.mem_append_right l₁ List.mem_cons_self

theorem IndexRec.Clear.symm {r r' : IndexRec} (h : r.Clear r') : r'.Clear r := Or.symm h

theorem Held.congr {L L' : Layout} {dat dat' : ByteFile} {c : ℕ} {e : Entry} (h : Held L dat c e)
    (same : L'.record e.offset = L.record e.offset) (grown : dat.size ≤ dat'.size)
    (kept : dat.At e.record.datoff e.data → dat'.At e.record.datoff e.data) : Held L' dat' c e where
  record := same.trans h.record
  belongs := h.belongs
  area := h.area.trans grown
  used := h.used
  data live := kept (h.data live)

namespace Threads

variable {L L' : Layout} {dat dat' : ByteFile} {chain : ℕ → List Entry} {c a v offset : ℕ}
  {e e' : Entry} {l l₁ l₂ : List Entry} {before : List ℕ} {r : IndexRec} {data : List UInt8}

/-- One chain is replaced. -/
theorem replace (t : Threads L dat chain)
    (linked : Chain L'.next (some c) (c :: l.map Entry.offset)) (held : ∀ e ∈ l, Held L' dat' c e)
    (others : ∀ c', Head c' → c' ≠ c →
      Chain L'.next (some c') (c' :: (chain c').map Entry.offset) ∧ ∀ e ∈ chain c', Held L' dat' c' e)
    (apart : ∀ c', Head c' → c' ≠ c → ∀ e ∈ l, ∀ e' ∈ chain c',
      e.offset ≠ e'.offset ∧ e.record.Clear e'.record)
    (areas : ∀ e ∈ l, ∀ e' ∈ l, e.offset ≠ e'.offset → e.record.Clear e'.record) :
    Threads L' dat' (Function.update chain c l) := by
  constructor
  · intro c' head'
    by_cases same : c' = c
    · rw [same, Function.update_self]
      exact linked
    · rw [Function.update_of_ne same]
      exact (others c' head' same).1
  · intro c' head'
    by_cases same : c' = c
    · rw [same, Function.update_self]
      exact held
    · rw [Function.update_of_ne same]
      exact (others c' head' same).2
  · intro c₁ c₂ head₁ head₂ differ
    by_cases same₁ : c₁ = c
    · have same₂ : c₂ ≠ c := fun same₂ => differ (same₁.trans same₂.symm)
      rw [same₁, Function.update_self, Function.update_of_ne same₂]
      exact apart c₂ head₂ same₂
    · by_cases same₂ : c₂ = c
      · rw [same₂, Function.update_self, Function.update_of_ne same₁]
        intro e₁ mem₁ e₂ mem₂
        have split := apart c₁ head₁ same₁ e₂ mem₂ e₁ mem₁
        exact ⟨split.1.symm, split.2.symm⟩
      · rw [Function.update_of_ne same₁, Function.update_of_ne same₂]
        exact t.apart c₁ c₂ head₁ head₂ differ
  · intro c' head'
    by_cases same : c' = c
    · rw [same, Function.update_self]
      exact areas
    · rw [Function.update_of_ne same]
      exact t.areas c' head'

theorem nodup (t : Threads L dat chain) (head : Head c) :
    (c :: (chain c).map Entry.offset).Nodup := (t.linked c head).nodup

/-- The pointers a chain runs through. -/
def Runs (chain : ℕ → List Entry) (c a : ℕ) : Prop := a = c ∨ ∃ e ∈ chain c, e.offset = a

theorem mem_cells : a ∈ c :: (chain c).map Entry.offset ↔ Runs chain c a := by
  rw [List.mem_cons, List.mem_map]
  rfl

theorem runs_cell (t : Threads L dat chain) (head : Head c) (runs : Runs chain c a) : L.Cell a := by
  rcases runs with rfl | ⟨e, mem, rfl⟩
  · exact Or.inl head
  · exact cell_of_record (t.held c head e mem).record

/-- No pointer is on two chains. -/
theorem runs_apart (t : Threads L dat chain) (laid : L.Behind)
    {c' : ℕ} (head : Head c) (head' : Head c') (differ : c ≠ c') (runs : Runs chain c a) :
    ¬ Runs chain c' a := by
  intro runs'
  rcases runs with rfl | ⟨e, mem, rfl⟩
  · rcases runs' with same | ⟨e', mem', same⟩
    · exact differ same
    · exact laid _ _ (t.held c' head' e' mem').record (same ▸ head)
  · rcases runs' with same | ⟨e', mem', same⟩
    · exact laid _ _ (t.held c head e mem).record (same ▸ head')
    · exact (t.apart c c' head head' differ e mem e' mem').1 same.symm

theorem runs_pred (split : chain c = l₁ ++ l₂) (pred : c :: l₁.map Entry.offset = before ++ [a]) :
    Runs chain c a := by
  apply mem_cells.mp
  rw [split, List.map_append, ← List.cons_append, pred]
  exact List.mem_append_left _ (List.mem_append_right _ List.mem_cons_self)

/-- The pointer in front of an entry is not its own. -/
theorem pred_ne (t : Threads L dat chain) (head : Head c) (split : chain c = l₁ ++ e :: l₂)
    (pred : c :: l₁.map Entry.offset = before ++ [a]) : a ≠ e.offset := by
  have nodup := t.nodup head
  rw [split, List.map_append, ← List.cons_append, pred] at nodup
  exact (List.nodup_append.mp nodup).2.2 a (List.mem_append_right _ List.mem_cons_self) e.offset
    (List.mem_map_of_mem List.mem_cons_self)

/-- The pointer in front of an entry takes over the pointer of the entry. -/
theorem unlink (t : Threads L dat chain) (laid : L.Behind)
    (head : Head c) (split : chain c = l₁ ++ e :: l₂)
    (pred : c :: l₁.map Entry.offset = before ++ [a]) :
    Threads (L.setPtr a (L.ptr e.offset)) dat (Function.update chain c (l₁ ++ l₂)) := by
  have member {e' : Entry} (mem : e' ∈ l₁ ++ l₂) : e' ∈ chain c := by
    rw [split]
    rcases List.mem_append.mp mem with front | back
    · exact List.mem_append_left _ front
    · exact List.mem_append_right _ (List.mem_cons_of_mem e back)
  have runs : Runs chain c a := runs_pred split pred
  have there : e ∈ chain c := mem_of_split split
  have frame {c' : ℕ} {e' : Entry} (h : Held L dat c' e') :
      Held (L.setPtr a (L.ptr e.offset)) dat c' e' := h.congr rfl (Nat.le_refl _) id
  apply t.replace
  · have walk := t.linked c head
    have nodup := t.nodup head
    have shape : c :: (chain c).map Entry.offset = before ++ a :: e.offset :: l₂.map Entry.offset := by
      rw [split, List.map_append, List.map_cons, ← List.cons_append, pred, List.append_assoc]
      rfl
    rw [shape] at walk nodup
    have rest : c :: (l₁ ++ l₂).map Entry.offset = before ++ a :: l₂.map Entry.offset := by
      rw [List.map_append, ← List.cons_append, pred, List.append_assoc]
      rfl
    rw [rest]
    apply walk.unlink
    · rw [next_setPtr_self (t.runs_cell head runs)]
      exact (next_cell (cell_of_record (t.held c head e there).record)).symm
    · intro q mem
      apply next_setPtr_ne
      intro same
      rw [same] at mem
      have alone := (List.nodup_middle.mp nodup)
      have absent := (List.nodup_cons.mp alone).1
      rcases List.mem_append.mp mem with front | back
      · exact absent (List.mem_append_left _ front)
      · exact absent (List.mem_append_right _ (List.mem_cons_of_mem _ back))
  · exact fun e' mem => frame (t.held c head e' (member mem))
  · intro c' head' differ
    refine ⟨(t.linked c' head').congr ?_, fun e' mem => frame (t.held c' head' e' mem)⟩
    intro q mem
    apply next_setPtr_ne
    intro same
    rw [same] at mem
    exact t.runs_apart laid head head' differ.symm runs (mem_cells.mp mem)
  · exact fun c' head' differ e₁ mem₁ e₂ mem₂ =>
      t.apart c c' head head' differ.symm e₁ (member mem₁) e₂ mem₂
  · exact fun e₁ mem₁ e₂ mem₂ => t.areas c head e₁ (member mem₁) e₂ (member mem₂)

/-- On none of the chains. -/
def Off (chain : ℕ → List Entry) (offset : ℕ) : Prop :=
  ∀ c, Head c → ∀ e ∈ chain c, e.offset ≠ offset

/-- What has been taken off a chain is on none. -/
theorem off_unlinked (t : Threads L dat chain) (head : Head c) (split : chain c = l₁ ++ e :: l₂) :
    Off (Function.update chain c (l₁ ++ l₂)) e.offset := by
  intro c' head' e' mem same
  have there : e ∈ chain c := mem_of_split split
  by_cases here : c' = c
  · rw [here, Function.update_self] at mem
    have nodup := (List.nodup_cons.mp (t.nodup head)).2
    rw [split, List.map_append, List.map_cons] at nodup
    have absent := (List.nodup_cons.mp (List.nodup_middle.mp nodup)).1
    apply absent
    rw [← List.map_append, ← same]
    exact List.mem_map_of_mem mem
  · rw [Function.update_of_ne here] at mem
    exact (t.apart c' c head' head here e' mem e there).1 same

/-- Its data area is clear of those of the others. -/
theorem clear_unlinked (t : Threads L dat chain) (head : Head c) (split : chain c = l₁ ++ e :: l₂) :
    ∀ c', Head c' → ∀ e' ∈ Function.update chain c (l₁ ++ l₂) c', e.record.Clear e'.record := by
  intro c' head' e' mem
  have other := t.off_unlinked head split c' head' e' mem
  have there : e ∈ chain c := mem_of_split split
  by_cases here : c' = c
  · rw [here, Function.update_self] at mem
    apply t.areas c head e there e' _ other.symm
    rw [split]
    rcases List.mem_append.mp mem with front | back
    · exact List.mem_append_left _ front
    · exact List.mem_append_right _ (List.mem_cons_of_mem e back)
  · rw [Function.update_of_ne here] at mem
    exact (t.apart c c' head head' (Ne.symm here) e there e' mem).2

/-- A record on none of the chains may be written, and data that is not theirs. -/
theorem put_off (t : Threads L dat chain) (off : Off chain offset) (high : ¬ Head offset)
    (grown : dat.size ≤ dat'.size)
    (kept : ∀ c, Head c → c ≠ freeOff → ∀ e ∈ chain c, dat'.At e.record.datoff e.data) :
    Threads (L.put offset r v) dat' chain := by
  constructor
  · intro c head
    apply (t.linked c head).congr
    intro q mem
    apply next_put_ne
    intro same
    rcases mem_cells.mp mem with rfl | ⟨e, there, here⟩
    · exact high (same ▸ head)
    · exact off c head e there (here.trans same)
  · intro c head e mem
    have h := t.held c head e mem
    exact ⟨(record_put_ne (off c head e mem)).trans h.record, h.belongs, h.area.trans grown, h.used,
      fun live => kept c head live e mem⟩
  · exact t.apart
  · exact t.areas

/-- A record on none of the chains is put at the front of one. -/
theorem link (t : Threads L dat chain) (laid : L.Behind) (head : Head c)
    (off : Off chain e.offset) (points : L.ptr e.offset = L.ptr c) (held : Held L dat c e)
    (positive : e.offset ≠ 0)
    (clear : ∀ c', Head c' → ∀ e' ∈ chain c', e.record.Clear e'.record) :
    Threads (L.setPtr c e.offset) dat (Function.update chain c (e :: chain c)) := by
  have frame {c' : ℕ} {e' : Entry} (h : Held L dat c' e') :
      Held (L.setPtr c e.offset) dat c' e' := h.congr rfl (Nat.le_refl _) id
  have away : e.offset ≠ c := fun same => laid _ _ held.record (same ▸ head)
  have nodup := t.nodup head
  apply t.replace
  · obtain ⟨q, leads, rest⟩ := (t.linked c head).pop
    apply Chain.cons
    · rw [next_setPtr_self (Or.inl head), link_of_ne positive]
    · apply Chain.cons (q := q)
      · rw [next_setPtr_ne away, next_cell (cell_of_record held.record), points,
          ← next_cell (Or.inl head), leads]
      · apply rest.congr
        intro p mem
        apply next_setPtr_ne
        intro same
        rw [same] at mem
        exact (List.nodup_cons.mp nodup).1 mem
  · intro e' mem
    rcases List.mem_cons.mp mem with rfl | later
    · exact frame held
    · exact frame (t.held c head e' later)
  · intro c' head' differ
    refine ⟨(t.linked c' head').congr ?_, fun e' mem => frame (t.held c' head' e' mem)⟩
    intro q mem
    apply next_setPtr_ne
    intro same
    rw [same] at mem
    exact t.runs_apart laid head head' differ.symm (Or.inl rfl) (mem_cells.mp mem)
  · intro c' head' differ e₁ mem₁ e₂ mem₂
    rcases List.mem_cons.mp mem₁ with rfl | later
    · exact ⟨(off c' head' e₂ mem₂).symm, clear c' head' e₂ mem₂⟩
    · exact t.apart c c' head head' differ.symm e₁ later e₂ mem₂
  · intro e₁ mem₁ e₂ mem₂ differ
    rcases List.mem_cons.mp mem₁ with rfl | later₁
    · rcases List.mem_cons.mp mem₂ with rfl | later₂
      · exact absurd rfl differ
      · exact clear c head e₂ later₂
    · rcases List.mem_cons.mp mem₂ with rfl | later₂
      · exact (clear c head e₁ later₁).symm
      · exact t.areas c head e₁ later₁ e₂ later₂ differ

/-- An entry is exchanged for one with the same data area. -/
theorem exchange (t : Threads L dat chain) (head : Head c) (split : chain c = l₁ ++ e :: l₂)
    (offset : e'.offset = e.offset) (datoff : e'.record.datoff = e.record.datoff)
    (datlen : e'.record.datlen = e.record.datlen) (held : Held L' dat' c e')
    (next : ∀ c', Head c' → ∀ a, Runs chain c' a → L'.next a = L.next a)
    (frame : ∀ c', Head c' → ∀ e₁ ∈ chain c', e₁.offset ≠ e.offset → Held L' dat' c' e₁) :
    Threads L' dat' (Function.update chain c (l₁ ++ e' :: l₂)) := by
  have there : e ∈ chain c := mem_of_split split
  have offsets : (l₁ ++ e' :: l₂).map Entry.offset = (chain c).map Entry.offset := by
    rw [split, List.map_append, List.map_append, List.map_cons, List.map_cons, offset]
  have nodup := (List.nodup_cons.mp (t.nodup head)).2
  rw [split, List.map_append, List.map_cons] at nodup
  have absent := (List.nodup_cons.mp (List.nodup_middle.mp nodup)).1
  rw [← List.map_append] at absent
  have member {e₁ : Entry} (mem : e₁ ∈ l₁ ++ e' :: l₂) :
      e₁ = e' ∨ (e₁ ∈ chain c ∧ e₁.offset ≠ e.offset) := by
    have cases : e₁ = e' ∨ e₁ ∈ l₁ ++ l₂ := by
      rw [List.mem_append, List.mem_cons] at mem
      rw [List.mem_append]
      rcases mem with front | here | back
      · exact Or.inr (Or.inl front)
      · exact Or.inl here
      · exact Or.inr (Or.inr back)
    apply cases.imp_right
    intro other
    constructor
    · rw [split, List.mem_append, List.mem_cons]
      rcases List.mem_append.mp other with front | back
      · exact Or.inl front
      · exact Or.inr (Or.inr back)
    · intro same
      exact absent (same ▸ List.mem_map_of_mem other)
  have area {r : IndexRec} (clear : e.record.Clear r) : e'.record.Clear r := by
    unfold IndexRec.Clear at *
    rwa [datoff, datlen]
  apply t.replace
  · rw [offsets]
    exact (t.linked c head).congr fun a mem => next c head a (mem_cells.mp mem)
  · intro e₁ mem
    rcases member mem with rfl | ⟨stays, other⟩
    · exact held
    · exact frame c head e₁ stays other
  · intro c' head' differ
    refine ⟨(t.linked c' head').congr fun a mem => next c' head' a (mem_cells.mp mem), ?_⟩
    intro e₁ mem
    exact frame c' head' e₁ mem (t.apart c' c head' head differ e₁ mem e there).1
  · intro c' head' differ e₁ mem₁ e₂ mem₂
    rcases member mem₁ with rfl | ⟨stays, _⟩
    · have split := t.apart c c' head head' differ.symm e there e₂ mem₂
      exact ⟨offset ▸ split.1, area split.2⟩
    · exact t.apart c c' head head' differ.symm e₁ stays e₂ mem₂
  · intro e₁ mem₁ e₂ mem₂ differ
    rcases member mem₁ with rfl | ⟨stays₁, other₁⟩
    · rcases member mem₂ with rfl | ⟨stays₂, other₂⟩
      · exact absurd rfl differ
      · exact area (t.areas c head e there e₂ stays₂ other₂.symm)
    · rcases member mem₂ with rfl | ⟨stays₂, other₂⟩
      · exact (area (t.areas c head e there e₁ stays₁ other₁.symm)).symm
      · exact t.areas c head e₁ stays₁ e₂ stays₂ differ

end Threads
end BloomServer
