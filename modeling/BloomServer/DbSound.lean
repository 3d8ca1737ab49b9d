import BloomServer.DbThreads
import Mathlib.Logic.Function.Basic

/-! What holds of an open store between two operations, and what the searches of `_db_find` and
`_db_findfree_cache` come to. -/
namespace BloomServer
open DecimalText LinkedChain

/-- A free record, as it is kept in memory. -/
def Entry.item (e : Entry) : Fsdbd := ⟨e.offset, e.record.datlen, e.record.idxlenA⟩

/-- The files hold records, chained by their keys or on the free list. -/
structure Sound (db : Db) (L : Layout) (chain : ℕ → List Entry) : Prop where
  laid : LaidOut db.idx L
  threads : Threads L db.dat chain
  idxLen : db.idxLen = db.idx.size
  datLen : db.datLen = db.dat.size
  freeList : db.freeList = (chain freeOff).map Entry.item

/-! ### A new file -/

def Layout.empty : Layout := ⟨fun _ => 0, fun _ => none⟩

theorem idxTemplate_at {c : ℕ} (head : Head c) : idxTemplate.At c (ptrText 0) := by
  have low := head.lt
  have aligned := head.1
  have text : ptrText 0 = List.replicate 8 32 ++ [48] := by decide
  rw [text]
  constructor
  · change c + 9 ≤ idxBase
    unfold ptrSz at low
    omega
  · intro i b place
    have inside : i < 9 := (List.getElem?_eq_some_iff.mp place).1
    unfold ptrSz at low aligned
    unfold idxTemplate
    dsimp only
    rw [if_neg (by omega), if_neg (by omega)]
    unfold ptrSz
    by_cases last : i = 8
    · subst last
      rw [if_pos (by omega)]
      exact Option.some.inj place
    · have blank : (List.replicate 8 32 ++ [48])[i]? = some (32 : UInt8) := by
        rw [List.getElem?_append_left (by rw [List.length_replicate]; omega),
          List.getElem?_replicate, if_pos (by omega)]
      rw [blank] at place
      rw [if_neg (by omega)]
      exact Option.some.inj place

theorem Sound.fresh : Sound Db.fresh Layout.empty fun _ => [] where
  laid := by
    constructor
    · exact Nat.le_refl _
    · exact fun _ => Nat.zero_le _
    · exact fun c head => idxTemplate_at head
    · intro offset r held
      cases held
    · intro offset r held
      cases held
    · intro offset r held
      cases held
    · intro offset r held
      cases held
    · intro offset r offset' r' held
      cases held
    · intro i low high
      exact absurd high (Nat.not_lt.mpr low)
  threads := by
    constructor
    · intro c head
      apply Chain.cons (q := none)
      · exact next_cell (Or.inl head)
      · exact .nil
    · intro c _ e mem
      cases mem
    · intro c c' _ _ _ e mem
      cases mem
    · intro c _ e mem
      cases mem
  idxLen := rfl
  datLen := rfl
  freeList := rfl

/-! ### Writing an index record -/

section Writeidx

variable {db : Db} {dbd : Dbd} {key : List UInt8} {offset ptrval : ℕ} {append : Bool}

/-- The record `_db_writeidx` writes. -/
def Dbd.written (dbd : Dbd) (key : List UInt8) : IndexRec where
  key := key
  idxlen := max dbd.idxlen ((dbd.text key).length + 1)
  idxlenA := max dbd.idxlenA key.length
  datoff := dbd.datoff
  datlen := dbd.datlen
  datlenU := dbd.datlenU
  isfree := dbd.isfree

theorem text_written (dbd : Dbd) (key : List UInt8) : (dbd.written key).text = dbd.text key := by
  have area : max dbd.idxlenA key.length - key.length = dbd.idxlenA - key.length := by omega
  unfold IndexRec.text Dbd.text indexText Dbd.written padRight
  dsimp only
  rw [area]

theorem ten_le_length_text (dbd : Dbd) (key : List UInt8) : 10 ≤ (dbd.text key).length := by
  have p₁ := length_decimal_pos dbd.datoff
  have p₂ := length_decimal_pos dbd.datlen
  have p₃ := length_decimal_pos key.length
  have p₄ := length_decimal_pos dbd.datlenU
  have p₅ := length_decimal_pos dbd.isfree
  rw [Dbd.text, length_indexText]
  omega

theorem line_written (dbd : Dbd) (key : List UInt8) : (dbd.written key).line =
    dbd.text key ++ List.replicate (dbd.idxlen - ((dbd.text key).length + 1)) 32 ++ [10] := by
  have blanks : max dbd.idxlen ((dbd.text key).length + 1) - ((dbd.text key).length + 1) =
      dbd.idxlen - ((dbd.text key).length + 1) := by omega
  rw [IndexRec.line, text_written]
  change dbd.text key ++ List.replicate (max dbd.idxlen ((dbd.text key).length + 1) - _) 32 ++ _ = _
  rw [blanks]

theorem length_line_written (dbd : Dbd) (key : List UInt8) :
    (dbd.written key).line.length = (dbd.written key).idxlen := by
  rw [line_written]
  simp only [List.length_append, List.length_replicate, List.length_singleton, Dbd.written]
  omega

/-- Whether a record goes to the end of the file, asked to or because its text is too long. -/
def Dbd.appends (dbd : Dbd) (key : List UInt8) (append : Bool) : Bool :=
  append || decide (dbd.idxlen < (dbd.text key).length + 1)

theorem dbWriteidx_eq (db : Db) (dbd : Dbd) (key : List UInt8) (offset : ℕ) (append : Bool)
    (small : ptrval ≤ ptrMax) (short : (dbd.text key).length + 1 ≤ idxlenMax) :
    dbWriteidx db dbd key offset append ptrval =
      some (0, { dbd with
          ptrval
          idxbuf := (dbd.written key).line
          idxoff := if dbd.appends key append then db.idxLen else offset },
        { db with
          idx := writeRecord db.idx (if dbd.appends key append then db.idxLen else offset)
            (dbd.written key) ptrval
          idxLen := if dbd.appends key append then db.idxLen + (dbd.written key).extent
            else db.idxLen }) := by
  have low := ten_le_length_text dbd key
  have text : ({ dbd with ptrval } : Dbd).text key = dbd.text key := rfl
  have extent : (dbd.written key).idxlen + ptrSz + idxlenSz = (dbd.written key).extent := by
    unfold IndexRec.extent
    omega
  unfold dbWriteidx
  dsimp only
  rw [if_neg (Nat.not_lt.mpr small), text, if_neg (by omega), if_neg (by unfold idxlenMin; omega),
    ← line_written, length_line_written, extent]
  rfl

theorem dbWriteptr_eq (small : ptrval ≤ ptrMax) :
    dbWriteptr db offset ptrval = some { db with idx := db.idx.pwrite (ptrText ptrval) offset } :=
  if_neg (Nat.not_lt.mpr small)

/-- What is written is a record, if it is not too long. -/
theorem valid_written (dbd : Dbd) (noNul : 0 ∉ key) (short : (dbd.text key).length + 1 ≤ idxlenMax)
    (idxlen : dbd.idxlen ≤ idxlenMax) (place : dbd.datoff < 2 ^ 63) (datlen : dbd.datlen ≤ datlenMax)
    (used : dbd.datlenU ≤ dbd.datlen) (state : dbd.isfree ≤ 1) : (dbd.written key).Valid where
  noNul := noNul
  area := Nat.le_max_right _ _
  room := by
    rw [text_written]
    exact Nat.le_max_right _ _
  short := Nat.max_le.mpr ⟨idxlen, short⟩
  place := place
  datlen := datlen
  used := used
  state := state

end Writeidx

/-! ### Searching -/

namespace Sound

variable {db : Db} {L : Layout} {chain : ℕ → List Entry} {c p : ℕ} {e : Entry}
  {l l₁ l₂ : List Entry} {key : List UInt8} {dbd : Dbd}

theorem behind (s : Sound db L chain) : L.Behind := fun _ _ held => s.laid.not_head held

theorem readidx (s : Sound db L chain) (head : Head c) (mem : e ∈ chain c) :
    dbReadidx db.idx e.offset = some (e.record.dbd e.offset (L.ptr e.offset)) :=
  s.laid.readidx (s.threads.held c head e mem).record

theorem offset_ne_zero (s : Sound db L chain) (head : Head c) (mem : e ∈ chain c) :
    e.offset ≠ 0 := by
  have behind := s.laid.behind _ _ (s.threads.held c head e mem).record
  unfold idxBase ptrSz nhashDef at behind
  omega

/-- The pointer in front of an entry leads to it. -/
theorem ptr_pred (s : Sound db L chain) (head : Head c) (split : chain c = l₁ ++ e :: l₂) {a : ℕ}
    {before : List ℕ} (pred : c :: l₁.map Entry.offset = before ++ [a]) : L.ptr a = e.offset := by
  have walk := s.threads.linked c head
  have shape : c :: (chain c).map Entry.offset = before ++ a :: (e :: l₂).map Entry.offset := by
    rw [split, List.map_append, ← List.cons_append, pred, List.append_assoc]
    rfl
  have cell : L.Cell a := by
    apply s.threads.runs_cell head
    apply Threads.mem_cells.mp
    rw [shape]
    exact List.mem_append_right _ List.mem_cons_self
  rw [shape] at walk
  have leads := walk.next_eq
  rw [next_cell cell] at leads
  exact (eq_of_link_some (Option.some.inj leads)).2

/-- A chain is shorter than the file. -/
theorem length_le (s : Sound db L chain) (head : Head c) : (chain c).length ≤ db.idx.size := by
  have walk := s.threads.linked c head
  have bound : ∀ p q, L.next p = some q → p < db.idx.size := by
    intro p q leads
    unfold Layout.next at leads
    split_ifs at leads with cell
    rcases cell with low | held
    · have below := low.lt
      have base := s.laid.base
      omega
    · obtain ⟨r, held⟩ := Option.isSome_iff_exists.mp held
      have room := s.laid.extent_le held
      have size := LaidOut.extent_pos r
      omega
  have length := walk.length_le bound
  rw [List.length_cons, List.length_map] at length
  omega

/-- What the loop of `_db_find` comes to on the rest of a chain. -/
inductive Finds (f : ByteFile) (L : Layout) (key : List UInt8) (n : ℕ) (dbd : Dbd) (p : ℕ)
    (l : List Entry) : Prop
  | absent (b : ℕ) (other : ∀ e ∈ l, e.record.key ≠ key)
      (result : dbFindLoop f key n dbd p = some (false, { dbd with ptroff := b }))
  | found (l₁ : List Entry) (e : Entry) (l₂ : List Entry) (before : List ℕ) (b : ℕ)
      (split : l = l₁ ++ e :: l₂) (same : e.record.key = key) (other : ∀ e ∈ l₁, e.record.key ≠ key)
      (pred : dbd.ptroff :: l₁.map Entry.offset = before ++ [b])
      (result : dbFindLoop f key n dbd p =
        some (true, dbCopy (e.record.dbd e.offset (L.ptr e.offset)) { dbd with ptroff := b }))

theorem findLoop (s : Sound db L chain) (head : Head c) (key : List UInt8) (dbd : Dbd) {n : ℕ}
    (sub : ∀ e ∈ l, e ∈ chain c) (walk : Chain L.next (link p) (l.map Entry.offset)) (fuel : l.length < n) :
    Finds db.idx L key n dbd p l := by
  induction l generalizing n dbd p with
  | nil =>
      have null : p = 0 := eq_of_link_none walk.head_eq
      obtain ⟨m, rfl⟩ := Nat.exists_eq_succ_of_ne_zero (Nat.ne_of_gt fuel)
      apply Finds.absent dbd.ptroff
      · intro e mem
        cases mem
      · rw [dbFindLoop, if_pos null]
  | cons e l ih =>
      have mem := sub e List.mem_cons_self
      have here : p ≠ 0 ∧ p = e.offset := eq_of_link_some walk.head_eq
      obtain ⟨m, rfl⟩ := Nat.exists_eq_succ_of_ne_zero (Nat.ne_of_gt (Nat.zero_lt_of_lt fuel))
      have read := s.readidx head mem
      rw [← here.2] at read
      have step : dbFindLoop db.idx key (m + 1) dbd p =
          if e.record.key = key then
            some (true, dbCopy (e.record.dbd p (L.ptr p)) dbd)
          else dbFindLoop db.idx key m { dbd with ptroff := p } (L.ptr p) := by
        rw [dbFindLoop, if_neg here.1, read]
        rfl
      by_cases same : e.record.key = key
      · apply Finds.found [] e l [] dbd.ptroff rfl same
        · intro e mem
          cases mem
        · rfl
        · rw [step, if_pos same, here.2]
      · have rest : Chain L.next (link (L.ptr p)) (l.map Entry.offset) := by
          rw [link_of_ne here.1, here.2, List.map_cons] at walk
          obtain ⟨q, leads, rest⟩ := walk.pop
          rw [next_cell (cell_of_record (s.threads.held c head e mem).record)] at leads
          rw [here.2, Option.some.inj leads]
          exact rest
        have later := ih { dbd with ptroff := p } (n := m)
          (fun e mem => sub e (List.mem_cons_of_mem _ mem)) rest (by simpa using fuel)
        cases later with
        | absent b other result =>
            apply Finds.absent b
            · intro e' mem'
              rcases List.mem_cons.mp mem' with rfl | later
              · exact same
              · exact other e' later
            · rw [step, if_neg same, result]
        | found l₁ e' l₂ before b split eq other pred result =>
            apply Finds.found (e :: l₁) e' l₂ (dbd.ptroff :: before) b
            · rw [split]
              rfl
            · exact eq
            · intro e₁ mem'
              rcases List.mem_cons.mp mem' with rfl | later
              · exact same
              · exact other e₁ later
            · rw [List.map_cons, List.cons_append, ← pred, here.2]
            · rw [step, if_neg same, result]

/-- What `_db_find` hands back for a record that it has found. -/
def foundDbd (key : List UInt8) (a p : ℕ) (e : Entry) : Dbd :=
  dbCopy (e.record.dbd e.offset p) { Dbd.alloc with chainoff := dbChainOff key, ptroff := a }

/-- What `_db_find` comes to. -/
inductive Found (db : Db) (L : Layout) (chain : ℕ → List Entry) (key : List UInt8) : Prop
  | absent (b : ℕ) (other : ∀ e ∈ chain (dbChainOff key), e.record.key ≠ key)
      (result : dbFind db key =
        some (false, { Dbd.alloc with chainoff := dbChainOff key, ptroff := b }))
  | found (l₁ : List Entry) (e : Entry) (l₂ : List Entry) (before : List ℕ) (b : ℕ)
      (split : chain (dbChainOff key) = l₁ ++ e :: l₂) (same : e.record.key = key)
      (other : ∀ e ∈ l₁, e.record.key ≠ key)
      (pred : dbChainOff key :: l₁.map Entry.offset = before ++ [b])
      (result : dbFind db key = some (true, foundDbd key b (L.ptr e.offset) e))

theorem find (s : Sound db L chain) (key : List UInt8) : Found db L chain key := by
  have head := head_dbChainOff key
  obtain ⟨q, leads, rest⟩ := (s.threads.linked _ head).pop
  rw [next_cell (Or.inl head)] at leads
  rw [← Option.some.inj leads] at rest
  have start : dbFind db key =
      dbFindLoop db.idx key (db.idx.size + 1)
        { Dbd.alloc with chainoff := dbChainOff key, ptroff := dbChainOff key }
        (L.ptr (dbChainOff key)) := by
    unfold dbFind
    dsimp only
    rw [s.laid.readptr (Or.inl head)]
    rfl
  have loop := s.findLoop (n := db.idx.size + 1) head key
    { Dbd.alloc with chainoff := dbChainOff key, ptroff := dbChainOff key } (fun _ mem => mem) rest
    (Nat.lt_succ_of_le (s.length_le head))
  cases loop with
  | absent b other result => exact .absent b other (start.trans result)
  | found l₁ e l₂ before b split same other pred result =>
      exact .found l₁ e l₂ before b split same other pred (start.trans result)

/-- The free record found is one of the list, and the others stay. -/
theorem firstFit_split {keylen datlen start : ℕ} {found : ℕ × Fsdbd × List Fsdbd} {l : List Entry}
    (h : firstFit keylen datlen start (l.map Entry.item) = some found) :
    ∃ l₁ e l₂ before, l = l₁ ++ e :: l₂ ∧ found.2.1 = e.item ∧
      found.2.2 = (l₁ ++ l₂).map Entry.item ∧ e.item.suits keylen datlen = true ∧
      start :: l₁.map Entry.offset = before ++ [found.1] := by
  induction l generalizing start found with
  | nil => cases h
  | cons e l ih =>
      rw [List.map_cons, firstFit] at h
      split_ifs at h with suits
      · cases h
        exact ⟨[], e, l, [], rfl, rfl, rfl, suits, rfl⟩
      · obtain ⟨later, found', rfl⟩ := Option.map_eq_some_iff.mp h
        obtain ⟨l₁, e', l₂, before, rfl, item, others, fit, pred⟩ := ih found'
        refine ⟨e :: l₁, e', l₂, start :: before, rfl, item, ?_, fit, ?_⟩
        · dsimp only
          rw [others]
          rfl
        · rw [List.map_cons, List.cons_append]
          exact congrArg _ pred

end Sound
end BloomServer
