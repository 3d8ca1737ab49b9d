import BloomServer.DbSound
import Mathlib.Data.List.Basic

/-! What a fetch and a delete come to, in terms of the data that the chains hold for each key. -/
namespace BloomServer
open DecimalText LinkedChain

/-- The data of the records of a key on its chain, from the front on. -/
def contents (chain : ℕ → List Entry) (key : List UInt8) : List (List UInt8) :=
  ((chain (dbChainOff key)).filter fun e => e.record.key = key).map Entry.data

/-- Every record is on some chain. -/
def Covered (L : Layout) (chain : ℕ → List Entry) : Prop :=
  ∀ offset r, L.record offset = some r → ¬ Threads.Off chain offset

/-- Every record of a kind is on some chain. -/
def CoveredIn (kind : IndexRec → Prop) (L : Layout) (chain : ℕ → List Entry) : Prop :=
  ∀ offset r, L.record offset = some r → kind r → ¬ Threads.Off chain offset

/-- The free record that a store takes. -/
def freeFor (db : Db) (key data : List UInt8) : Option Fsdbd :=
  (firstFit key.length data.length freeOff db.freeList).map fun found => found.2.1

theorem covered_iff {L : Layout} {chain : ℕ → List Entry} :
    Covered L chain ↔ CoveredIn (fun _ => True) L chain :=
  ⟨fun covered offset r held _ => covered offset r held,
    fun covered offset r held => covered offset r held trivial⟩

section Contents

variable {chain : ℕ → List Entry} {c x : ℕ} {e e' : Entry} {l l₁ l₂ : List Entry}
  {key k : List UInt8}

theorem contents_free (l : List Entry) :
    contents (Function.update chain freeOff l) = contents chain := by
  funext key
  unfold contents
  rw [Function.update_of_ne (dbChainOff_ne_freeOff key)]

/-- Replacing a chain changes what it holds for one key. -/
theorem contents_update
    (other : ∀ k, k ≠ key → l.filter (fun e => e.record.key = k) =
      (chain (dbChainOff key)).filter fun e => e.record.key = k) :
    contents (Function.update chain (dbChainOff key) l) =
      Function.update (contents chain) key
        ((l.filter fun e => e.record.key = key).map Entry.data) := by
  funext k
  by_cases same : k = key
  · subst same
    rw [Function.update_self, contents, Function.update_self]
  · rw [Function.update_of_ne same]
    unfold contents
    by_cases shared : dbChainOff k = dbChainOff key
    · rw [shared, Function.update_self, other k same]
    · rw [Function.update_of_ne shared]

theorem contents_link (same : e.record.key = key) :
    contents (Function.update chain (dbChainOff key) (e :: chain (dbChainOff key))) =
      Function.update (contents chain) key (e.data :: contents chain key) := by
  rw [contents_update]
  · rw [List.filter_cons_of_pos (by simpa using same), List.map_cons]
    rfl
  · intro k other
    rw [List.filter_cons_of_neg]
    intro this
    exact other ((of_decide_eq_true this).symm.trans same)

theorem filter_front (absent : ∀ e ∈ l₁, e.record.key ≠ key) :
    l₁.filter (fun e => e.record.key = key) = [] := by
  rw [List.filter_eq_nil_iff]
  intro e mem
  rw [decide_eq_true_eq]
  exact absent e mem

theorem contents_split (split : chain (dbChainOff key) = l₁ ++ e :: l₂)
    (same : e.record.key = key) (absent : ∀ e ∈ l₁, e.record.key ≠ key) :
    contents chain key =
      e.data :: (l₂.filter fun e => e.record.key = key).map Entry.data := by
  rw [contents, split, List.filter_append, filter_front absent, List.nil_append,
    List.filter_cons_of_pos (by simpa using same), List.map_cons]

theorem contents_unlink (split : chain (dbChainOff key) = l₁ ++ e :: l₂)
    (same : e.record.key = key) (absent : ∀ e ∈ l₁, e.record.key ≠ key) :
    contents (Function.update chain (dbChainOff key) (l₁ ++ l₂)) =
      Function.update (contents chain) key (contents chain key).tail := by
  rw [contents_update]
  · rw [contents_split split same absent, List.filter_append, filter_front absent]
    rfl
  · intro k other
    rw [split, List.filter_append, List.filter_append, List.filter_cons_of_neg]
    intro this
    exact other ((of_decide_eq_true this).symm.trans same)

theorem contents_exchange (split : chain (dbChainOff key) = l₁ ++ e :: l₂)
    (same : e.record.key = key) (same' : e'.record.key = key)
    (absent : ∀ e ∈ l₁, e.record.key ≠ key) :
    contents (Function.update chain (dbChainOff key) (l₁ ++ e' :: l₂)) =
      Function.update (contents chain) key (e'.data :: (contents chain key).tail) := by
  rw [contents_update]
  · rw [contents_split split same absent, List.filter_append, filter_front absent, List.nil_append,
      List.filter_cons_of_pos (by simpa using same'), List.map_cons]
    rfl
  · intro k other
    have skip {e : Entry} (same : e.record.key = key) :
        (e :: l₂).filter (fun e => e.record.key = k) = l₂.filter fun e => e.record.key = k := by
      apply List.filter_cons_of_neg
      intro this
      exact other ((of_decide_eq_true this).symm.trans same)
    rw [split, List.filter_append, List.filter_append, skip same, skip same']

theorem contents_nil (absent : ∀ e ∈ chain (dbChainOff key), e.record.key ≠ key) :
    contents chain key = [] := by
  rw [contents, filter_front absent]
  rfl

/-- What is on none of the chains, one of which has been replaced, was on none if it is not on
the one before. -/
theorem off_of_update (head : Head c) (off : Threads.Off (Function.update chain c l) x)
    (gone : ∀ e ∈ chain c, e.offset ≠ x ∨ ∃ e' ∈ l, e'.offset = e.offset) :
    Threads.Off chain x := by
  intro c' head' e mem
  by_cases same : c' = c
  · subst same
    rcases gone e mem with away | ⟨e', stays, offset⟩
    · exact away
    · rw [← offset]
      apply off c' head' e'
      rwa [Function.update_self]
  · apply off c' head' e
    rwa [Function.update_of_ne same]

theorem off_of_unlinked (head : Head c) (split : chain c = l₁ ++ e :: l₂) (other : e.offset ≠ x)
    (off : Threads.Off (Function.update chain c (l₁ ++ l₂)) x) : Threads.Off chain x := by
  apply off_of_update head off
  intro e₁ mem
  rw [split, List.mem_append, List.mem_cons] at mem
  rcases mem with front | here | back
  · exact Or.inr ⟨e₁, List.mem_append_left _ front, rfl⟩
  · exact Or.inl (here ▸ other)
  · exact Or.inr ⟨e₁, List.mem_append_right _ back, rfl⟩

theorem off_of_linked (head : Head c) (off : Threads.Off (Function.update chain c (e :: chain c)) x) :
    Threads.Off chain x ∧ e.offset ≠ x := by
  constructor
  · apply off_of_update head off
    exact fun e₁ mem => Or.inr ⟨e₁, List.mem_cons_of_mem e mem, rfl⟩
  · apply off c head e
    rw [Function.update_self]
    exact List.mem_cons_self

end Contents

namespace Sound

variable {db : Db} {L : Layout} {chain : ℕ → List Entry} {c : ℕ} {e : Entry}
  {l l₁ l₂ : List Entry} {key : List UInt8} {dbd : Dbd}

/-- `db_fetch` hands back the data of the first record of the key. -/
theorem fetch (s : Sound db L chain) (key : List UInt8) :
    dbFetch db key = some (contents chain key).head? := by
  cases s.find key with
  | absent b other result =>
      rw [contents_nil other]
      unfold dbFetch
      rw [result]
      rfl
  | found l₁ e l₂ before b split same other pred result =>
      have head := head_dbChainOff key
      have mem : e ∈ chain (dbChainOff key) := mem_of_split split
      have held := s.threads.held _ head e mem
      have live := dbChainOff_ne_freeOff key
      have read := (held.data live).pread
      rw [← held.used live] at read
      have datbuf : dbReaddatBin db (foundDbd key b (L.ptr e.offset) e) =
          some { foundDbd key b (L.ptr e.offset) e with datbuf := e.data } := by
        have shape : db.dat.pread (foundDbd key b (L.ptr e.offset) e).datlenU
            (foundDbd key b (L.ptr e.offset) e).datoff = e.data := read
        unfold dbReaddatBin
        dsimp only
        rw [shape]
        exact if_pos (held.used live).symm
      rw [contents_split split same other]
      unfold dbFetch
      rw [result]
      change (dbReaddatBin db (foundDbd key b (L.ptr e.offset) e)).bind _ = _
      rw [datbuf]
      rfl

/-! ### Deleting -/

/-- The record as it goes to the free list. -/
def freed (r : IndexRec) : IndexRec :=
  { r with key := List.replicate r.key.length 32, isfree := 1 }

theorem length_text_freed {r : IndexRec} (state : r.isfree ≤ 1) :
    (freed r).text.length = r.text.length := by
  have one {n : ℕ} (small : n ≤ 1) : (decimal n).length = 1 := by
    interval_cases n <;> rfl
  have marked : (decimal (freed r).isfree).length = (decimal r.isfree).length := by
    rw [one state]
    exact one (Nat.le_refl 1)
  have key : (freed r).key.length = r.key.length := List.length_replicate
  unfold IndexRec.text
  rw [length_indexText, length_indexText, marked, key]
  rfl

theorem valid_freed {r : IndexRec} (valid : r.Valid) : (freed r).Valid where
  noNul mem := absurd (List.eq_of_mem_replicate mem) (by decide)
  area := by
    change (List.replicate _ _).length ≤ r.idxlenA
    rw [List.length_replicate]
    exact valid.area
  room := by
    rw [length_text_freed valid.state]
    exact valid.room
  short := valid.short
  place := valid.place
  datlen := valid.datlen
  used := valid.used
  state := Nat.le_refl 1

theorem written_freed {a p : ℕ} (valid : e.record.Valid) :
    ({ foundDbd key a p e with isfree := 1 } : Dbd).written (List.replicate e.record.key.length 32) =
      freed e.record := by
  have room : (freed e.record).text.length + 1 ≤ e.record.idxlen := (valid_freed valid).room
  have area : (List.replicate e.record.key.length (32 : UInt8)).length ≤ e.record.idxlenA :=
    (valid_freed valid).area
  change IndexRec.mk _ (max e.record.idxlen ((freed e.record).text.length + 1))
    (max e.record.idxlenA _) _ _ _ _ = _
  rw [max_eq_left room, max_eq_left area]
  rfl

theorem unlink_comm {offset a v w : ℕ} {r : IndexRec} (other : a ≠ offset) (live : a ≠ freeOff) :
    ((L.put offset r v).setPtr freeOff offset).setPtr a w =
      ((L.setPtr a w).put offset r v).setPtr freeOff offset := by
  change Layout.mk _ _ = Layout.mk _ _
  congr 1
  change Function.update (Function.update (Function.update L.ptr offset v) freeOff offset) a w =
    Function.update (Function.update (Function.update L.ptr a w) offset v) freeOff offset
  rw [Function.update_comm live.symm, Function.update_comm other.symm]

/-- The record goes from its hash chain to the free list. -/
theorem dodelete (s : Sound db L chain) (split : chain (dbChainOff key) = l₁ ++ e :: l₂) {a : ℕ}
    {before : List ℕ} (pred : dbChainOff key :: l₁.map Entry.offset = before ++ [a]) :
    ∃ db', dbDodelete db (foundDbd key a (L.ptr e.offset) e) = some db' ∧
      Sound db' (((L.setPtr a (L.ptr e.offset)).put e.offset (freed e.record)
        (L.ptr freeOff)).setPtr freeOff e.offset)
        (Function.update (Function.update chain (dbChainOff key) (l₁ ++ l₂)) freeOff
          (⟨e.offset, freed e.record, []⟩ :: chain freeOff)) ∧
      db'.idxLen = db.idxLen ∧ db'.datLen = db.datLen := by
  have head := head_dbChainOff key
  have live := dbChainOff_ne_freeOff key
  have mem := mem_of_split split
  have held := s.threads.held _ head e mem
  have valid := s.laid.valid _ _ held.record
  have high := s.behind _ _ held.record
  have small : e.offset ≤ ptrMax := s.ptr_pred head split pred ▸ s.laid.small a
  have runs := Threads.runs_pred split pred
  have awaySelf := s.threads.pred_ne head split pred
  have awayFree : a ≠ freeOff := by
    intro same
    exact s.threads.runs_apart s.behind head head_freeOff live runs (Or.inl same)
  have off := s.threads.off_unlinked head split
  have behind : (L.setPtr a (L.ptr e.offset)).Behind := s.behind
  have within : e.offset + (freed e.record).extent ≤ db.idx.size := by
    have room := s.laid.extent_le held.record
    exact room
  -- on disk the record is rewritten before it is unlinked
  have laid₁ := s.laid.put_inside held.record (valid_freed valid) rfl (s.laid.small freeOff)
  have laid₂ := laid₁.setPtr (Or.inl head_freeOff) small
  have cell : ((L.put e.offset (freed e.record) (L.ptr freeOff)).setPtr freeOff e.offset).Cell a :=
    cell_put (v := L.ptr freeOff) (s.threads.runs_cell head runs)
  have laid₃ := laid₂.setPtr cell (s.laid.small e.offset)
  have size := (laid₂.size_setPtr cell (s.laid.small e.offset)).trans
    ((laid₁.size_setPtr (Or.inl head_freeOff) small).trans
      (size_writeRecord_inside (v := L.ptr freeOff) (valid_freed valid).readable (s.laid.small freeOff)
        within))
  rw [unlink_comm awaySelf awayFree] at laid₃
  have threads₁ := s.threads.unlink s.behind head split pred
  have threads₂ := threads₁.put_off (r := freed e.record) (v := L.ptr freeOff) off high
    (Nat.le_refl _) fun c head live e mem => (threads₁.held c head e mem).data live
  have points : ((L.setPtr a (L.ptr e.offset)).put e.offset (freed e.record) (L.ptr freeOff)).ptr
      e.offset = ((L.setPtr a (L.ptr e.offset)).put e.offset (freed e.record)
        (L.ptr freeOff)).ptr freeOff := by
    have awayRecord : freeOff ≠ e.offset := by
      intro same
      exact high (same ▸ head_freeOff)
    rw [ptr_put_self, ptr_put_ne awayRecord, ptr_setPtr_ne awayFree.symm]
  have free : Held ((L.setPtr a (L.ptr e.offset)).put e.offset (freed e.record) (L.ptr freeOff))
      db.dat freeOff ⟨e.offset, freed e.record, []⟩ :=
    ⟨record_put_self, by rfl, held.area, fun other => absurd rfl other,
      fun other => absurd rfl other⟩
  have clear : ∀ c, Head c → ∀ e' ∈ Function.update chain (dbChainOff key) (l₁ ++ l₂) c,
      (freed e.record).Clear e'.record := s.threads.clear_unlinked head split
  have positive := s.offset_ne_zero head mem
  have threads₃ := threads₂.link (e := ⟨e.offset, freed e.record, []⟩) (behind.put high)
    head_freeOff off points free positive clear
  have same : Function.update chain (dbChainOff key) (l₁ ++ l₂) freeOff = chain freeOff :=
    Function.update_of_ne live.symm _ _
  rw [same] at threads₃
  refine ⟨{ db with
    idx := ((writeRecord db.idx e.offset (freed e.record) (L.ptr freeOff)).pwrite
      (ptrText e.offset) freeOff).pwrite (ptrText (L.ptr e.offset)) a
    freeList := ⟨e.offset, e.record.datlen, e.record.idxlenA⟩ :: db.freeList },
    ?_, ⟨laid₃, threads₃, ?_, s.datLen, ?_⟩, rfl, rfl⟩
  · have blanks : (freed e.record).text.length + 1 ≤ e.record.idxlen := (valid_freed valid).room
    have stays : ({ foundDbd key a (L.ptr e.offset) e with isfree := 1 } : Dbd).appends
        (List.replicate e.record.key.length 32) false = false := by
      apply decide_eq_false
      exact Nat.not_lt.mpr blanks
    have write := dbWriteidx_eq db { foundDbd key a (L.ptr e.offset) e with isfree := 1 }
      (List.replicate e.record.key.length 32) e.offset false (s.laid.small freeOff) (blanks.trans valid.short)
    rw [written_freed valid, stays] at write
    unfold dbDodelete
    dsimp only
    rw [s.laid.readptr (Or.inl head_freeOff)]
    change (dbWriteidx db { foundDbd key a (L.ptr e.offset) e with isfree := 1 }
      (List.replicate e.record.key.length 32) e.offset false (L.ptr freeOff)).bind _ = _
    rw [write]
    change (dbWriteptr _ freeOff e.offset).bind _ = _
    rw [dbWriteptr_eq small]
    change (dbWriteptr _ a (L.ptr e.offset)).bind _ = _
    rw [dbWriteptr_eq (s.laid.small e.offset)]
    rfl
  · rw [size]
    exact s.idxLen
  · rw [Function.update_self, List.map_cons, ← s.freeList]
    rfl

/-! ### Taking a free record -/

/-- What `_db_findfree_cache` comes to. -/
inductive Taken (db : Db) (L : Layout) (chain : ℕ → List Entry) (dbd : Dbd)
    (key data : List UInt8) : Prop
  | missing (missing : freeFor db key data = none)
      (result : dbFindfreeCache db dbd key.length data.length = some (false, dbd, db))
  | taken (l₁ : List Entry) (e : Entry) (l₂ : List Entry) (before : List ℕ) (b : ℕ) (db' : Db)
      (split : chain freeOff = l₁ ++ e :: l₂)
      (pred : freeOff :: l₁.map Entry.offset = before ++ [b])
      (suits : e.item.suits key.length data.length = true)
      (item : freeFor db key data = some e.item)
      (result : dbFindfreeCache db dbd key.length data.length =
        some (true, dbCopy (e.record.dbd e.offset (L.ptr e.offset)) dbd, db'))
      (sound : Sound db' (L.setPtr b (L.ptr e.offset)) (Function.update chain freeOff (l₁ ++ l₂)))
      (stays : ∀ c, Head c → c ≠ freeOff → c ≠ b)
      (idxLen : db'.idxLen = db.idxLen) (dat : db'.dat = db.dat)

theorem findfree (s : Sound db L chain) (dbd : Dbd) (key data : List UInt8) :
    Taken db L chain dbd key data := by
  cases fit : firstFit key.length data.length freeOff db.freeList with
  | none =>
      apply Taken.missing
      · rw [freeFor, fit]
        rfl
      · rw [dbFindfreeCache, fit]
  | some found =>
      have fit' := fit
      rw [s.freeList] at fit'
      obtain ⟨l₁, e, l₂, before, split, item, others, suits, pred⟩ := firstFit_split fit'
      have mem := mem_of_split split
      have runs := Threads.runs_pred split pred
      have cell := s.threads.runs_cell head_freeOff runs
      have small := s.laid.small e.offset
      refine .taken l₁ e l₂ before found.1 { db with
        idx := db.idx.pwrite (ptrText (L.ptr e.offset)) found.1
        freeList := found.2.2 } split pred suits ?_ ?_ ?_ ?_ rfl rfl
      · rw [freeFor, fit, Option.map_some, item]
      · obtain ⟨saveoffset, it, rest⟩ := found
        change it = e.item at item
        subst item
        have read := s.readidx head_freeOff mem
        unfold dbFindfreeCache
        rw [fit]
        change (dbReadidx db.idx e.offset).bind _ = _
        rw [read]
        change (dbWriteptr db saveoffset (L.ptr e.offset)).bind _ = _
        rw [dbWriteptr_eq small]
        rfl
      · refine ⟨s.laid.setPtr cell small, s.threads.unlink s.behind head_freeOff split pred, ?_,
          s.datLen, ?_⟩
        · rw [s.laid.size_setPtr cell small]
          exact s.idxLen
        · rw [Function.update_self]
          exact others
      · intro c head live same
        exact s.threads.runs_apart s.behind head_freeOff head live.symm runs (Or.inl same.symm)

/-! ### Writing a record at the front of its chain -/

/-- Data may be written where no live record has its own. -/
theorem kept (s : Sound db L chain) {place room : ℕ} {data : List UInt8} (fit : data.length ≤ room)
    (clear : ∀ c, Head c → ∀ e ∈ chain c,
      place + room ≤ e.record.datoff ∨ e.record.datoff + e.record.datlen ≤ place) :
    ∀ c, Head c → c ≠ freeOff → ∀ e ∈ chain c,
      (db.dat.pwrite data place).At e.record.datoff e.data := by
  intro c head live e mem
  have held := s.threads.held c head e mem
  have used := (s.laid.valid _ _ held.record).used
  have apart := clear c head e mem
  rw [held.used live] at used
  apply (held.data live).pwrite
  omega

theorem writedat {data : List UInt8} {append : Bool} {d : Dbd} {db₁ : Db}
    (written : dbWritedatBin db dbd data dbd.datoff append = (d, db₁)) :
    db₁ = { db with dat := db.dat.pwrite data d.datoff, datLen := db₁.datLen } ∧
      d.datlenU = data.length ∧ d.chainoff = dbd.chainoff := by
  unfold dbWritedatBin at written
  split_ifs at written
  · cases written
    exact ⟨rfl, rfl, rfl⟩
  · cases written
    exact ⟨rfl, rfl, rfl⟩

/-- A record on none of the chains is written, with its data, and put at the front of the chain of
its key. -/
theorem writeFront (s : Sound db L chain) {data : List UInt8} {append : Bool} {d : Dbd} {db₁ : Db}
    {o : ℕ} (chainoff : dbd.chainoff = dbChainOff key)
    (written : dbWritedatBin db dbd data dbd.datoff append = (d, db₁))
    (place : o = if d.appends key append then db.idxLen else d.idxoff)
    (short : (d.text key).length + 1 ≤ idxlenMax) (small : o ≤ ptrMax)
    (laid : LaidOut (writeRecord db.idx o (d.written key) (L.ptr (dbChainOff key)))
      (L.put o (d.written key) (L.ptr (dbChainOff key))))
    (size : (writeRecord db.idx o (d.written key) (L.ptr (dbChainOff key))).size =
      if d.appends key append then db.idxLen + (d.written key).extent else db.idxLen)
    (off : Threads.Off chain o) (high : ¬ Head o) (state : d.isfree = 0)
    (inside : d.datoff ≤ db.dat.size) (fit : data.length ≤ d.datlen)
    (area : d.datoff + d.datlen ≤ db₁.dat.size)
    (clear : ∀ c, Head c → ∀ e ∈ chain c, (d.written key).Clear e.record)
    (datLen : db₁.datLen = db₁.dat.size) :
    ∃ db', dbWriteFront db dbd key data append (L.ptr (dbChainOff key)) = some (0, db') ∧
      Sound db' ((L.put o (d.written key) (L.ptr (dbChainOff key))).setPtr (dbChainOff key) o)
        (Function.update chain (dbChainOff key)
          (⟨o, d.written key, data⟩ :: chain (dbChainOff key))) := by
  obtain ⟨shape, used, kept_chainoff⟩ := writedat written
  have head := head_dbChainOff key
  have live := dbChainOff_ne_freeOff key
  have dat : db₁.dat = db.dat.pwrite data d.datoff := by rw [shape]
  have idx : db₁.idx = db.idx := by rw [shape]
  have idxLen : db₁.idxLen = db.idxLen := by rw [shape]
  have freeList : db₁.freeList = db.freeList := by rw [shape]
  have away : dbChainOff key ≠ o := by
    intro same
    exact high (same ▸ head)
  have grown : db.dat.size ≤ db₁.dat.size := by
    rw [dat]
    exact ByteFile.size_le_pwrite
  have stands : db₁.dat.At d.datoff data := by
    rw [dat]
    exact ByteFile.at_pwrite db.dat fun _ => inside
  have threads₁ := s.threads.put_off (r := d.written key) (v := L.ptr (dbChainOff key)) off high grown
    (by rw [dat]; exact s.kept fit clear)
  have held : Held (L.put o (d.written key) (L.ptr (dbChainOff key))) db₁.dat (dbChainOff key)
      ⟨o, d.written key, data⟩ := by
    refine ⟨record_put_self, ?_, area, fun _ => used, fun _ => stands⟩
    unfold Belongs
    rw [if_neg live]
    exact ⟨state, rfl⟩
  have points : (L.put o (d.written key) (L.ptr (dbChainOff key))).ptr o =
      (L.put o (d.written key) (L.ptr (dbChainOff key))).ptr (dbChainOff key) := by
    rw [ptr_put_self, ptr_put_ne away]
  have positive : o ≠ 0 := by
    intro zero
    exact high (zero ▸ head_freeOff)
  have threads₂ := threads₁.link (e := ⟨o, d.written key, data⟩) (s.behind.put high) head off points
    held positive clear
  have laid₂ := laid.setPtr (Or.inl head) small
  have size₂ := laid.size_setPtr (Or.inl head) small
  refine ⟨{ db₁ with
    idx := (writeRecord db.idx o (d.written key) (L.ptr (dbChainOff key))).pwrite (ptrText o)
      (dbChainOff key)
    idxLen := if d.appends key append then db.idxLen + (d.written key).extent else db.idxLen },
    ?_, ⟨laid₂, threads₂, ?_, datLen, ?_⟩⟩
  · have write := dbWriteidx_eq db₁ d key d.idxoff append (s.laid.small (dbChainOff key)) short
    rw [idx, idxLen, ← place] at write
    unfold dbWriteFront dbWrite
    rw [written]
    change ((dbWriteidx db₁ d key d.idxoff append (L.ptr (dbChainOff key))).bind _).bind _ = _
    rw [write]
    change (dbWriteptr _ d.chainoff o).bind _ = _
    rw [dbWriteptr_eq small, kept_chainoff, chainoff]
    rfl
  · rw [size₂, size]
  · rw [Function.update_of_ne live.symm]
    exact freeList.trans s.freeList

end Sound
end BloomServer
