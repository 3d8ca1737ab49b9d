import BloomServer.DbPlaced

/-! What the sections of `db_store` and `db_delete` come to, each as a step on what the chains hold
for every key. -/
namespace BloomServer
open DecimalText LinkedChain

/-- The record that a store writes again where it stands. -/
def inPlace (db : Db) (key data : List UInt8) : Option Dbd :=
  (dbFind db key).bind fun p => if p.1 ∧ data.length ≤ p.2.datlen then some p.2 else none

/-- The index record of a record that is written again where it stands fits. -/
def RewriteFits (db : Db) (key data : List UInt8) : Prop :=
  ∀ d ∈ inPlace db key data, rewriteLen d key data ≤ d.idxlen

/-- Whether a store looks for a new place for its data. -/
def needsPlace (db : Db) (key data : List UInt8) (flag : DbFlag) : Bool :=
  (dbFind db key).any fun p =>
    if p.1 then decide (flag = .replace ∧ p.2.datlen < data.length) else decide (flag = .insert)

/-- The index record that a store writes keeps within the limit. -/
def StoreShort (db : Db) (key data : List UInt8) (flag : DbFlag) : Prop :=
  ∀ p ∈ dbFind db key,
    if p.1 then
      flag = .replace →
        (data.length ≤ p.2.datlen → rewriteLen p.2 key data ≤ idxlenMax) ∧
          (p.2.datlen < data.length → Short db p.2.idxlenA key data)
    else flag = .insert → Short db p.2.idxlenA key data

/-- The index record of a new key keeps within the limit. -/
def InsertShort (db : Db) (key data : List UInt8) (flag : DbFlag) : Prop :=
  ∀ p ∈ dbFind db key, p.1 = false → flag = .insert → Short db p.2.idxlenA key data

instance (db : Db) (key data : List UInt8) (flag : DbFlag) :
    Decidable (InsertShort db key data flag) :=
  inferInstanceAs (Decidable (∀ p ∈ dbFind db key, _))

theorem StoreShort.insert {db : Db} {key data : List UInt8} {flag : DbFlag}
    (short : StoreShort db key data flag) : InsertShort db key data flag := by
  intro p found absent
  have near := short p found
  rw [if_neg (by rw [absent]; decide)] at near
  exact near

instance (db : Db) (key data : List UInt8) : Decidable (RewriteFits db key data) :=
  inferInstanceAs (Decidable (∀ d ∈ inPlace db key data, _))

instance (db : Db) (key data : List UInt8) (flag : DbFlag) :
    Decidable (StoreShort db key data flag) :=
  inferInstanceAs (Decidable (∀ p ∈ dbFind db key, _))

theorem Threads.clear {L : Layout} {dat : ByteFile} {chain : ℕ → List Entry} {c c' : ℕ}
    {e e' : Entry} (t : Threads L dat chain) (head : Head c) (head' : Head c') (mem : e ∈ chain c)
    (mem' : e' ∈ chain c') (other : e.offset ≠ e'.offset) : e.record.Clear e'.record := by
  by_cases same : c = c'
  · subst same
    exact t.areas c head e mem e' mem' other
  · exact (t.apart c c' head head' same e mem e' mem').2

namespace Sound

variable {db : Db} {L : Layout} {chain : ℕ → List Entry} {c : ℕ} {e : Entry}
  {l l₁ l₂ : List Entry} {key data : List UInt8} {dbd : Dbd}

/-- The record of the key is written again, with data that is not too long for it. -/
theorem rewrite (s : Sound db L chain) (split : chain (dbChainOff key) = l₁ ++ e :: l₂)
    (same : e.record.key = key) (absent : ∀ e ∈ l₁, e.record.key ≠ key) (a : ℕ)
    (fit : data.length ≤ e.record.datlen)
    (fits : rewriteLen (foundDbd key a (L.ptr e.offset) e) key data ≤ e.record.idxlen) :
    ∃ d db' L' chain', dbWrite db (foundDbd key a (L.ptr e.offset) e) key data false
        (L.ptr e.offset) = some (d, db') ∧ Sound db' L' chain' ∧
      contents chain' = Function.update (contents chain) key
        (data :: (contents chain key).tail) ∧
      (∀ kind, CoveredIn kind L chain → CoveredIn kind L' chain') := by
  have head := head_dbChainOff key
  have live := dbChainOff_ne_freeOff key
  have mem := mem_of_split split
  have held := s.threads.held _ head e mem
  have valid := s.laid.valid _ _ held.record
  have small := s.laid.small e.offset
  have high := s.behind _ _ held.record
  have short := fits.trans valid.short
  have noNul : 0 ∉ key := same ▸ valid.noNul
  have stays : ((foundDbd key a (L.ptr e.offset) e).over data).appends key false = false := by
    apply decide_eq_false
    exact Nat.not_lt.mpr fits
  have valid' := valid_written ((foundDbd key a (L.ptr e.offset) e).over data) noNul short
    valid.short valid.place valid.datlen fit (Nat.zero_le 1)
  have idxlen : (((foundDbd key a (L.ptr e.offset) e).over data).written key).idxlen =
      e.record.idxlen := max_eq_left fits
  have within : e.offset + (((foundDbd key a (L.ptr e.offset) e).over data).written key).extent ≤
      db.idx.size := by
    have room := s.laid.extent_le held.record
    unfold IndexRec.extent at *
    rwa [idxlen]
  have area := held.area
  have size : (db.dat.pwrite data e.record.datoff).size = db.dat.size :=
    ByteFile.size_pwrite_inside (by omega)
  have stands : (db.dat.pwrite data e.record.datoff).At e.record.datoff data :=
    ByteFile.at_pwrite db.dat fun _ => (Nat.le_add_right _ _).trans area
  have laid := s.laid.put_inside held.record valid' idxlen small
  have held' : Held (L.put e.offset (((foundDbd key a (L.ptr e.offset) e).over data).written key)
      (L.ptr e.offset)) (db.dat.pwrite data e.record.datoff) (dbChainOff key)
      ⟨e.offset, ((foundDbd key a (L.ptr e.offset) e).over data).written key, data⟩ := by
    refine ⟨record_put_self, ?_, ?_, fun _ => rfl, fun _ => stands⟩
    · unfold Belongs
      rw [if_neg live]
      exact ⟨rfl, rfl⟩
    · rw [size]
      exact area
  have next : ∀ c, Head c → ∀ x, Threads.Runs chain c x →
      (L.put e.offset (((foundDbd key a (L.ptr e.offset) e).over data).written key)
        (L.ptr e.offset)).next x = L.next x := by
    intro c _ x _
    by_cases self : x = e.offset
    · rw [self, next_put_self, next_cell (cell_of_record held.record)]
    · exact next_put_ne self
  have frame : ∀ c, Head c → ∀ e₁ ∈ chain c, e₁.offset ≠ e.offset →
      Held (L.put e.offset (((foundDbd key a (L.ptr e.offset) e).over data).written key)
        (L.ptr e.offset)) (db.dat.pwrite data e.record.datoff) c e₁ := by
    intro c head₁ e₁ mem₁ other
    have held₁ := s.threads.held c head₁ e₁ mem₁
    have apart := s.threads.clear head head₁ mem mem₁ other.symm
    have used := (s.laid.valid _ _ held₁.record).used
    refine ⟨(record_put_ne other).trans held₁.record, held₁.belongs, ?_, held₁.used, ?_⟩
    · rw [size]
      exact held₁.area
    · intro live₁
      apply (held₁.data live₁).pwrite
      rw [held₁.used live₁] at used
      unfold IndexRec.Clear at apart
      omega
  have threads := s.threads.exchange head split (by rfl) (by rfl) (by rfl) held' next frame
  have write := dbWriteidx_eq { db with dat := db.dat.pwrite data e.record.datoff }
    ((foundDbd key a (L.ptr e.offset) e).over data) key e.offset false small short
  rw [stays] at write
  refine ⟨{ (foundDbd key a (L.ptr e.offset) e).over data with
    ptrval := L.ptr e.offset
    idxbuf := (((foundDbd key a (L.ptr e.offset) e).over data).written key).line
    idxoff := e.offset }, { db with
    idx := writeRecord db.idx e.offset (((foundDbd key a (L.ptr e.offset) e).over data).written key)
      (L.ptr e.offset)
    dat := db.dat.pwrite data e.record.datoff }, _, _, ?_, ⟨laid, threads, ?_, ?_, ?_⟩, ?_, ?_⟩
  · unfold dbWrite
    change (dbWriteidx { db with dat := db.dat.pwrite data e.record.datoff }
      ((foundDbd key a (L.ptr e.offset) e).over data) key e.offset false
      (L.ptr e.offset)).bind _ = _
    rw [write]
    rfl
  · rw [size_writeRecord_inside valid'.readable small within]
    exact s.idxLen
  · rw [size]
    exact s.datLen
  · rw [Function.update_of_ne live.symm]
    exact s.freeList
  · exact contents_exchange split same rfl absent
  · intro kind covered b q there of_kind off
    have kept : Threads.Off chain b := by
      apply off_of_update head off
      intro e₁ mem₁
      rw [split, List.mem_append, List.mem_cons] at mem₁
      rcases mem₁ with front | here | back
      · exact Or.inr ⟨e₁, List.mem_append_left _ front, rfl⟩
      · exact Or.inr ⟨_, List.mem_append_right l₁ List.mem_cons_self, by rw [here]⟩
      · exact Or.inr ⟨e₁, List.mem_append_right _ (List.mem_cons_of_mem _ back), rfl⟩
    by_cases self : b = e.offset
    · exact kept (dbChainOff key) head e mem self.symm
    · rw [record_put_ne self] at there
      exact covered b q there of_kind kept

/-! ### Deleting a record that has been found -/

theorem deleteFound (s : Sound db L chain) (split : chain (dbChainOff key) = l₁ ++ e :: l₂)
    (same : e.record.key = key) (absent : ∀ e ∈ l₁, e.record.key ≠ key) {before : List ℕ} {a : ℕ}
    (pred : dbChainOff key :: l₁.map Entry.offset = before ++ [a])
    (result : dbFind db key = some (true, foundDbd key a (L.ptr e.offset) e)) :
    ∃ db' L' chain', dbDelete db key = some (0, db') ∧ Sound db' L' chain' ∧
      contents chain' = Function.update (contents chain) key (contents chain key).tail ∧
      (∀ kind, CoveredIn kind L chain → CoveredIn kind L' chain') ∧
      chain' freeOff = ⟨e.offset, freed e.record, []⟩ :: chain freeOff ∧
      db'.idxLen = db.idxLen ∧ db'.datLen = db.datLen := by
  have head := head_dbChainOff key
  have live := dbChainOff_ne_freeOff key
  obtain ⟨db', deleted, sound, idxLen, datLen⟩ := s.dodelete split pred
  have answer : dbDelete db key = some (0, db') := by
    unfold dbDelete
    simp only [result, deleted, Option.bind_eq_bind, Option.bind_some, if_true]
    rfl
  refine ⟨db', _, _, answer, sound, ?_, ?_, ?_, idxLen, datLen⟩
  · rw [contents_free, contents_unlink split same absent]
  · intro kind covered
    have free : Function.update chain (dbChainOff key) (l₁ ++ l₂) freeOff = chain freeOff :=
      Function.update_of_ne live.symm _ _
    rw [← free]
    apply covered_linked head_freeOff
    intro b q there of_kind other off
    exact covered b q there of_kind (off_of_unlinked head split other.symm off)
  · rw [Function.update_self]

/-- `db_delete` takes away the first record of the key. -/
theorem delete (s : Sound db L chain) (key : List UInt8) :
    ∃ db' L' chain', dbDelete db key = some (if contents chain key = [] then -1 else 0, db') ∧
      Sound db' L' chain' ∧
      contents chain' = Function.update (contents chain) key (contents chain key).tail ∧
      (∀ kind, CoveredIn kind L chain → CoveredIn kind L' chain') := by
  cases s.find key with
  | absent b other result =>
      have none := contents_nil other
      refine ⟨db, L, chain, ?_, s, ?_, fun _ => id⟩
      · unfold dbDelete
        rw [result, if_pos none]
        rfl
      · rw [none, List.tail_nil, ← none, Function.update_eq_self]
  | found l₁ e l₂ before a split same other pred result =>
      obtain ⟨db', L', chain', deleted, sound, holds, covered, _⟩ :=
        s.deleteFound split same other pred result
      refine ⟨db', L', chain', ?_, sound, holds, covered⟩
      rw [deleted, if_neg]
      rw [contents_split split same other]
      exact List.cons_ne_nil _ _

/-! ### The first section of `db_store` -/

/-- How the first section of `db_store` comes out. -/
inductive Began (db : Db) (L : Layout) (chain : ℕ → List Entry) (key data : List UInt8) :
    DbFlag → Option (Begun × Db) → Prop
  | missing (none : contents chain key = []) :
      Began db L chain key data .replace (some (.returned (-1), db))
  | present (held : contents chain key ≠ []) :
      Began db L chain key data .insert (some (.returned 1, db))
  | inserted (none : contents chain key = []) (place : needsPlace db key data .insert = true)
      (out : Option (ℤ × Db)) (placed : Placed db L chain key data out) :
      Began db L chain key data .insert (out.map fun p => (.returned p.1, p.2))
  | longer (l₁ : List Entry) (e : Entry) (l₂ : List Entry) (before : List ℕ) (a : ℕ)
      (split : chain (dbChainOff key) = l₁ ++ e :: l₂) (same : e.record.key = key)
      (absent : ∀ e ∈ l₁, e.record.key ≠ key)
      (pred : dbChainOff key :: l₁.map Entry.offset = before ++ [a])
      (result : dbFind db key = some (true, foundDbd key a (L.ptr e.offset) e))
      (grows : e.record.datlen < data.length) :
      Began db L chain key data .replace
        (some (.longer (foundDbd key a (L.ptr e.offset) e), db))
  | rewritten (held : contents chain key ≠ []) (db' : Db) (L' : Layout)
      (chain' : ℕ → List Entry) (sound : Sound db' L' chain')
      (holds : contents chain' = Function.update (contents chain) key
        (data :: (contents chain key).tail))
      (covered : ∀ kind, CoveredIn kind L chain → CoveredIn kind L' chain') :
      Began db L chain key data .replace (some (.returned 0, db'))

theorem storeBegin (s : Sound db L chain) (noNul : 0 ∉ key) (limit : data.length ≤ datlenMax)
    (flag : DbFlag) (short : InsertShort db key data flag)
    (fits : flag = .replace → RewriteFits db key data) :
    Began db L chain key data flag (dbStoreBegin db key data flag) := by
  cases s.find key with
  | absent b other result =>
      have none := contents_nil other
      cases flag with
      | insert =>
          rw [s.storeBegin_insert rfl result]
          have place : needsPlace db key data .insert = true := by
            rw [needsPlace, result]
            rfl
          apply Began.inserted none place
          apply s.storeEnd rfl rfl (Nat.zero_le _) noNul limit
          have near := short _ result rfl rfl
          exact near
      | replace =>
          have answer : dbStoreBegin db key data .replace = some (.returned (-1), db) := by
            unfold dbStoreBegin
            rw [result]
            rfl
          rw [answer]
          exact .missing none
  | found l₁ e l₂ before a split same other pred result =>
      have held : contents chain key ≠ [] := by
        rw [contents_split split same other]
        exact List.cons_ne_nil _ _
      cases flag with
      | insert =>
          have answer : dbStoreBegin db key data .insert = some (.returned 1, db) := by
            unfold dbStoreBegin
            rw [result]
            rfl
          rw [answer]
          exact .present held
      | replace =>
          by_cases grows : e.record.datlen < data.length
          · have answer : dbStoreBegin db key data .replace =
                some (.longer (foundDbd key a (L.ptr e.offset) e), db) := by
              unfold dbStoreBegin
              rw [result]
              exact if_pos grows
            rw [answer]
            exact .longer l₁ e l₂ before a split same other pred result grows
          · have fit := Nat.le_of_not_lt grows
            have here : inPlace db key data = some (foundDbd key a (L.ptr e.offset) e) := by
              rw [inPlace, result]
              exact if_pos ⟨rfl, fit⟩
            obtain ⟨d, db', L', chain', wrote, sound, holds, covered⟩ :=
              s.rewrite split same other a fit (fits rfl _ here)
            have answer : dbStoreBegin db key data .replace = some (.returned 0, db') := by
              have start : dbStoreBegin db key data .replace =
                  (dbWrite db (foundDbd key a (L.ptr e.offset) e) key data false
                    (L.ptr e.offset)).bind fun p => pure (.returned 0, p.2) := by
                unfold dbStoreBegin
                rw [result]
                exact if_neg grows
              rw [start, wrote]
              rfl
            rw [answer]
            exact .rewritten held db' L' chain' sound holds covered

/-! ### The whole of `db_store` -/

theorem firstFit_start (keylen datlen start start' : ℕ) (l : List Fsdbd) :
    (firstFit keylen datlen start l).map (fun found => found.2.1) =
      (firstFit keylen datlen start' l).map fun found => found.2.1 := by
  cases l with
  | nil => rfl
  | cons item rest =>
      rw [firstFit, firstFit]
      split_ifs
      · rfl
      · rw [Option.map_map]

/-- A record that is too short for the data is not found for it on the free list. -/
theorem freeFor_deleted {db' : Db} {item : Fsdbd} (grown : db'.freeList = item :: db.freeList)
    (grows : item.datlen < data.length) : freeFor db' key data = freeFor db key data := by
  have unsuited : ¬ item.suits key.length data.length = true := by
    unfold Fsdbd.suits
    simp only [Bool.and_eq_true, decide_eq_true_eq]
    omega
  rw [freeFor, grown, firstFit, if_neg unsuited, Option.map_map]
  exact firstFit_start _ _ _ _ _

/-- A free record that stays on the list is read as before, but for its pointer. -/
theorem reusable_deleted (s : Sound db L chain) {db' : Db} {L' : Layout} {chain' : ℕ → List Entry}
    (s' : Sound db' L' chain') (stays : ∀ e ∈ chain freeOff, e ∈ chain' freeOff)
    (same : freeFor db' key data = freeFor db key data) :
    ∃ p, reusable db' key data = (reusable db key data).map fun d => { d with ptrval := p } := by
  cases s.findfree Dbd.alloc key data with
  | missing missing _ =>
      refine ⟨0, ?_⟩
      rw [reusable, reusable, same, missing]
      rfl
  | taken l₁ e l₂ before b db₁ split pred suits item result sound away idxLen dat =>
      have mem := mem_of_split split
      refine ⟨L'.ptr e.offset, ?_⟩
      rw [reusable_eq item (s.readidx head_freeOff mem),
        reusable_eq (same.trans item) (s'.readidx head_freeOff (stays e mem))]
      rfl

theorem short_deleted {db' : Db} {idxlenA p : ℕ}
    (short : Short db idxlenA key data) (datLen : db'.datLen = db.datLen)
    (same : freeFor db' key data = freeFor db key data)
    (read : reusable db' key data = (reusable db key data).map fun d => { d with ptrval := p }) :
    Short db' idxlenA key data := by
  constructor
  · intro d mem
    rw [read] at mem
    obtain ⟨d₀, found, rfl⟩ := Option.map_eq_some_iff.mp mem
    exact short.1 d₀ found
  · intro missing
    rw [same] at missing
    have near := short.2 missing
    unfold appendLen at near ⊢
    rwa [datLen]

theorem reuseFits_deleted {db' : Db} {p : ℕ} (fits : ReuseFits db key data)
    (read : reusable db' key data = (reusable db key data).map fun d => { d with ptrval := p }) :
    ReuseFits db' key data := by
  intro d mem
  rw [read] at mem
  obtain ⟨d₀, found, rfl⟩ := Option.map_eq_some_iff.mp mem
  exact fits d₀ found

/-- How `db_store` comes out. -/
inductive Stored (db : Db) (L : Layout) (chain : ℕ → List Entry) (key data : List UInt8)
    (flag : DbFlag) : Option (ℤ × Db) → Prop
  | tooLong (long : datlenMax < data.length) : Stored db L chain key data flag (some (3, db))
  | missing (replace : flag = .replace) (none : contents chain key = []) :
      Stored db L chain key data flag (some (-1, db))
  | present (insert : flag = .insert) (held : contents chain key ≠ []) :
      Stored db L chain key data flag (some (1, db))
  | full (place : needsPlace db key data flag = true) (free : freeFor db key data = none)
      (space : dbIsEnoughFileSpace db key.length data.length ≠ 0)
      (db' : Db) (L' : Layout) (chain' : ℕ → List Entry) (sound : Sound db' L' chain')
      (holds : contents chain' = Function.update (contents chain) key (contents chain key).tail)
      (covered : ∀ kind, CoveredIn kind L chain → CoveredIn kind L' chain') :
      Stored db L chain key data flag (some (2, db'))
  | stored (allowed : flag = .insert ↔ contents chain key = [])
      (db' : Db) (L' : Layout) (chain' : ℕ → List Entry) (sound : Sound db' L' chain')
      (holds : contents chain' = Function.update (contents chain) key
        (data :: (contents chain key).tail))
      (covered : ∀ kind, ((needsPlace db key data flag = true → ReuseFits db key data) ∨
          ∀ r, kind r → r.isfree = 0) → CoveredIn kind L chain → CoveredIn kind L' chain') :
      Stored db L chain key data flag (some (0, db'))
  | beyond (place : needsPlace db key data flag = true) (far : ptrMax < db.idxLen)
      (outgrown : ¬ ReuseFits db key data) : Stored db L chain key data flag none

theorem store (s : Sound db L chain) (noNul : 0 ∉ key) (flag : DbFlag)
    (short : StoreShort db key data flag) (fits : flag = .replace → RewriteFits db key data) :
    Stored db L chain key data flag (dbStore db key data flag) := by
  by_cases long : datlenMax < data.length
  · rw [dbStore, if_pos long]
    exact .tooLong long
  · have limit := Nat.le_of_not_lt long
    have began := s.storeBegin noNul limit flag short.insert fits
    rw [dbStore, if_neg long]
    generalize step : dbStoreBegin db key data flag = out at began
    cases began with
    | missing none => exact .missing rfl none
    | present held => exact .present rfl held
    | inserted none place out placed =>
        cases placed with
        | full free space =>
            apply Stored.full place free space db L chain s
            · rw [none, List.tail_nil, ← none, Function.update_eq_self]
            · exact fun _ => id
        | placed db' L' chain' sound holds covered =>
            apply Stored.stored ⟨fun _ => none, fun _ => rfl⟩ db' L' chain' sound
            · rw [holds, none]
              rfl
            · exact fun kind reuse => covered kind (reuse.imp_left fun fits => fits place)
        | beyond far outgrown => exact .beyond place far outgrown
    | rewritten held db' L' chain' sound holds covered =>
        apply Stored.stored _ db' L' chain' sound holds fun kind _ => covered kind
        constructor
        · intro insert
          cases insert
        · intro none
          exact absurd none held
    | longer l₁ e l₂ before a split same absent pred result grows =>
        obtain ⟨db₁, L₁, chain₁, deleted, sound₁, holds₁, covered₁, free, idxLen, datLen⟩ :=
          s.deleteFound split same absent pred result
        have grown : db₁.freeList = ⟨e.offset, e.record.datlen, e.record.idxlenA⟩ :: db.freeList := by
          rw [sound₁.freeList, free, List.map_cons, ← s.freeList]
          rfl
        have same' : freeFor db₁ key data = freeFor db key data := freeFor_deleted grown grows
        have stays : ∀ e' ∈ chain freeOff, e' ∈ chain₁ freeOff := by
          intro e' mem
          rw [free]
          exact List.mem_cons_of_mem _ mem
        obtain ⟨p, read⟩ := s.reusable_deleted sound₁ stays same'
        have near : Short db (foundDbd key a (L.ptr e.offset) e).idxlenA key data :=
          (short _ result rfl).2 grows
        have valid := s.laid.valid _ _
          (s.threads.held _ (head_dbChainOff key) e (mem_of_split split)).record
        have chainoff : (foundDbd key a (L.ptr e.offset) e).chainoff = dbChainOff key := rfl
        have placed := sound₁.storeEnd chainoff rfl valid.short noNul limit
          (short_deleted near datLen same' read)
        have space : dbIsEnoughFileSpace db₁ key.length data.length =
            dbIsEnoughFileSpace db key.length data.length := by
          unfold dbIsEnoughFileSpace
          rw [idxLen, datLen]
        change Stored db L chain key data .replace ((dbDelete db key).bind fun p =>
          dbStoreEnd p.2 (foundDbd key a (L.ptr e.offset) e) key data)
        rw [deleted]
        change Stored db L chain key data .replace
          (dbStoreEnd db₁ (foundDbd key a (L.ptr e.offset) e) key data)
        have held : contents chain key ≠ [] := by
          rw [contents_split split same absent]
          exact List.cons_ne_nil _ _
        generalize dbStoreEnd db₁ (foundDbd key a (L.ptr e.offset) e) key data = out at placed
        have place : needsPlace db key data .replace = true := by
          rw [needsPlace, result]
          exact decide_eq_true ⟨rfl, grows⟩
        cases placed with
        | full free full =>
            rw [space] at full
            rw [same'] at free
            exact .full place free full db₁ L₁ chain₁ sound₁ holds₁ covered₁
        | placed db' L' chain' sound holds covered =>
            apply Stored.stored _ db' L' chain' sound
            · rw [holds, holds₁, Function.update_self, Function.update_idem]
            · intro kind reuse all
              exact covered kind (reuse.imp_left fun fits => reuseFits_deleted (fits place) read)
                (covered₁ kind all)
            · constructor
              · intro insert
                cases insert
              · intro none
                exact absurd none held
        | beyond far outgrown =>
            rw [idxLen] at far
            exact .beyond place far fun fits => outgrown (reuseFits_deleted fits read)

end Sound
end BloomServer
