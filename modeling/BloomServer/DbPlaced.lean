import BloomServer.DbEffect

/-! What the parts of `db_store` come to: a record appended, a free one reused, and a record
rewritten where it stands. -/
namespace BloomServer
open DecimalText LinkedChain

/-- A record whose data area is used for other data. -/
def Dbd.over (d : Dbd) (data : List UInt8) : Dbd := { d with datlenU := data.length }

/-- The length of an index record for the data, over one that has been read. -/
def rewriteLen (d : Dbd) (key data : List UInt8) : ℕ :=
  (indexText d.idxlenA key d.datoff d.datlen data.length 0).length + 1

/-- The length of an index record for the data at the end of the files, with an area for the key. -/
def appendLen (db : Db) (idxlenA : ℕ) (key data : List UInt8) : ℕ :=
  (indexText idxlenA key db.datLen data.length data.length 0).length + 1

/-- The free record that a store reuses, as it is read. -/
def reusable (db : Db) (key data : List UInt8) : Option Dbd :=
  (freeFor db key data).bind fun item => dbReadidx db.idx item.offset

/-- The index record of a new place keeps within the limit. -/
def Short (db : Db) (idxlenA : ℕ) (key data : List UInt8) : Prop :=
  (∀ d ∈ reusable db key data, rewriteLen d key data ≤ idxlenMax) ∧
    (freeFor db key data = none → appendLen db idxlenA key data ≤ idxlenMax)

/-- The index record of a free place that is reused fits. -/
def ReuseFits (db : Db) (key data : List UInt8) : Prop :=
  ∀ d ∈ reusable db key data, rewriteLen d key data ≤ d.idxlen

instance (db : Db) (idxlenA : ℕ) (key data : List UInt8) : Decidable (Short db idxlenA key data) :=
  inferInstanceAs (Decidable (_ ∧ _))

instance (db : Db) (key data : List UInt8) : Decidable (ReuseFits db key data) :=
  inferInstanceAs (Decidable (∀ d ∈ reusable db key data, _))

section Covered

variable {L : Layout} {chain : ℕ → List Entry} {c o v w : ℕ} {r : IndexRec} {data : List UInt8}

theorem covered_linked (head : Head c) {kind : IndexRec → Prop}
    (others : ∀ b q, L.record b = some q → kind q → b ≠ o → ¬ Threads.Off chain b) :
    CoveredIn kind ((L.put o r v).setPtr c w)
      (Function.update chain c (⟨o, r, data⟩ :: chain c)) := by
  intro b q held of_kind off
  obtain ⟨off, other⟩ := off_of_linked head off
  have elsewhere : b ≠ o := fun same => other same.symm
  have there : (L.put o r v).record b = some q := held
  rw [record_put_ne elsewhere] at there
  exact others b q there of_kind elsewhere off

end Covered

namespace Sound

variable {db : Db} {L : Layout} {chain : ℕ → List Entry} {c : ℕ} {e : Entry}
  {l l₁ l₂ : List Entry} {key data : List UInt8} {dbd : Dbd}

theorem reusable_eq {item : Fsdbd} {d : Dbd} (found : freeFor db key data = some item)
    (read : dbReadidx db.idx item.offset = some d) : reusable db key data = some d := by
  rw [reusable, found]
  exact read

theorem off_end (s : Sound db L chain) : Threads.Off chain db.idxLen := by
  intro c head e mem same
  have held := (s.threads.held c head e mem).record
  rw [same, s.idxLen, s.laid.record_size] at held
  cases held

theorem not_head_end (s : Sound db L chain) : ¬ Head db.idxLen := by
  intro head
  have low := head.lt
  have base := s.laid.base
  rw [s.idxLen] at low
  omega

/-- The record goes to the end of the index file. -/
theorem writeEnd (s : Sound db L chain) {append : Bool} {d : Dbd} {db₁ : Db}
    (chainoff : dbd.chainoff = dbChainOff key)
    (written : dbWritedatBin db dbd data dbd.datoff append = (d, db₁))
    (ends : d.appends key append = true) (valid : (d.written key).Valid)
    (short : (d.text key).length + 1 ≤ idxlenMax) (small : db.idxLen ≤ ptrMax) (state : d.isfree = 0)
    (inside : d.datoff ≤ db.dat.size) (fit : data.length ≤ d.datlen)
    (area : d.datoff + d.datlen ≤ db₁.dat.size)
    (clear : ∀ c, Head c → ∀ e ∈ chain c, (d.written key).Clear e.record)
    (datLen : db₁.datLen = db₁.dat.size) :
    ∃ db', dbWriteFront db dbd key data append (L.ptr (dbChainOff key)) = some (0, db') ∧
      Sound db' ((L.put db.idxLen (d.written key) (L.ptr (dbChainOff key))).setPtr (dbChainOff key)
        db.idxLen) (Function.update chain (dbChainOff key)
          (⟨db.idxLen, d.written key, data⟩ :: chain (dbChainOff key))) := by
  have pointer := s.laid.small (dbChainOff key)
  apply s.writeFront chainoff written
  · rw [if_pos ends]
  · exact short
  · exact small
  · rw [s.idxLen]
    exact s.laid.put_end valid pointer
  · rw [if_pos ends, s.idxLen, size_writeRecord_end valid.readable pointer]
  · exact s.off_end
  · exact s.not_head_end
  · exact state
  · exact inside
  · exact fit
  · exact area
  · exact clear
  · exact datLen

/-- The record goes over one that is on none of the chains. -/
theorem writeOver (s : Sound db L chain) {append : Bool} {d : Dbd} {db₁ : Db} {r : IndexRec}
    (chainoff : dbd.chainoff = dbChainOff key)
    (written : dbWritedatBin db dbd data dbd.datoff append = (d, db₁))
    (stays : d.appends key append = false) (valid : (d.written key).Valid)
    (short : (d.text key).length + 1 ≤ idxlenMax) (small : d.idxoff ≤ ptrMax) (state : d.isfree = 0)
    (inside : d.datoff ≤ db.dat.size) (fit : data.length ≤ d.datlen)
    (area : d.datoff + d.datlen ≤ db₁.dat.size)
    (clear : ∀ c, Head c → ∀ e ∈ chain c, (d.written key).Clear e.record)
    (datLen : db₁.datLen = db₁.dat.size) (off : Threads.Off chain d.idxoff)
    (held : L.record d.idxoff = some r) (same : (d.written key).idxlen = r.idxlen) :
    ∃ db', dbWriteFront db dbd key data append (L.ptr (dbChainOff key)) = some (0, db') ∧
      Sound db' ((L.put d.idxoff (d.written key) (L.ptr (dbChainOff key))).setPtr (dbChainOff key)
        d.idxoff) (Function.update chain (dbChainOff key)
          (⟨d.idxoff, d.written key, data⟩ :: chain (dbChainOff key))) := by
  have pointer := s.laid.small (dbChainOff key)
  have extent : (d.written key).extent = r.extent := by
    unfold IndexRec.extent
    rw [same]
  apply s.writeFront chainoff written
  · rw [if_neg (by rw [stays]; decide)]
  · exact short
  · exact small
  · exact s.laid.put_inside held valid same pointer
  · rw [if_neg (by rw [stays]; decide), size_writeRecord_inside valid.readable pointer, s.idxLen]
    rw [extent]
    exact s.laid.extent_le held
  · exact off
  · exact s.behind _ _ held
  · exact state
  · exact inside
  · exact fit
  · exact area
  · exact clear
  · exact datLen

/-- An offset with too many digits cannot be written to a chain. -/
theorem writeFront_far {append : Bool} {d : Dbd} {db₁ : Db} {p : ℕ}
    (written : dbWritedatBin db dbd data dbd.datoff append = (d, db₁))
    (ends : d.appends key append = true) (short : (d.text key).length + 1 ≤ idxlenMax)
    (small : p ≤ ptrMax) (far : ptrMax < db.idxLen) :
    dbWriteFront db dbd key data append p = none := by
  have idxLen : db₁.idxLen = db.idxLen := by rw [(writedat written).1]
  have write := dbWriteidx_eq db₁ d key d.idxoff append small short
  rw [if_pos ends, idxLen] at write
  unfold dbWriteFront dbWrite
  rw [written]
  change ((dbWriteidx db₁ d key d.idxoff append p).bind _).bind _ = _
  rw [write]
  change (dbWriteptr _ d.chainoff db.idxLen).bind _ = _
  rw [dbWriteptr, if_pos far]
  rfl

/-- How a store that finds a new place for its data comes out. -/
inductive Placed (db : Db) (L : Layout) (chain : ℕ → List Entry) (key data : List UInt8) :
    Option (ℤ × Db) → Prop
  | full (none : freeFor db key data = none)
      (space : dbIsEnoughFileSpace db key.length data.length ≠ 0) :
      Placed db L chain key data (some (2, db))
  | placed (db' : Db) (L' : Layout) (chain' : ℕ → List Entry) (sound : Sound db' L' chain')
      (holds : contents chain' = Function.update (contents chain) key (data :: contents chain key))
      (covered : ∀ kind, (ReuseFits db key data ∨ ∀ r, kind r → r.isfree = 0) →
        CoveredIn kind L chain → CoveredIn kind L' chain') :
      Placed db L chain key data (some (0, db'))
  | beyond (far : ptrMax < db.idxLen) (outgrown : ¬ ReuseFits db key data) :
      Placed db L chain key data none

theorem space_of_enough (space : dbIsEnoughFileSpace db key.length data.length = 0) :
    db.datLen + data.length ≤ dataFilelenMax ∧ db.idxLen + key.length ≤ ptrMax := by
  unfold dbIsEnoughFileSpace at space
  split_ifs at space with full far
  exact ⟨Nat.le_of_not_lt full, Nat.le_of_not_lt far⟩

/-- There is no free record for the data. -/
theorem storeAppended (s : Sound db L chain) (chainoff : dbd.chainoff = dbChainOff key)
    (state : dbd.isfree = 0) (idxlen : dbd.idxlen ≤ idxlenMax) (noNul : 0 ∉ key)
    (limit : data.length ≤ datlenMax) (missing : freeFor db key data = none)
    (short : appendLen db dbd.idxlenA key data ≤ idxlenMax) :
    Placed db L chain key data (dbStoreAt db dbd key data false (L.ptr (dbChainOff key))) := by
  have head := head_dbChainOff key
  by_cases space : dbIsEnoughFileSpace db key.length data.length = 0
  · obtain ⟨room, near⟩ := space_of_enough space
    have text : ({ dbd with
        idxlenU := key.length
        datlen := data.length
        datlenU := data.length
        datoff := db.datLen } : Dbd).text key =
        indexText dbd.idxlenA key db.datLen data.length data.length 0 := by
      rw [← state]
      rfl
    have short' : (indexText dbd.idxlenA key db.datLen data.length data.length 0).length + 1 ≤
        idxlenMax := short
    rw [← text] at short'
    have size : (db.dat.pwrite data db.datLen).size = db.dat.size + data.length := by
      rw [s.datLen, ByteFile.size_pwrite_end]
    unfold dataFilelenMax at room
    have chainoff' : ({ dbd with idxlenU := key.length } : Dbd).chainoff = dbChainOff key := chainoff
    have written : dbWritedatBin db { dbd with idxlenU := key.length } data dbd.datoff true =
        ({ dbd with
            idxlenU := key.length
            datlen := data.length
            datlenU := data.length
            datoff := db.datLen },
          { db with
            dat := db.dat.pwrite data db.datLen
            datLen := db.datLen + data.length }) := rfl
    obtain ⟨db', result, sound⟩ := s.writeEnd chainoff' written rfl
      (valid_written _ noNul short' idxlen (by dsimp only; omega) limit (Nat.le_refl _)
        (by dsimp only; omega))
      short' (by omega) state (Nat.le_of_eq s.datLen) (Nat.le_refl _)
      (by dsimp only; rw [size, s.datLen]) (by
        intro c head e mem
        have area := (s.threads.held c head e mem).area
        exact Or.inr (area.trans (Nat.le_of_eq s.datLen.symm)))
      (by dsimp only; rw [size, s.datLen])
    have answer : dbStoreAt db dbd key data false (L.ptr (dbChainOff key)) = some (0, db') := by
      unfold dbStoreAt
      rw [if_neg (by decide), if_neg (not_not.mpr space)]
      exact result
    rw [answer]
    apply Placed.placed db' _ _ sound
    · exact contents_link rfl
    · intro kind _ covered
      apply covered_linked head
      exact fun b q held of_kind _ => covered b q held of_kind
  · have answer : dbStoreAt db dbd key data false (L.ptr (dbChainOff key)) = some (2, db) := by
      unfold dbStoreAt
      rw [if_neg (by decide), if_pos space]
    rw [answer]
    exact .full missing space

/-- The length of the record that is written over a free one. -/
theorem rewriteLen_dbd (e : Entry) (offset p : ℕ) (key data : List UInt8) :
    rewriteLen (e.record.dbd offset p) key data =
      (indexText e.record.idxlenA key e.record.datoff e.record.datlen data.length 0).length + 1 := rfl

/-- A free record has been found and taken off the free list. -/
theorem storeReused (s : Sound db L chain) (chainoff : dbd.chainoff = dbChainOff key)
    (state : dbd.isfree = 0) (noNul : 0 ∉ key) {b : ℕ} {db' : Db}
    (split : chain freeOff = l₁ ++ e :: l₂) (suits : e.item.suits key.length data.length = true)
    (item : freeFor db key data = some e.item) (small : e.offset ≤ ptrMax)
    (sound : Sound db' (L.setPtr b (L.ptr e.offset)) (Function.update chain freeOff (l₁ ++ l₂)))
    (away : dbChainOff key ≠ b) (idxLen : db'.idxLen = db.idxLen) (dat : db'.dat = db.dat)
    (short : rewriteLen (e.record.dbd e.offset (L.ptr e.offset)) key data ≤ idxlenMax) :
    Placed db L chain key data
      (dbStoreAt db' (dbCopy (e.record.dbd e.offset (L.ptr e.offset)) dbd) key data true
        (L.ptr (dbChainOff key))) := by
  have head := head_dbChainOff key
  have mem := mem_of_split split
  have held := s.threads.held _ head_freeOff e mem
  have valid := s.laid.valid _ _ held.record
  have off := s.threads.off_unlinked head_freeOff split
  have clear := s.threads.clear_unlinked head_freeOff split
  have area := held.area
  have fit : data.length ≤ e.record.datlen := by
    unfold Fsdbd.suits Entry.item at suits
    simp only [Bool.and_eq_true, decide_eq_true_eq] at suits
    exact suits.1.2
  have same : (L.setPtr b (L.ptr e.offset)).ptr (dbChainOff key) = L.ptr (dbChainOff key) :=
    ptr_setPtr_ne away
  have text : ((dbCopy (e.record.dbd e.offset (L.ptr e.offset)) dbd).over data).text key =
      indexText e.record.idxlenA key e.record.datoff e.record.datlen data.length 0 := by
    rw [← state]
    rfl
  have short' := short
  rw [rewriteLen_dbd, ← text] at short'
  have inside : e.record.datoff ≤ db'.dat.size := by
    rw [dat]
    exact (Nat.le_add_right _ _).trans area
  have size : (db'.dat.pwrite data e.record.datoff).size = db'.dat.size := by
    apply ByteFile.size_pwrite_inside
    rw [dat]
    omega
  have area' : e.record.datoff + e.record.datlen ≤ (db'.dat.pwrite data e.record.datoff).size := by
    rw [size, dat]
    exact area
  have valid' := valid_written ((dbCopy (e.record.dbd e.offset (L.ptr e.offset)) dbd).over data)
    noNul short' valid.short valid.place valid.datlen fit
      (Nat.le_of_eq (state.trans rfl) |>.trans (Nat.zero_le 1))
  have chainoff' : (dbCopy (e.record.dbd e.offset (L.ptr e.offset)) dbd).chainoff =
      dbChainOff key := chainoff
  have written : dbWritedatBin db' (dbCopy (e.record.dbd e.offset (L.ptr e.offset)) dbd) data
      (dbCopy (e.record.dbd e.offset (L.ptr e.offset)) dbd).datoff false =
      ((dbCopy (e.record.dbd e.offset (L.ptr e.offset)) dbd).over data,
        { db' with dat := db'.dat.pwrite data e.record.datoff }) := rfl
  have holds (x : ℕ) (r : IndexRec) (eq : r.key = key) :
      contents (Function.update (Function.update chain freeOff (l₁ ++ l₂)) (dbChainOff key)
        (⟨x, r, data⟩ :: Function.update chain freeOff (l₁ ++ l₂) (dbChainOff key))) =
        Function.update (contents chain) key (data :: contents chain key) := by
    rw [contents_link eq, contents_free]
  have answer : dbStoreAt db' (dbCopy (e.record.dbd e.offset (L.ptr e.offset)) dbd) key data true
      (L.ptr (dbChainOff key)) = dbWriteFront db' (dbCopy (e.record.dbd e.offset (L.ptr e.offset)) dbd)
        key data false ((L.setPtr b (L.ptr e.offset)).ptr (dbChainOff key)) := by
    rw [same]
    exact if_pos rfl
  rw [answer]
  by_cases fits : rewriteLen (e.record.dbd e.offset (L.ptr e.offset)) key data ≤ e.record.idxlen
  · have stays :
        ((dbCopy (e.record.dbd e.offset (L.ptr e.offset)) dbd).over data).appends key false = false := by
      apply decide_eq_false
      rw [text]
      exact Nat.not_lt.mpr fits
    obtain ⟨db'', result, sound'⟩ := sound.writeOver chainoff' written stays valid' short' small state
      inside fit area' clear (sound.datLen.trans size.symm) off held.record
      (max_eq_left (by rw [text]; exact fits))
    rw [result]
    apply Placed.placed db'' _ _ sound' (holds _ _ rfl)
    intro kind _ covered
    apply covered_linked head
    intro b q there of_kind other off
    exact covered b q there of_kind (off_of_unlinked head_freeOff split other.symm off)
  · have ends :
        ((dbCopy (e.record.dbd e.offset (L.ptr e.offset)) dbd).over data).appends key false = true := by
      apply decide_eq_true
      rw [text]
      exact Nat.lt_of_not_le fits
    have outgrown : ¬ ReuseFits db key data := fun reuse =>
      absurd (reuse _ (reusable_eq item (s.readidx head_freeOff mem))) fits
    by_cases near : db.idxLen ≤ ptrMax
    · obtain ⟨db'', result, sound'⟩ := sound.writeEnd chainoff' written ends valid' short'
        (by rw [idxLen]; exact near) state inside fit area' clear (sound.datLen.trans size.symm)
      rw [result]
      apply Placed.placed db'' _ _ sound' (holds _ _ rfl)
      -- the free record is left on no chain, but it is not live
      intro kind reuse covered
      have live := reuse.resolve_left outgrown
      apply covered_linked head
      intro b q there of_kind _ off
      have other : e.offset ≠ b := by
        rintro rfl
        have same : some e.record = some q := held.record.symm.trans there
        have marked : e.record.isfree = 1 := held.belongs
        rw [Option.some.inj same, live q of_kind] at marked
        cases marked
      exact covered b q there of_kind (off_of_unlinked head_freeOff split other off)
    · have far := Nat.lt_of_not_le near
      rw [writeFront_far written ends short' (sound.laid.small _) (by rw [idxLen]; exact far)]
      exact .beyond far outgrown

/-- The last section of `db_store` finds a new place for the data. -/
theorem storeEnd (s : Sound db L chain) (chainoff : dbd.chainoff = dbChainOff key)
    (state : dbd.isfree = 0) (idxlen : dbd.idxlen ≤ idxlenMax) (noNul : 0 ∉ key)
    (limit : data.length ≤ datlenMax) (short : Short db dbd.idxlenA key data) :
    Placed db L chain key data (dbStoreEnd db dbd key data) := by
  have head := head_dbChainOff key
  unfold dbStoreEnd
  cases s.findfree dbd key data with
  | missing missing result =>
      simp only [result, s.laid.readptr (Or.inl head), Option.bind_eq_bind, Option.bind_some]
      exact s.storeAppended chainoff state idxlen noNul limit missing (short.2 missing)
  | taken l₁ e l₂ before b db' split pred suits item result sound stays idxLen dat =>
      have mem := mem_of_split split
      have away := stays _ head (dbChainOff_ne_freeOff key)
      have small : e.offset ≤ ptrMax := s.ptr_pred head_freeOff split pred ▸ s.laid.small b
      simp only [result, sound.laid.readptr (Or.inl head), Option.bind_eq_bind, Option.bind_some,
        ptr_setPtr_ne away]
      exact s.storeReused chainoff state noNul split suits item small sound away idxLen dat
        (short.1 _ (reusable_eq item (s.readidx head_freeOff mem)))

theorem returned_eq (out : Option (ℤ × Db)) :
    (out.bind fun p => some (Begun.returned p.1, p.2)) =
      out.map fun p => (Begun.returned p.1, p.2) := by
  cases out with
  | none => rfl
  | some p => rfl

/-- `db_store` finds a new place in the same way while it keeps the lock. -/
theorem storeBegin_insert (s : Sound db L chain) (chainoff : dbd.chainoff = dbChainOff key)
    (absent : dbFind db key = some (false, dbd)) :
    dbStoreBegin db key data .insert =
      (dbStoreEnd db dbd key data).map fun out => (.returned out.1, out.2) := by
  have head := head_dbChainOff key
  have pointer := s.laid.readptr (Or.inl head)
  unfold dbStoreBegin dbStoreEnd
  cases s.findfree dbd key data with
  | missing missing result =>
      simp only [absent, chainoff, pointer, result, Option.bind_eq_bind, Option.bind_some]
      exact returned_eq (dbStoreAt db dbd key data false (L.ptr (dbChainOff key)))
  | taken l₁ e l₂ before b db' split pred suits item result sound stays idxLen dat =>
      have away := stays _ head (dbChainOff_ne_freeOff key)
      simp only [absent, chainoff, pointer, result, sound.laid.readptr (Or.inl head),
        ptr_setPtr_ne away, Option.bind_eq_bind, Option.bind_some]
      exact returned_eq (dbStoreAt db' (dbCopy (e.record.dbd e.offset (L.ptr e.offset)) dbd) key data
        true (L.ptr (dbChainOff key)))

end Sound
end BloomServer
