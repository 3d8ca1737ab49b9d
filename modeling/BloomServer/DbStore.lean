import BloomServer.DbFile

/-! `db_store`, `db_delete`, `db_fetch` and `db_open`: hash chains and a free list threaded
through the index file. No operation is handed the position of its record (`pos`). -/
namespace BloomServer
open DecimalText

/-- The flags of `db_store`. -/
inductive DbFlag
  | insert
  | replace
  deriving DecidableEq

/-- `hval += c * i`, with a signed character and its index counted from 1. -/
def dbHashFrom : ℕ → UInt64 → List UInt8 → UInt64
  | _, hval, [] => hval
  | i, hval, c :: rest => dbHashFrom (i + 1) (hval + UInt64.ofInt (c.toInt8.toInt * i)) rest

def dbHash (key : List UInt8) : ℕ := (dbHashFrom 1 0 key).toNat % nhashDef

def dbChainOff (key : List UInt8) : ℕ := dbHash key * ptrSz + hashOff

/-- The chain and the state of the record stay as they are. -/
def dbCopy (src des : Dbd) : Dbd :=
  { des with
    datlen := src.datlen
    idxlen := src.idxlen
    datlenU := src.datlenU
    idxlenU := src.idxlenU
    idxlenA := src.idxlenA
    idxoff := src.idxoff
    datoff := src.datoff
    ptrval := src.ptrval
    idxbuf := src.idxbuf }

/-- The loop of `_db_find`, with as many rounds left as its first argument says. -/
def dbFindLoop (f : ByteFile) (key : List UInt8) : ℕ → Dbd → ℕ → Option (Bool × Dbd)
  | 0, _, _ => none
  | n + 1, dbd, offset =>
      if offset = 0 then some (false, dbd)
      else do
        let dbdNew ← dbReadidx f offset
        if dbdNew.idxbuf = key then return (true, dbCopy dbdNew dbd)
        else dbFindLoop f key n { dbd with ptroff := offset } dbdNew.ptrval

/-- Whether the key was found, and its record. -/
def dbFind (db : Db) (key : List UInt8) : Option (Bool × Dbd) := do
  let dbd := { Dbd.alloc with chainoff := dbChainOff key, ptroff := dbChainOff key }
  let offset ← dbReadptr db.idx dbd.ptroff
  dbFindLoop db.idx key (db.idx.size + 1) dbd offset

def idxRange : ℕ := 1000
def datRange : ℕ := 1024 * 3

/-- Whether a free record is large enough, and not much too large. -/
def Fsdbd.suits (item : Fsdbd) (keylen datlen : ℕ) : Bool :=
  keylen ≤ item.idxlenA && item.idxlenA < keylen + idxRange &&
    datlen ≤ item.datlen && item.datlen < datlen + datRange

/-- The first free record that suits, the offset of the one in front of it, and the others. -/
def firstFit (keylen datlen : ℕ) : ℕ → List Fsdbd → Option (ℕ × Fsdbd × List Fsdbd)
  | _, [] => none
  | saveoffset, item :: rest =>
      if item.suits keylen datlen then some (saveoffset, item, rest)
      else (firstFit keylen datlen item.offset rest).map fun p => (p.1, p.2.1, item :: p.2.2)

/-- Whether a free record was found, which is then taken off both lists. -/
def dbFindfreeCache (db : Db) (dbd : Dbd) (keylen datlen : ℕ) : Option (Bool × Dbd × Db) :=
  match firstFit keylen datlen freeOff db.freeList with
  | none => some (false, dbd, db)
  | some (saveoffset, item, others) => do
      let dbdNew ← dbReadidx db.idx item.offset
      let dbd := dbCopy dbdNew dbd
      let db ← dbWriteptr db saveoffset dbd.ptrval
      return (true, dbd, { db with freeList := others })

/-- Put the record at the front of the free list, on disk and in memory, and take it off its hash
chain. -/
def dbDodelete (db : Db) (dbd : Dbd) : Option Db := do
  let blanks := List.replicate dbd.idxbuf.length 32
  let freeptr ← dbReadptr db.idx freeOff
  let saveptr := dbd.ptrval
  let dbd := { dbd with isfree := 1 }
  let (_, dbd, db) ← dbWriteidx db dbd blanks dbd.idxoff false freeptr
  let db ← dbWriteptr db freeOff dbd.idxoff
  let db ← dbWriteptr db dbd.ptroff saveptr
  return { db with freeList := ⟨dbd.idxoff, dbd.datlen, dbd.idxlenA⟩ :: db.freeList }

def dbDelete (db : Db) (key : List UInt8) : Option (ℤ × Db) := do
  let (found, dbd) ← dbFind db key
  if found then return (0, ← dbDodelete db dbd) else return (-1, db)

def dbFetch (db : Db) (key : List UInt8) : Option (Option (List UInt8)) := do
  let (found, dbd) ← dbFind db key
  if found then return some (← dbReaddatBin db dbd).datbuf else return none

/-- 0 if there is room, 1 if the data file is full, 2 if the index file is. -/
def dbIsEnoughFileSpace (db : Db) (idxlen datlen : ℕ) : ℕ :=
  if dataFilelenMax < db.datLen + datlen then 1
  else if ptrMax < db.idxLen + idxlen then 2
  else 0

/-- Write the data and the index record. -/
def dbWrite (db : Db) (dbd : Dbd) (key data : List UInt8) (append : Bool) (ptrval : ℕ) :
    Option (Dbd × Db) := do
  let (dbd, db) := dbWritedatBin db dbd data dbd.datoff append
  let (_, dbd, db) ← dbWriteidx db dbd key dbd.idxoff append ptrval
  return (dbd, db)

/-- Write them and put the record at the front of its hash chain. -/
def dbWriteFront (db : Db) (dbd : Dbd) (key data : List UInt8) (append : Bool) (ptrval : ℕ) :
    Option (ℤ × Db) := do
  let (dbd, db) ← dbWrite db dbd key data append ptrval
  return (0, ← dbWriteptr db dbd.chainoff dbd.idxoff)

/-- A free record is reused, or a new one appended. -/
def dbStoreAt (db : Db) (dbd : Dbd) (key data : List UInt8) (reused : Bool) (ptrval : ℕ) :
    Option (ℤ × Db) :=
  if reused then dbWriteFront db dbd key data false ptrval
  else if dbIsEnoughFileSpace db key.length data.length ≠ 0 then some (2, db)
  else dbWriteFront db { dbd with idxlenU := key.length } key data true ptrval

/-- What a store that keeps the lock comes to, and what one that gives it up is left with. -/
inductive Begun
  | returned (rc : ℤ)
  | longer (dbd : Dbd)

/-- `db_store` up to its return, or to where it gives up the lock to delete a record that is too
short. -/
def dbStoreBegin (db : Db) (key data : List UInt8) (flag : DbFlag) : Option (Begun × Db) := do
  let (found, dbd) ← dbFind db key
  if ¬ found then
    if flag = .replace then return (.returned (-1), db)
    else
      let ptrval ← dbReadptr db.idx dbd.chainoff
      let (reused, dbd, db) ← dbFindfreeCache db dbd key.length data.length
      let (rc, db) ← dbStoreAt db dbd key data reused ptrval
      return (.returned rc, db)
  else if flag = .insert then return (.returned 1, db)
  else if dbd.datlen < data.length then return (.longer dbd, db)
  else
    let (_, db) ← dbWrite db dbd key data false dbd.ptrval
    return (.returned 0, db)

/-- `db_store` from where it has the lock again. -/
def dbStoreEnd (db : Db) (dbd : Dbd) (key data : List UInt8) : Option (ℤ × Db) := do
  let (reused, dbd, db) ← dbFindfreeCache db dbd key.length data.length
  let ptrval ← dbReadptr db.idx (dbChainOff key)
  dbStoreAt db dbd key data reused ptrval

def dbStore (db : Db) (key data : List UInt8) (flag : DbFlag) : Option (ℤ × Db) :=
  if datlenMax < data.length then some (3, db)
  else do
    match ← dbStoreBegin db key data flag with
    | (.returned rc, db) => return (rc, db)
    | (.longer dbd, db) =>
        let (_, db) ← dbDelete db key
        dbStoreEnd db dbd key data

/-! ### Opening -/

/-- The loop of `_db_retrieve_free_space`. -/
def dbRetrieveLoop (f : ByteFile) : ℕ → ℕ → Option (List Fsdbd)
  | 0, _ => none
  | n + 1, offset =>
      if offset = 0 then some []
      else do
        let dbd ← dbReadidx f offset
        let rest ← dbRetrieveLoop f n dbd.ptrval
        return ⟨offset, dbd.datlen, dbd.idxlenA⟩ :: rest

def dbRetrieveFreeSpace (f : ByteFile) : Option (List Fsdbd) := do
  let offset ← dbReadptr f freeOff
  dbRetrieveLoop f (f.size + 1) offset

def dbOpen (idx dat : ByteFile) : Option Db := do
  let freeList ← dbRetrieveFreeSpace idx
  return { idx, dat, idxLen := idx.size, datLen := dat.size, freeList }

/-- The offset behind the hash table and its newline. -/
def idxBase : ℕ := ptrSz * (nhashDef + 1) + 1

/-- A new index file: the pointers `"        0"`, and a newline. -/
def idxTemplate : ByteFile where
  bytes i :=
    if idxBase ≤ i then 0 else if i = idxBase - 1 then 10 else if i % ptrSz = ptrSz - 1 then 48 else 32
  size := idxBase

def Db.fresh : Db := ⟨idxTemplate, ⟨fun _ => 0, 0⟩, idxBase, 0, []⟩

end BloomServer
