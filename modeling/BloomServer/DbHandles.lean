import BloomServer.DbAccessMap

/-! The handles of the files of a table (`DBAccess.cpp`): which of them are open, and which `dbs`
holds. -/
namespace BloomServer

/-- A file that is no database, or an entry of `dbs` that is not there or whose handle is closed. -/
inductive TableFault
  | file
  | handle
  deriving DecidableEq

/-- A table with the handles that `db_open` has returned so far, and the files of those that are
open. -/
structure CachedTable where
  filename : List UInt8
  countOfDatabase : ℕ
  databasesConf : List (List UInt8)
  dbs : AList fun _ : List UInt8 => Option ℕ
  file : List UInt8 → Db
  handles : ℕ
  openOn : ℕ → Option (List UInt8)

/-- The files that `db_conf` lists when a table is loaded, under the names that the table has
given them. -/
structure ConfFile where
  filename : List UInt8
  names : List (List UInt8)
  file : List UInt8 → Db
  nodup : names.Nodup
  numbered : ∀ f ∈ names, ∃ n < names.length, f = (DbAccessType.fresh filename).filenoOf n

namespace CachedTable

/-! ### Opening and closing -/

/-- `dbs[fileno]`, which makes an entry for a name that has none. -/
def index (t : CachedTable) (fileno : List UInt8) : Option ℕ × CachedTable :=
  match t.dbs.lookup fileno with
  | some db => (db, t)
  | none => (none, { t with dbs := t.dbs.insert fileno none })

/-- `dbs.end()`, which is behind the last entry. -/
def dbsEnd (_ : CachedTable) : Option (List UInt8 × Option ℕ) := none

/-- `db_close`. -/
def dbClose (t : CachedTable) : Option ℕ → Except TableFault CachedTable
  | some db =>
      if (t.openOn db).isSome then .ok { t with openOn := Function.update t.openOn db none }
      else .error .handle
  | none => .error .handle

/-- What `dbs.end()` points to is closed and erased. -/
def evict (t : CachedTable) : Except TableFault CachedTable :=
  match t.dbsEnd with
  | some (fileno, db) => do
      let t ← t.dbClose db
      return { t with dbs := t.dbs.erase fileno }
  | none => .error .handle

def _open (t : CachedTable) (fileno : List UInt8) (db : ℕ) : Except TableFault CachedTable := do
  let t ← if topDatabases < t.dbs.entries.length then t.evict else .ok t
  return { t with dbs := t.dbs.insert fileno (some db) }

/-- A handle that `db_open` returns, and `_open`. -/
def opened (t : CachedTable) (fileno : List UInt8) (db : Db) : Except TableFault CachedTable :=
  { t with
    file := Function.update t.file fileno db
    handles := t.handles + 1
    openOn := Function.update t.openOn t.handles (some fileno) }._open fileno t.handles

instance decidableMemConf (t : CachedTable) (fn : List UInt8) : Decidable (fn ∈ t.databasesConf) :=
  decidable_of_iff (t.databasesConf.contains fn = true) List.contains_iff_mem

def openExistDb (t : CachedTable) (fn : List UInt8) : Except TableFault (Option ℕ × CachedTable) :=
  if fn ∈ t.databasesConf then
    match dbOpen (t.file fn).idx (t.file fn).dat with
    | some db => do return (some t.handles, ← t.opened fn db)
    | none => .error .file
  else .ok (none, t)

def filenoOf (t : CachedTable) (number : ℕ) : List UInt8 := (DbAccessType.fresh t.filename).filenoOf number

def openNewDb (t : CachedTable) : Except TableFault (List UInt8 × ℕ × CachedTable) := do
  let fileno := t.filenoOf t.countOfDatabase
  let t' ← { t with databasesConf := DbAccessType.insertConf t.databasesConf fileno }.opened fileno Db.fresh
  return (fileno, t.handles, { t' with countOfDatabase := t.countOfDatabase + 1 })

/-- `_load`, file by file. -/
def loadLoop : List (List UInt8) → CachedTable → Except TableFault CachedTable
  | [], t => .ok t
  | fileno :: rest, t => do
      let (_, t) ← { t with databasesConf := DbAccessType.insertConf t.databasesConf fileno }.openExistDb fileno
      loadLoop rest { t with countOfDatabase := t.countOfDatabase + 1 }

def load (c : ConfFile) : Except TableFault CachedTable :=
  loadLoop c.names ⟨c.filename, 0, [], ∅, c.file, 0, fun _ => none⟩

/-- What the loops over all files do to get hold of one. -/
def usable (t : CachedTable) (fileno : List UInt8) : Except TableFault (Option ℕ × CachedTable) :=
  match t.dbs.lookup fileno with
  | none => t.openExistDb fileno
  | some db => .ok (db, t)

/-- A function of `db.h` on a handle. -/
def onHandle {α : Type} (t : CachedTable) (db : ℕ) (op : Db → Option (α × Db)) :
    Except TableFault (α × CachedTable) :=
  match t.openOn db with
  | some fileno =>
      match op (t.file fileno) with
      | some (ret, file) => .ok (ret, { t with file := Function.update t.file fileno file })
      | none => .error .file
  | none => .error .handle

/-! ### `store` -/

def hinted (t : CachedTable) (fileno : List UInt8) : Except TableFault (Option ℕ × CachedTable) :=
  if fileno = [] then .ok (none, t)
  else
    match t.index fileno with
    | (some db, t) => .ok (some db, t)
    | (none, t) => t.openExistDb fileno

def storeLoop (key data fileno : List UInt8) : List (List UInt8) → CachedTable →
    Except TableFault (Option (ℤ × List UInt8) × CachedTable)
  | [], t => .ok (none, t)
  | fileno_tmp :: rest, t => do
      match ← t.usable fileno_tmp with
      | (some db, t) =>
          let (ret, t) ← t.onHandle db fun file => dbPut file key data
          if ret = 0 then return (some (1, fileno_tmp), t)
          else if ret = 3 then return (some (2, fileno), t)
          else storeLoop key data fileno rest t
      | (none, t) => storeLoop key data fileno rest t

def storeNew (t : CachedTable) (key data : List UInt8) :
    Except TableFault (ℤ × List UInt8 × CachedTable) := do
  let (fileno, db, t) ← t.openNewDb
  let (ret, t) ← t.onHandle db fun file => dbPut file key data
  return (if ret = 0 then 1 else 2, fileno, t)

def storeAnywhere (t : CachedTable) (key data fileno : List UInt8) :
    Except TableFault (ℤ × List UInt8 × CachedTable) := do
  match ← storeLoop key data fileno t.databasesConf t with
  | (some (returnValue, fileno), t) => return (returnValue, fileno, t)
  | (none, t) => t.storeNew key data

/-- What is stored in the file asked for, 2 without one. -/
def storeHinted (t : CachedTable) (key data fileno : List UInt8) : Except TableFault (ℤ × CachedTable) := do
  match ← t.hinted fileno with
  | (some db, t) => t.onHandle db fun file => dbPutHinted file key data
  | (none, t) => return (2, t)

def store (t : CachedTable) (key data fileno : List UInt8) :
    Except TableFault (ℤ × List UInt8 × CachedTable) :=
  if key = [] then .ok (3, fileno, t)
  else do
    let (ret, t) ← t.storeHinted key data fileno
    if ret ≠ 2 then return (0, fileno, t) else t.storeAnywhere key data fileno

/-! ### `erase` -/

def eraseLoop (key : List UInt8) : List (List UInt8) → CachedTable → Except TableFault (ℤ × CachedTable)
  | [], t => .ok (1, t)
  | fileno_tmp :: rest, t => do
      match ← t.usable fileno_tmp with
      | (some db, t) => t.onHandle db fun file => dbDelete file key
      | (none, t) => eraseLoop key rest t

def erase (t : CachedTable) (key fileno : List UInt8) : Except TableFault (ℤ × CachedTable) :=
  match if fileno = [] then (none, t) else t.index fileno with
  | (some db, t) => t.onHandle db fun file => dbDelete file key
  | (none, t) => eraseLoop key t.databasesConf t

/-! ### `get` -/

/-- `db_fetch`, which leaves the file as it is. -/
def fetch (t : CachedTable) (db : Option ℕ) (key : List UInt8) :
    Except TableFault (Option (List UInt8) × CachedTable) :=
  match db with
  | some db => t.onHandle db fun file => (dbFetch file key).map fun dbd => (dbd, file)
  | none => .ok (none, t)

def getByPos (t : CachedTable) (key fileno : List UInt8) :
    Except TableFault (Option (List UInt8) × CachedTable) := do
  let (db, t) ← match t.index fileno with
    | (some db, t) => .ok (some db, t)
    | (none, t) => if fileno ≠ [] then t.openExistDb fileno else .ok (none, t)
  t.fetch db key

def getLoop (key fileno : List UInt8) : List (List UInt8) → CachedTable →
    Except TableFault (Option (List UInt8) × List UInt8 × CachedTable)
  | [], t => .ok (none, fileno, t)
  | fileno_tmp :: rest, t => do
      let (db, t) ← t.usable fileno_tmp
      let (dbd, t) ← t.fetch db key
      if dbd.isSome then return (dbd, fileno_tmp, t) else getLoop key fileno rest t

def get (t : CachedTable) (fileno key : List UInt8) (pos : Bool) :
    Except TableFault (Option (List UInt8) × List UInt8 × CachedTable) := do
  let (dbd, t) ← if fileno ≠ [] ∧ pos then t.getByPos key fileno else .ok (none, t)
  if dbd.isSome then return (dbd, fileno, t) else getLoop key fileno t.databasesConf t

end CachedTable

/-- A call on a table with its handles. -/
def TableCall.runCached : TableCall → CachedTable → Except TableFault (DbAnswer × CachedTable)
  | .store key data fileno, t => (t.store key data fileno).map fun p => (.code p.1, p.2.2)
  | .erase key fileno, t => (t.erase key fileno).map fun p => (.code p.1, p.2)
  | .get key fileno pos, t => (t.get fileno key pos).map fun p => (.data p.1, p.2.2)

def CachedStep (t : CachedTable) (ev : TableEvent) (t' : CachedTable) : Prop :=
  ev.call.runCached t = .ok (ev.answer, t')

end BloomServer
