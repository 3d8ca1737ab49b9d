import BloomServer.DbPut
import Mathlib.Data.List.AList
import Mathlib.Data.List.Sort

/-! A table whose records are spread over many files (`DBAccess.cpp`), used by one thread. -/
namespace BloomServer
open DecimalText

def topDatabases : ℕ := 100
def maxDatabasesPerDir : ℕ := 1000

/-- A table: the files of it (`databases_conf`, and the file `db_conf` with the same keys), and the
handles that have an entry, `false` for `NULL`. -/
structure DbAccessType where
  filename : List UInt8
  countOfDatabase : ℕ
  databasesConf : List (List UInt8)
  dbs : AList fun _ : List UInt8 => Bool
  file : List UInt8 → Db

namespace DbAccessType

/-- A table with no file yet. -/
def fresh (filename : List UInt8) : DbAccessType := ⟨filename, 0, [], ∅, fun _ => Db.fresh⟩

/-- `dbs[fileno]`, which makes an entry for a name that has none. -/
def index (t : DbAccessType) (fileno : List UInt8) : Bool × DbAccessType :=
  match t.dbs.lookup fileno with
  | some db => (db, t)
  | none => (false, { t with dbs := t.dbs.insert fileno false })

/-- With more entries than there should be, what `dbs.end()` points to is closed and erased. -/
def _open (t : DbAccessType) (fileno : List UInt8) : Option DbAccessType :=
  if topDatabases < t.dbs.entries.length then none
  else some { t with dbs := t.dbs.insert fileno true }

/-- A file of the table. -/
def Has (t : DbAccessType) (fileno : List UInt8) : Prop := fileno ∈ t.databasesConf

instance (t : DbAccessType) (fileno : List UInt8) : Decidable (t.Has fileno) :=
  inferInstanceAs (Decidable (fileno ∈ t.databasesConf))

/-- Whether there is such a file, which is open then. -/
def openExistDb (t : DbAccessType) (fn : List UInt8) : Option (Bool × DbAccessType) :=
  if t.Has fn then do
    let db ← dbOpen (t.file fn).idx (t.file fn).dat
    let t ← { t with file := Function.update t.file fn db }._open fn
    return (true, t)
  else some (false, t)

/-- The name of the file with a number: `dir/filename.number`. -/
def filenoOf (t : DbAccessType) (number : ℕ) : List UInt8 :=
  decimal ((number + 1) / maxDatabasesPerDir) ++ [47] ++ t.filename ++ [46] ++ decimal number

/-- The names are kept in order. -/
def insertConf (conf : List (List UInt8)) (key : List UInt8) : List (List UInt8) :=
  if key ∈ conf then conf else conf.orderedInsert (· ≤ ·) key

/-- The files of the directory with such a name belong to the table. -/
def openNewDb (t : DbAccessType) : Option (List UInt8 × DbAccessType) := do
  let fileno := t.filenoOf t.countOfDatabase
  let t ← { t with
    databasesConf := insertConf t.databasesConf fileno
    file := Function.update t.file fileno Db.fresh }._open fileno
  return (fileno, { t with countOfDatabase := t.countOfDatabase + 1 })

/-- What the loops over all files do to get hold of one. -/
def usable (t : DbAccessType) (fileno : List UInt8) : Option (Bool × DbAccessType) :=
  match t.dbs.lookup fileno with
  | none => t.openExistDb fileno
  | some db => some (db, t)

/-- An operation on one of the files. -/
def onFile (t : DbAccessType) (fileno : List UInt8) (op : Db → Option (ℤ × Db)) :
    Option (ℤ × DbAccessType) :=
  (op (t.file fileno)).map fun p => (p.1, { t with file := Function.update t.file fileno p.2 })

/-! ### `store` -/

/-- The file that the caller asks for. -/
def hinted (t : DbAccessType) (fileno : List UInt8) : Option (Bool × DbAccessType) :=
  if fileno = [] then some (false, t)
  else
    let (db, t) := t.index fileno
    if db then some (true, t) else t.openExistDb fileno

/-- The loop over all files: what is returned, and the name of the file, if the loop is left. -/
def storeLoop (key data fileno : List UInt8) :
    List (List UInt8) → DbAccessType → Option (Option (ℤ × List UInt8) × DbAccessType)
  | [], t => some (none, t)
  | fileno_tmp :: rest, t => do
      let (db, t) ← t.usable fileno_tmp
      if db then
        let (ret, t) ← t.onFile fileno_tmp fun db => dbPut db key data
        if ret = 0 then return (some (1, fileno_tmp), t)
        else if ret = 3 then return (some (2, fileno), t)
        else storeLoop key data fileno rest t
      else storeLoop key data fileno rest t

def storeNew (t : DbAccessType) (key data : List UInt8) :
    Option (ℤ × List UInt8 × DbAccessType) := do
  let (fileno, t) ← t.openNewDb
  let (ret, t) ← t.onFile fileno fun db => dbPut db key data
  return (if ret = 0 then 1 else 2, fileno, t)

/-- All files are searched for the record or for a place, and in the end a new one is opened. -/
def storeAnywhere (t : DbAccessType) (key data fileno : List UInt8) :
    Option (ℤ × List UInt8 × DbAccessType) := do
  match ← storeLoop key data fileno t.databasesConf t with
  | (some (returnValue, fileno), t) => return (returnValue, fileno, t)
  | (none, t) => t.storeNew key data

/-- The file asked for comes first. The answer comes with the name of the file. -/
def store (t : DbAccessType) (key data fileno : List UInt8) :
    Option (ℤ × List UInt8 × DbAccessType) :=
  if key = [] then some (3, fileno, t)
  else do
    let (db, t) ← t.hinted fileno
    let (ret, t) ← if db then t.onFile fileno fun db => dbPutHinted db key data else some (2, t)
    if ret ≠ 2 then return (0, fileno, t) else t.storeAnywhere key data fileno

/-! ### `erase` -/

def eraseLoop (key : List UInt8) : List (List UInt8) → DbAccessType → Option (ℤ × DbAccessType)
  | [], t => some (1, t)
  | fileno_tmp :: rest, t => do
      let (db, t) ← t.usable fileno_tmp
      if db then t.onFile fileno_tmp fun db => dbDelete db key else eraseLoop key rest t

/-- Only the first file that can be opened is searched. -/
def erase (t : DbAccessType) (key fileno : List UInt8) : Option (ℤ × DbAccessType) :=
  let (db, t) := if fileno = [] then (false, t) else t.index fileno
  if db then t.onFile fileno fun db => dbDelete db key else eraseLoop key t.databasesConf t

/-! ### `get` -/

/-- The position that is handed in has its offset 0 yet. -/
def getByPos (t : DbAccessType) (key fileno : List UInt8) :
    Option (Option (List UInt8) × DbAccessType) := do
  let (db, t) := t.index fileno
  let (db, t) ← if fileno ≠ [] ∧ ¬ db then t.openExistDb fileno else some (db, t)
  let dbd ← if db then dbFetch (t.file fileno) key else some none
  return (dbd, t)

def getLoop (key fileno : List UInt8) :
    List (List UInt8) → DbAccessType → Option (Option (List UInt8) × List UInt8 × DbAccessType)
  | [], t => some (none, fileno, t)
  | fileno_tmp :: rest, t => do
      let (db, t) ← t.usable fileno_tmp
      let dbd ← if db then dbFetch (t.file fileno_tmp) key else some none
      if dbd.isSome then return (dbd, fileno_tmp, t) else getLoop key fileno rest t

/-- With a position (`pos`), the file asked for is searched before all files are. -/
def get (t : DbAccessType) (fileno key : List UInt8) (pos : Bool) :
    Option (Option (List UInt8) × List UInt8 × DbAccessType) := do
  let (dbd, t) ← if fileno ≠ [] ∧ pos then t.getByPos key fileno else some (none, t)
  if dbd.isSome then return (dbd, fileno, t) else getLoop key fileno t.databasesConf t

end DbAccessType
end BloomServer
