import BloomServer.UrlNode
import BloomServer.UrlParse
import BloomServer.Library.QuotedText
import Mathlib.Data.List.Sort

/-! What the queue of a host does with more than two thousand URLs: `HostNode::push_back` and
`push_front` write them into tables of sqlite. -/
namespace BloomServer
open DecimalText QuotedText

/-- A row of `host_table`. -/
structure HostRow where
  id : ℕ
  domain : List UInt8

/-- A row of `not_fetched_url_table`. -/
structure UrlRow where
  id : ℕ
  hostid : ℤ
  pushback : ℤ
  url : List UInt8
  urldata : List UInt8

structure SqliteDb where
  hosts : List HostRow
  urls : List UrlRow

/-- The `ID` that a row gets for `NULL`. -/
def nextId (ids : List ℕ) : ℕ := ids.foldr max 0 + 1

/-- `sqlite3_column_int`. -/
def columnInt (id : ℕ) : ℤ := Int.bmod id (2 ^ 32)

/-- What sqlite does with other texts than the statements below: `none` for one that it rejects,
whether a step is `SQLITE_DONE` and the tables behind it, and the number in the first row. -/
structure OtherSql where
  write : List UInt8 → SqliteDb → Option (Bool × SqliteDb)
  read : List UInt8 → SqliteDb → Option ℤ

/-! ### Statements -/

/-- `sprintf` into `sqlbuf`. -/
def sqlbuf (text : List UInt8) : Option (List UInt8) := if text.length < 1024 then some text else none

/-- A statement that is a literal between two texts. -/
structure Sql where
  before : List UInt8
  after : List UInt8

def Sql.text (sql : Sql) (value : List UInt8) : List UInt8 := sql.before ++ (39 :: value ++ 39 :: sql.after)

/-- What the literal denotes, in a text of this form. -/
def Sql.literal (sql : Sql) (text : List UInt8) : Option (List UInt8) :=
  if sql.before ++ [39] <+: text then
    match unquote 39 (text.drop (sql.before.length + 1)) with
    | some (value, rest) => if rest = sql.after then some value else none
    | none => none
  else none

def selectHost : Sql := ⟨ascii "select id from host_table where domain = ", []⟩

def insertHost : Sql := ⟨ascii "insert into host_table values(NULL, ", ascii ")"⟩

def insertUrl (hostid : ℤ) (pushback : Bool) : Sql where
  before := ascii "insert into not_fetched_url_table values(NULL, " ++ printInt hostid ++ ascii ", " ++
    printInt (if pushback then 1 else 0) ++ ascii ", "
  after := ascii ", ?)"

variable (other : OtherSql)

/-- `get_hostid_by_domain`: the id that it leaves in `id`. -/
def getHostidByDomain (db : SqliteDb) (domain : List UInt8) (id : ℤ) : Option ℤ := do
  let text ← sqlbuf (selectHost.text domain)
  match selectHost.literal text with
  | some value =>
      match db.hosts.find? fun row => row.domain = value with
      | some row => return columnInt row.id
      | none => return id
  | none => return (other.read text db).getD id

/-- `insert_host`, which always returns `STATE_SUCCESS`. -/
def insertHostRow (db : SqliteDb) (domain : List UInt8) : Option SqliteDb := do
  let text ← sqlbuf (insertHost.text domain)
  match insertHost.literal text with
  | some value => return { db with hosts := db.hosts ++ [⟨nextId (db.hosts.map HostRow.id), value⟩] }
  | none => return ((other.write text db).map Prod.snd).getD db

/-- The values of an insertion. -/
def SqliteDb.newRow (db : SqliteDb) (hostid : ℤ) (pushback : Bool) (url data : List UInt8) : UrlRow :=
  ⟨nextId (db.urls.map UrlRow.id), hostid, if pushback then 1 else 0, url, data⟩

/-- `insert_unfetched_url`: whether it returns `STATE_SUCCESS`. -/
def insertUnfetchedUrl (db : SqliteDb) (url data : List UInt8) (hostid : ℤ) (pushback : Bool) :
    Option (Bool × SqliteDb) := do
  let text ← sqlbuf ((insertUrl hostid pushback).text url)
  match (insertUrl hostid pushback).literal text with
  | some value => return (true, { db with urls := db.urls ++ [db.newRow hostid pushback value data] })
  | none =>
      -- a text that sqlite rejects leaves `ret` as it was
      return (other.write text db).getD (true, db)

/-- The order of `order by pushback, id`. -/
def UrlRow.le (a b : UrlRow) : Bool := a.pushback < b.pushback || (a.pushback = b.pushback && a.id ≤ b.id)

/-- `get_unfetched_urls`: the rows whose `urldata` is made into nodes. -/
def getUnfetchedUrls (db : SqliteDb) (hostid : ℤ) (urlToRead : ℕ) : List UrlRow :=
  ((db.urls.filter fun row => row.hostid = hostid).mergeSort UrlRow.le).take urlToRead

/-! ### The queue -/

/-- The members of `HostNode` that a spill is about. -/
structure SpillingHost where
  host : CharArray maxUrlLen
  fifoqueue : List UrlNode
  sqliteHostId : ℤ

namespace SpillingHost

def enqueue (h : SpillingHost) (urlnode : UrlNode) (pushback : Bool) : SpillingHost :=
  { h with fifoqueue := if pushback then h.fifoqueue ++ [urlnode] else urlnode :: h.fifoqueue }

/-- The host's row is searched for, and written if there is none. -/
def lookUp (h : SpillingHost) (db : SqliteDb) : Option (ℤ × SqliteDb) :=
  if h.sqliteHostId = -1 then do
    let id ← getHostidByDomain other db h.host.chars (-1)
    if id = -1 then
      let db ← insertHostRow other db h.host.chars
      return (← getHostidByDomain other db h.host.chars (-1), db)
    else return (id, db)
  else some (h.sqliteHostId, db)

/-- The common body of `push_back` and `push_front`, whose node is deleted when it is in the table. -/
def push (h : SpillingHost) (db : SqliteDb) (urlnode : UrlNode) (pushback onlyMemory : Bool) :
    Option (SpillingHost × SqliteDb) :=
  if 2000 < h.fifoqueue.length ∧ ¬ onlyMemory then do
    let (id, db) ← h.lookUp other db
    let h := { h with sqliteHostId := id }
    if 0 < id then
      let (_, db) ← insertUnfetchedUrl other db urlnode.url.chars (urlnode.serialize []).2 id pushback
      return (h, db)
    else return (h.enqueue urlnode pushback, db)
  else some (h.enqueue urlnode pushback, db)

def pushBack (h : SpillingHost) (db : SqliteDb) (urlnode : UrlNode) (onlyMemory : Bool) :
    Option (SpillingHost × SqliteDb) := h.push other db urlnode true onlyMemory

def pushFront (h : SpillingHost) (db : SqliteDb) (urlnode : UrlNode) (onlyMemory : Bool) :
    Option (SpillingHost × SqliteDb) := h.push other db urlnode false onlyMemory

end SpillingHost

/-! ### What a spill promises -/

/-- The text fits `sqlbuf`, and is the statement whose literal denotes the value. -/
structure Sql.States (sql : Sql) (value : List UInt8) : Prop where
  fits : sqlbuf (sql.text value) = some (sql.text value)
  denotes : sql.literal (sql.text value) = some value

/-- The id that a host has or gets. -/
def SpillingHost.hostIdIn (h : SpillingHost) (db : SqliteDb) : ℤ :=
  if h.sqliteHostId = -1 then
    match db.hosts.find? fun row => row.domain = h.host.chars with
    | some row => columnInt row.id
    | none => columnInt (nextId (db.hosts.map HostRow.id))
  else h.sqliteHostId

/-- The row of a node. -/
def UrlRow.Holds (row : UrlRow) (hostid : ℤ) (urlnode : UrlNode) : Prop :=
  row.hostid = hostid ∧ row.url = urlnode.url.chars ∧ row.urldata = urlnode.bytes

/-- The texts are the statements that they should be; the host returns one row more, which holds the
node; `STATE_SUCCESS` comes with that row; and the node is in the table or in the queue. -/
structure Lossless (db : SqliteDb) (h : SpillingHost) (urlnode : UrlNode) (pushback : Bool) : Prop where
  selects : h.sqliteHostId = -1 → selectHost.States h.host.chars
  inserts : h.sqliteHostId = -1 → (db.hosts.find? fun row => row.domain = h.host.chars) = none →
    insertHost.States h.host.chars
  writes : (insertUrl (h.hostIdIn db) pushback).States urlnode.url.chars
  returned : ∃ h' db' row, h.push other db urlnode pushback false = some (h', db') ∧
    row.Holds (h.hostIdIn db) urlnode ∧ row.id ∉ db.urls.map UrlRow.id ∧
    ∀ limit, db'.urls.length ≤ limit → (getUnfetchedUrls db' (h.hostIdIn db) limit).Perm
      (row :: getUnfetchedUrls db (h.hostIdIn db) limit)
  reported : ∀ db' db'', insertUnfetchedUrl other db' urlnode.url.chars urlnode.bytes (h.hostIdIn db) pushback =
    some (true, db'') → ∃ row ∈ db''.urls, row.Holds (h.hostIdIn db) urlnode
  kept : ∀ h' db', h.push other db urlnode pushback false = some (h', db') →
    (∃ row ∈ db'.urls, row.Holds (h.hostIdIn db) urlnode) ∨ urlnode ∈ h'.fifoqueue

/-! ### Statements that are as they should be -/

theorem Sql.drop_text (sql : Sql) (value : List UInt8) :
    (sql.text value).drop (sql.before.length + 1) = value ++ 39 :: sql.after := by
  have cut : sql.text value = (sql.before ++ [39]) ++ (value ++ 39 :: sql.after) := by
    rw [Sql.text, List.append_assoc]
    rfl
  rw [cut]
  exact List.drop_left' (by rw [List.length_append]; rfl)

theorem Sql.literal_eq_iff (sql : Sql) (closed : sql.after.head? ≠ some 39) (value : List UInt8) :
    sql.literal (sql.text value) = some value ↔ 39 ∉ value := by
  have lead : sql.before ++ [39] <+: sql.text value := ⟨value ++ 39 :: sql.after, by
    rw [Sql.text, List.append_assoc]
    rfl⟩
  unfold Sql.literal
  rw [if_pos lead, sql.drop_text, ← unquote_eq_iff closed]
  cases unquote 39 (value ++ 39 :: sql.after) with
  | none => exact iff_of_false (by simp) (by simp)
  | some p =>
      obtain ⟨read, rest⟩ := p
      dsimp only
      split_ifs with same
      · subst same
        simp
      · simp [same]

theorem Sql.states_iff (sql : Sql) (closed : sql.after.head? ≠ some 39) (value : List UInt8) :
    sql.States value ↔ 39 ∉ value ∧ sql.before.length + value.length + sql.after.length + 2 < 1024 := by
  have size : (sql.text value).length = sql.before.length + value.length + sql.after.length + 2 := by
    simp only [Sql.text, List.length_append, List.length_cons]
    omega
  constructor
  · rintro ⟨fits, denotes⟩
    refine ⟨(sql.literal_eq_iff closed value).mp denotes, ?_⟩
    unfold sqlbuf at fits
    rw [size] at fits
    by_contra long
    rw [if_neg long] at fits
    cases fits
  · rintro ⟨away, short⟩
    refine ⟨?_, (sql.literal_eq_iff closed value).mpr away⟩
    unfold sqlbuf
    rw [size, if_pos short]

theorem selectHost_states (host : List UInt8) : selectHost.States host ↔ 39 ∉ host ∧ host.length ≤ 980 := by
  rw [selectHost.states_iff (by decide)]
  have before : selectHost.before.length = 41 := by decide
  have after : selectHost.after.length = 0 := by decide
  rw [before, after]
  exact and_congr_right fun _ => by omega

theorem insertHost_states (host : List UInt8) : insertHost.States host ↔ 39 ∉ host ∧ host.length ≤ 984 := by
  rw [insertHost.states_iff (by decide)]
  have before : insertHost.before.length = 36 := by decide
  have after : insertHost.after.length = 1 := by decide
  rw [before, after]
  exact and_congr_right fun _ => by omega

theorem insertUrl_states (hostid : ℤ) (pushback : Bool) (url : List UInt8) :
    (insertUrl hostid pushback).States url ↔ 39 ∉ url ∧ url.length + (printInt hostid).length ≤ 965 := by
  have closed : (ascii ", ?)").head? ≠ some 39 := by decide
  rw [Sql.states_iff _ closed]
  have before : (insertUrl hostid pushback).before.length = 52 + (printInt hostid).length := by
    have table : (ascii "insert into not_fetched_url_table values(NULL, ").length = 47 := by decide
    have comma : (ascii ", ").length = 2 := by decide
    have flag : (printInt (if pushback then 1 else 0)).length = 1 := by cases pushback <;> decide
    simp only [insertUrl, List.length_append, table, comma, flag]
    omega
  have after : (ascii ", ?)").length = 4 := by decide
  change _ ∧ _ + _ + (ascii ", ?)").length + 2 < 1024 ↔ _
  rw [before, after]
  exact and_congr_right fun _ => by omega

/-! ### The tables -/

theorem nextId_not_mem (ids : List ℕ) : nextId ids ∉ ids := by
  have bound : ∀ id ∈ ids, id ≤ ids.foldr max 0 := by
    intro id mem
    induction ids with
    | nil => cases mem
    | cons first ids ih =>
        rw [List.foldr_cons]
        rcases List.mem_cons.mp mem with rfl | later
        · exact Nat.le_max_left _ _
        · exact Nat.le_trans (ih later) (Nat.le_max_right _ _)
  intro mem
  exact Nat.not_succ_le_self _ (bound _ mem)

theorem getUnfetchedUrls_perm (db : SqliteDb) (hostid : ℤ) {limit : ℕ} (many : db.urls.length ≤ limit) :
    (getUnfetchedUrls db hostid limit).Perm (db.urls.filter fun row => row.hostid = hostid) := by
  unfold getUnfetchedUrls
  rw [List.take_of_length_le]
  · exact List.mergeSort_perm _ _
  · rw [List.length_mergeSort]
    exact Nat.le_trans (List.length_filter_le _ _) many

variable {other : OtherSql} {db : SqliteDb} {h : SpillingHost} {urlnode : UrlNode} {pushback : Bool}

theorem getHostidByDomain_eq {host : List UInt8} (states : selectHost.States host) (id : ℤ) :
    getHostidByDomain other db host id =
      some (match db.hosts.find? fun row => row.domain = host with
        | some row => columnInt row.id
        | none => id) := by
  unfold getHostidByDomain
  rw [states.fits]
  simp only [Option.bind_eq_bind, Option.bind_some, states.denotes]
  cases db.hosts.find? fun row => row.domain = host <;> rfl

theorem insertUnfetchedUrl_eq {hostid : ℤ} {url : List UInt8} (states : (insertUrl hostid pushback).States url)
    (data : List UInt8) : insertUnfetchedUrl other db url data hostid pushback =
      some (true, { db with urls := db.urls ++ [db.newRow hostid pushback url data] }) := by
  unfold insertUnfetchedUrl
  rw [states.fits]
  simp only [Option.bind_eq_bind, Option.bind_some, states.denotes]
  rfl

theorem find_append_domain {host : List UInt8} (none : (db.hosts.find? fun row => row.domain = host) = none)
    (id : ℕ) :
    (db.hosts ++ [(⟨id, host⟩ : HostRow)]).find? (fun row => row.domain = host) = some ⟨id, host⟩ := by
  rw [List.find?_append, none, List.find?_singleton, if_pos (decide_eq_true rfl)]
  rfl

/-- The tables of the URLs stay as they are when a host is looked up. -/
theorem lookUp_eq (other : OtherSql) (selects : h.sqliteHostId = -1 → selectHost.States h.host.chars)
    (inserts : h.sqliteHostId = -1 → (db.hosts.find? fun row => row.domain = h.host.chars) = none →
      insertHost.States h.host.chars) (spilled : 0 < h.hostIdIn db) :
    ∃ hosts, h.lookUp other db = some (h.hostIdIn db, { db with hosts }) := by
  unfold SpillingHost.lookUp SpillingHost.hostIdIn at *
  by_cases unknown : h.sqliteHostId = -1
  · rw [if_pos unknown] at spilled ⊢
    rw [if_pos unknown, getHostidByDomain_eq (selects unknown)]
    simp only [Option.bind_eq_bind, Option.bind_some]
    cases found : db.hosts.find? fun row => row.domain = h.host.chars with
    | some row =>
        simp only [found] at spilled ⊢
        rw [if_neg (by omega)]
        exact ⟨db.hosts, rfl⟩
    | none =>
        have states := inserts unknown found
        have inserted : insertHostRow other db h.host.chars =
            some { db with hosts := db.hosts ++ [⟨nextId (db.hosts.map HostRow.id), h.host.chars⟩] } := by
          unfold insertHostRow
          rw [states.fits]
          simp only [Option.bind_eq_bind, Option.bind_some, states.denotes]
          rfl
        rw [if_pos rfl, inserted, Option.bind_some, getHostidByDomain_eq (selects unknown)]
        simp only [find_append_domain found]
        exact ⟨db.hosts ++ [⟨nextId (db.hosts.map HostRow.id), h.host.chars⟩], rfl⟩
  · rw [if_neg unknown, if_neg unknown]
    exact ⟨db.hosts, rfl⟩

/-- A host whose row is known, and whose queue is full. -/
def fullHost : SpillingHost where
  host := ⟨ascii "h", by decide, by decide⟩
  fifoqueue := List.replicate 2001 UrlNode.login
  sqliteHostId := 1

theorem fullHost_many : 2000 < fullHost.fifoqueue.length := by
  rw [show fullHost.fifoqueue = List.replicate 2001 UrlNode.login from rfl, List.length_replicate]
  decide

/-- Every other text is rejected. -/
def strictSql : OtherSql := ⟨fun _ _ => none, fun _ _ => none⟩

/-- `a'b`. -/
def quotedUrl : UrlNode := { UrlNode.login with url := ⟨[97, 39, 98], by decide, by decide⟩ }

/-- The statement is rejected, which goes unreported, and the node is deleted. -/
theorem quotedUrl_lost (db : SqliteDb) :
    fullHost.push strictSql db quotedUrl true false = some (fullHost, db) := by
  have fits : sqlbuf ((insertUrl 1 true).text [97, 39, 98]) = some ((insertUrl 1 true).text [97, 39, 98]) := by
    decide
  have malformed : (insertUrl 1 true).literal ((insertUrl 1 true).text [97, 39, 98]) = none := by decide
  have inserted (data : List UInt8) :
      insertUnfetchedUrl strictSql db [97, 39, 98] data 1 true = some (true, db) := by
    unfold insertUnfetchedUrl
    rw [fits]
    simp only [Option.bind_eq_bind, Option.bind_some, malformed]
    rfl
  have known : fullHost.lookUp strictSql db = some (1, db) := if_neg (by decide)
  have positive : (0 : ℤ) < 1 := by decide
  unfold SpillingHost.push
  rw [if_pos ⟨fullHost_many, Bool.false_ne_true⟩, known]
  simp only [Option.bind_eq_bind, Option.bind_some, if_pos positive]
  rw [show quotedUrl.url.chars = [97, 39, 98] from rfl, inserted]
  rfl

end BloomServer
