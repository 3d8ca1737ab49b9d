import BloomServer.DbHandles

/-! The cache of open files is sound as long as nothing is to be evicted from it. -/
namespace BloomServer
open LabelledRun

/-- A file that is as `db.cpp` leaves it, and that has a place for the record or refuses its data. -/
structure TakesRecord (db : Db) (key data : List UInt8) : Prop where
  kept : ∃ m, Refines db m
  noNul : 0 ∉ key
  fits : PutFits db key data
  place : datlenMax < data.length ∨ hasPlace db key data = true

/-- What is put into such a file goes on to no other one. -/
theorem TakesRecord.put {db : Db} {key data : List UInt8} (takes : TakesRecord db key data) :
    dbPutHinted db key data = dbPut db key data ∧
      ∀ q, dbPut db key data = some q → q.1 = 0 ∨ q.1 = 3 := by
  obtain ⟨m, refines⟩ := takes.kept
  refine ⟨refines.putHinted takes.noNul takes.fits, fun q out => ?_⟩
  have put := refines.put takes.noNul takes.fits
  rw [out] at put
  cases put with
  | tooLong long => exact Or.inr rfl
  | full limit full db' refines' again =>
      rcases takes.place with long | place
      · exact absurd limit (Nat.not_le.mpr long)
      · cases full.symm.trans place
  | placed limit place db' refines' => exact Or.inl rfl

/-! ### Outcomes -/

/-- No entry is missed and no closed handle is used, and what comes out has the property. -/
def Safely {α : Type} (P : α → Prop) : Except TableFault α → Prop
  | .ok a => P a
  | .error fault => fault = .file

namespace Safely

variable {α β : Type} {P : α → Prop} {Q : β → Prop} {x : Except TableFault α}

theorem bind {f : α → Except TableFault β} (first : Safely P x) (rest : ∀ a, P a → Safely Q (f a)) :
    Safely Q (x >>= f) := by
  cases x with
  | error fault => exact first
  | ok a => exact rest a first

theorem mono {P' : α → Prop} (first : Safely P x) (sub : ∀ a, P a → P' a) : Safely P' x := by
  cases x with
  | error fault => exact first
  | ok a => exact sub a first

theorem map {f : α → β} (first : Safely P x) (rest : ∀ a, P a → Q (f a)) : Safely Q (x.map f) := by
  cases x with
  | error fault => exact first
  | ok a => exact rest a first

theorem map_map {γ : Type} (x : Except TableFault α) (f : α → β) (g : β → γ) :
    (x.map f).map g = x.map (g ∘ f) := by
  cases x <;> rfl

theorem ne_handle (safe : Safely P x) : x ≠ .error .handle := by
  rintro rfl
  cases safe

end Safely

namespace CachedTable

/-- The table after a name was looked up. -/
def seen (t : CachedTable) (fileno : List UInt8) : CachedTable :=
  if fileno = [] then t else (t.index fileno).2

/-- A file of the table after the file asked for has been tried. -/
def afterHint (t : CachedTable) (key data fileno f : List UInt8) : Db :=
  if f = fileno then ((dbPutHinted (t.file f) key data).map Prod.snd).getD (t.file f) else t.file f

/-- A store for which no file of the table is sure to take the record may open a new one. -/
def MayOpen (t : CachedTable) : TableCall → Prop
  | .store key data _ => key ≠ [] ∧ ∀ f ∈ t.databasesConf, ¬ TakesRecord (t.file f) key data
  | .erase _ _ | .get _ _ _ => False

/-- What a search of files that are all open finds. -/
def search (file : List UInt8 → Db) (key : List UInt8) :
    List (List UInt8) → Except TableFault (Option (List UInt8))
  | [] => .ok none
  | f :: rest =>
      match dbFetch (file f) key with
      | some dbd => if dbd.isSome then .ok dbd else search file key rest
      | none => .error .file

/-- The files that `get` searches: with a position, the one asked for comes first. -/
def order (t : CachedTable) (fileno : List UInt8) (pos : Bool) : List (List UInt8) :=
  if pos ∧ fileno ∈ t.databasesConf then fileno :: t.databasesConf else t.databasesConf

seal dbFetch in
theorem search_cons (file : List UInt8 → Db) (key f : List UInt8) (rest : List (List UInt8)) :
    search file key (f :: rest) =
      match dbFetch (file f) key with
      | some dbd => if dbd.isSome then .ok dbd else search file key rest
      | none => .error .file := rfl

end CachedTable

/-- The name, unless it is the empty one. -/
def askedName (fileno : List UInt8) : Finset (List UInt8) := if fileno = [] then ∅ else {fileno}

/-- The names that a call looks up in `dbs`, of files of the table and of others. -/
def TableCall.asks : TableCall → Finset (List UInt8)
  | .store key _ fileno => if key = [] then ∅ else askedName fileno
  | .erase _ fileno => askedName fileno
  | .get _ fileno pos => if pos then askedName fileno else ∅

/-- A table, and the names that were asked for since it was loaded. -/
structure AskedTable where
  table : CachedTable
  names : Finset (List UInt8)

def AskedStep (s : AskedTable) (ev : TableEvent) (s' : AskedTable) : Prop :=
  CachedStep s.table ev s'.table ∧ s'.names = s.names ∪ ev.call.asks

/-- With the names that a call asks for there are at most as many files of the table and other names
as the cache should have entries, and one less where a new file may be opened. -/
def AskedTable.Room (s : AskedTable) (call : TableCall) : Prop :=
  (s.table.databasesConf.toFinset ∪ (s.names ∪ call.asks)).card ≤ topDatabases + 1 ∧
    (s.table.MayOpen call →
      (s.table.databasesConf.toFinset ∪ (s.names ∪ call.asks)).card ≤ topDatabases)

def AskedTable.Roomy (s : AskedTable) (ev : TableEvent) : Prop := s.Room ev.call

/-- What the cache promises between two calls: its size; the handles in it are the open ones, so
that an entry that is evicted has its handle closed and no other is; and each file of the table is
open when it is used, or opened then. -/
structure CacheSound (t : CachedTable) : Prop where
  bound : t.dbs.entries.length ≤ topDatabases + 1
  handles : ∀ f db, t.dbs.lookup f = some (some db) ↔ t.openOn db = some f
  reopened : ∀ f ∈ t.databasesConf, Safely (fun p => ∃ db, p.1 = some db ∧ p.2.openOn db = some f) (t.usable f)

/-- What it promises of a call. -/
structure CallSound (t : CachedTable) (call : TableCall) : Prop where
  safe : call.runCached t ≠ .error .handle
  sound : ∀ answer t', call.runCached t = .ok (answer, t') → CacheSound t'
  found : ∀ key fileno pos, call = .get key fileno pos →
    (call.runCached t).map Prod.fst = (CachedTable.search t.file key (t.order fileno pos)).map DbAnswer.data

/-- All files are open, and each open handle is the one of its file. -/
structure AllOpen (t : CachedTable) : Prop where
  nodup : t.databasesConf.Nodup
  handles : ∀ f db, t.dbs.lookup f = some (some db) ↔ t.openOn db = some f
  opened : ∀ f, f ∈ t.databasesConf ↔ ∃ db, t.dbs.lookup f = some (some db)
  below : ∀ f db, t.openOn db = some f → db < t.handles

/-- The names that the table has not given yet are free, and entries are there only for files and for
names that were asked for. -/
structure CacheKept (t : CachedTable) (names : Finset (List UInt8)) : Prop extends AllOpen t where
  named : ∀ f ∈ t.databasesConf, ∃ n < t.countOfDatabase, f = t.filenoOf n
  entries : ∀ f ∈ t.dbs, f ∈ t.databasesConf.toFinset ∪ names
  few : (t.databasesConf.toFinset ∪ names).card ≤ topDatabases + 1

namespace AllOpen

variable {t : CachedTable} {f fileno key data : List UInt8} {db : ℕ}

/-! ### One file -/

theorem usable (o : AllOpen t) (mem : f ∈ t.databasesConf) :
    ∃ db, t.usable f = .ok (some db, t) ∧ t.openOn db = some f := by
  obtain ⟨db, held⟩ := (o.opened f).mp mem
  refine ⟨db, ?_, (o.handles f db).mp held⟩
  rw [CachedTable.usable, held]

theorem index (o : AllOpen t) (mem : f ∈ t.databasesConf) :
    ∃ db, t.index f = (some db, t) ∧ t.openOn db = some f := by
  obtain ⟨db, held⟩ := (o.opened f).mp mem
  refine ⟨db, ?_, (o.handles f db).mp held⟩
  rw [CachedTable.index, held]

theorem lookup_none (o : AllOpen t) (absent : f ∉ t.databasesConf) (db : ℕ) :
    t.dbs.lookup f ≠ some (some db) := fun held => absent ((o.opened f).mpr ⟨db, held⟩)

/-- A name of no file gets an entry without a handle. -/
theorem index_absent (o : AllOpen t) (absent : f ∉ t.databasesConf) :
    ∃ dbs, t.index f = (none, { t with dbs }) ∧ AllOpen { t with dbs } ∧
      ∀ g ∈ dbs, g = f ∨ g ∈ t.dbs := by
  unfold CachedTable.index
  cases entry : t.dbs.lookup f with
  | some db =>
      cases db with
      | some db => exact absurd entry (o.lookup_none absent db)
      | none => exact ⟨t.dbs, rfl, o, fun g mem => Or.inr mem⟩
  | none =>
      have same : ∀ g db, (t.dbs.insert f none).lookup g = some (some db) ↔
          t.dbs.lookup g = some (some db) := by
        intro g db
        by_cases here : g = f
        · subst here
          rw [AList.lookup_insert, entry]
          exact iff_of_false (by simp) (by simp)
        · rw [AList.lookup_insert_ne here]
      refine ⟨_, rfl, ⟨o.nodup, ?_, ?_, o.below⟩, fun g mem => (AList.mem_insert _).mp mem⟩
      · intro g db
        exact (same g db).trans (o.handles g db)
      · intro g
        rw [o.opened g]
        exact exists_congr fun db => (same g db).symm

theorem onHandle {α : Type} {Q : α × CachedTable → Prop} {op : Db → Option (α × Db)}
    (held : t.openOn db = some f)
    (rest : ∀ ret file, op (t.file f) = some (ret, file) →
      Q (ret, { t with file := Function.update t.file f file })) : Safely Q (t.onHandle db op) := by
  unfold CachedTable.onHandle
  simp only [held]
  cases out : op (t.file f) with
  | none => exact rfl
  | some p => exact rest p.1 p.2 out

theorem withFile (o : AllOpen t) (file : List UInt8 → Db) : AllOpen { t with file } :=
  ⟨o.nodup, o.handles, o.opened, o.below⟩

/-- A file that has just been opened. -/
theorem grow (o : AllOpen t) (absent : f ∉ t.databasesConf) (file : List UInt8 → Db) :
    AllOpen { t with
      databasesConf := DbAccessType.insertConf t.databasesConf f
      dbs := t.dbs.insert f (some t.handles)
      file
      handles := t.handles + 1
      openOn := Function.update t.openOn t.handles (some f) } := by
  have unused : ∀ g, t.openOn t.handles ≠ some g := fun g held => Nat.lt_irrefl _ (o.below g _ held)
  constructor
  · exact DbAccessType.nodup_insertConf o.nodup
  · intro g db
    dsimp only
    by_cases here : g = f
    · subst here
      rw [AList.lookup_insert]
      by_cases new : db = t.handles
      · subst new
        rw [Function.update_self]
        exact iff_of_true rfl rfl
      · rw [Function.update_of_ne new, ← o.handles]
        exact iff_of_false (fun same => new (by injections same; omega)) (o.lookup_none absent db)
    · rw [AList.lookup_insert_ne here]
      by_cases new : db = t.handles
      · subst new
        rw [Function.update_self, o.handles]
        exact iff_of_false (unused g) fun same => here (Option.some.inj same).symm
      · rw [Function.update_of_ne new]
        exact o.handles g db
  · intro g
    dsimp only
    rw [DbAccessType.mem_insertConf]
    by_cases here : g = f
    · subst here
      rw [AList.lookup_insert]
      exact iff_of_true (Or.inl rfl) ⟨_, rfl⟩
    · rw [AList.lookup_insert_ne here, o.opened g]
      exact or_iff_right here
  · intro g db held
    dsimp only at held ⊢
    by_cases new : db = t.handles
    · omega
    · rw [Function.update_of_ne new] at held
      exact Nat.lt_succ_of_lt (o.below g db held)

end AllOpen

/-! ### A new entry -/

theorem entries_insert (dbs : AList fun _ : List UInt8 => Option ℕ) (f : List UInt8) (db : Option ℕ) :
    (dbs.insert f db).entries.length ≤ dbs.entries.length + 1 := by
  rw [AList.entries_insert, List.length_cons]
  exact Nat.succ_le_succ (List.Sublist.length_le (List.kerase_sublist f dbs.entries))

theorem opened_eq {t : CachedTable} (room : t.dbs.entries.length ≤ topDatabases) (f : List UInt8) (db : Db) :
    t.opened f db = .ok { t with
      dbs := t.dbs.insert f (some t.handles)
      file := Function.update t.file f db
      handles := t.handles + 1
      openOn := Function.update t.openOn t.handles (some f) } := by
  unfold CachedTable.opened CachedTable._open
  rw [if_neg (Nat.not_lt.mpr room)]
  rfl

namespace CacheKept

variable {t : CachedTable} {names more : Finset (List UInt8)} {f fileno key data : List UInt8} {db : ℕ}

/-- The entries are no more than the files and the names. -/
theorem length_le (k : CacheKept t names) :
    t.dbs.entries.length ≤ (t.databasesConf.toFinset ∪ names).card := by
  have size : t.dbs.keys.toFinset.card = t.dbs.entries.length := by
    rw [List.toFinset_card_of_nodup (show t.dbs.keys.Nodup from t.dbs.nodupKeys)]
    exact List.length_map _
  rw [← size]
  exact Finset.card_le_card fun f mem => k.entries f (List.mem_toFinset.mp mem)

/-- More names have been asked for. -/
theorem widen (k : CacheKept t names)
    (room : (t.databasesConf.toFinset ∪ (names ∪ more)).card ≤ topDatabases + 1) :
    CacheKept t (names ∪ more) := by
  refine ⟨k.toAllOpen, k.named, fun f mem => ?_, room⟩
  rw [← Finset.union_assoc]
  exact Finset.mem_union_left _ (k.entries f mem)

theorem nil_not_mem (k : CacheKept t names) : [] ∉ t.databasesConf := by
  intro mem
  obtain ⟨n, _, same⟩ := k.named _ mem
  exact DbAccessType.filenoOf_ne_nil _ n same.symm

theorem new_fileno (k : CacheKept t names) : t.filenoOf t.countOfDatabase ∉ t.databasesConf := by
  intro mem
  obtain ⟨n, below, same⟩ := k.named _ mem
  exact Nat.ne_of_gt below (DbAccessType.filenoOf_inj same)

theorem withFile (k : CacheKept t names) (file : List UInt8 → Db) : CacheKept { t with file } names :=
  ⟨k.toAllOpen.withFile file, k.named, k.entries, k.few⟩

theorem openNewDb (k : CacheKept t names)
    (room : (t.databasesConf.toFinset ∪ names).card ≤ topDatabases) :
    Safely (fun p => CacheKept p.2.2 names ∧ p.2.2.openOn p.2.1 = some p.1) t.openNewDb := by
  unfold CachedTable.openNewDb
  simp only
  rw [opened_eq (by exact k.length_le.trans room)]
  have grown := k.toAllOpen.grow k.new_fileno (Function.update t.file (t.filenoOf t.countOfDatabase) Db.fresh)
  have files : (DbAccessType.insertConf t.databasesConf (t.filenoOf t.countOfDatabase)).toFinset ∪ names =
      insert (t.filenoOf t.countOfDatabase) (t.databasesConf.toFinset ∪ names) := by
    ext g
    simp only [Finset.mem_union, List.mem_toFinset, DbAccessType.mem_insertConf, Finset.mem_insert, or_assoc]
  refine ⟨⟨⟨grown.nodup, grown.handles, grown.opened, grown.below⟩, ?_, fun g mem => ?_, ?_⟩,
    Function.update_self ..⟩
  · intro f mem
    rcases DbAccessType.mem_insertConf.mp mem with rfl | old
    · exact ⟨_, Nat.lt_succ_self _, rfl⟩
    · obtain ⟨n, below, same⟩ := k.named f old
      exact ⟨n, Nat.lt_succ_of_lt below, same⟩
  · change g ∈ (DbAccessType.insertConf t.databasesConf (t.filenoOf t.countOfDatabase)).toFinset ∪ names
    rw [files]
    rcases (AList.mem_insert _).mp mem with rfl | old
    · exact Finset.mem_insert_self _ _
    · exact Finset.mem_insert_of_mem (k.entries g old)
  · change ((DbAccessType.insertConf t.databasesConf (t.filenoOf t.countOfDatabase)).toFinset ∪ names).card ≤ _
    rw [files]
    exact (Finset.card_insert_le _ _).trans (Nat.succ_le_succ room)

/-- What a name that is looked up does to the table. -/
theorem seen (k : CacheKept t names)
    (room : (t.databasesConf.toFinset ∪ (names ∪ askedName fileno)).card ≤ topDatabases + 1) :
    CacheKept (t.seen fileno) (names ∪ askedName fileno) ∧ ∃ dbs, t.seen fileno = { t with dbs } := by
  have wide := k.widen room
  unfold CachedTable.seen
  split_ifs with nil
  · exact ⟨wide, t.dbs, rfl⟩
  · by_cases mem : fileno ∈ t.databasesConf
    · obtain ⟨db, same, -⟩ := k.toAllOpen.index mem
      rw [same]
      exact ⟨wide, t.dbs, rfl⟩
    · obtain ⟨dbs, same, o, new⟩ := k.toAllOpen.index_absent mem
      rw [same]
      refine ⟨⟨o, k.named, fun g mem => ?_, room⟩, dbs, rfl⟩
      rcases new g mem with rfl | old
      · rw [askedName, if_neg nil]
        exact Finset.mem_union_right _ (Finset.mem_union_right _ (Finset.mem_singleton_self g))
      · exact wide.entries g old

end CacheKept

/-! ### `store` -/

theorem AllOpen.storeLoop {t : CachedTable} {key data fileno : List UInt8} (o : AllOpen t)
    {l : List (List UInt8)} (sub : l ⊆ t.databasesConf) (nodup : l.Nodup) :
    Safely (fun p => (∃ file, p.2 = { t with file }) ∧ (p.1 = none →
      ∀ f ∈ l, ∃ q, dbPut (t.file f) key data = some q ∧ q.1 ≠ 0 ∧ q.1 ≠ 3))
      (CachedTable.storeLoop key data fileno l t) := by
  induction l generalizing t with
  | nil => exact ⟨⟨t.file, rfl⟩, fun _ f mem => absurd mem List.not_mem_nil⟩
  | cons f l ih =>
      obtain ⟨away, nodup⟩ := List.nodup_cons.mp nodup
      obtain ⟨db, found, held⟩ := o.usable (sub List.mem_cons_self)
      unfold CachedTable.storeLoop
      rw [found]
      change Safely _ (t.onHandle db (fun file => dbPut file key data) >>= _)
      refine Safely.bind (AllOpen.onHandle (Q := fun p => ∃ file,
        dbPut (t.file f) key data = some (p.1, file) ∧ p.2 = { t with file := Function.update t.file f file })
        held fun ret file out => ⟨file, out, rfl⟩) ?_
      rintro ⟨ret, t'⟩ ⟨file, out, rfl⟩
      dsimp only
      split_ifs with stored error
      · exact ⟨⟨_, rfl⟩, fun none => nomatch none⟩
      · exact ⟨⟨_, rfl⟩, fun none => nomatch none⟩
      · refine (ih (o.withFile (Function.update t.file f file))
          (fun g mem => sub (List.mem_cons_of_mem f mem)) nodup).mono ?_
        rintro ⟨r, t'⟩ ⟨⟨files, rfl⟩, none⟩
        refine ⟨⟨files, rfl⟩, fun full g mem => ?_⟩
        rcases List.mem_cons.mp mem with rfl | later
        · exact ⟨_, out, stored, error⟩
        · have other : g ≠ f := ne_of_mem_of_not_mem later away
          have same := none full g later
          dsimp only at same
          rwa [Function.update_of_ne other] at same

namespace CacheKept

variable {t : CachedTable} {names : Finset (List UInt8)} {f fileno key data : List UInt8} {db : ℕ}
  {pos : Bool}

theorem hinted_mem (k : CacheKept t names) (mem : fileno ∈ t.databasesConf) :
    ∃ db, t.hinted fileno = .ok (some db, t) ∧ t.openOn db = some fileno := by
  obtain ⟨db, found, held⟩ := k.toAllOpen.index mem
  refine ⟨db, ?_, held⟩
  unfold CachedTable.hinted
  have name : fileno ≠ [] := ne_of_mem_of_not_mem mem k.nil_not_mem
  rw [if_neg name, found]

theorem seen_mem (k : CacheKept t names) (mem : fileno ∈ t.databasesConf) : t.seen fileno = t := by
  obtain ⟨db, found, held⟩ := k.toAllOpen.index mem
  unfold CachedTable.seen
  rw [found]
  exact ite_self t

/-- A name of no file is not opened. -/
theorem hinted_absent (k : CacheKept t names) (absent : fileno ∉ t.databasesConf) :
    t.hinted fileno = .ok (none, t.seen fileno) := by
  obtain ⟨dbs, found, -⟩ := k.toAllOpen.index_absent absent
  unfold CachedTable.hinted CachedTable.seen
  split_ifs
  · rfl
  · rw [found]
    exact if_neg absent

theorem storeNew (k : CacheKept t names)
    (room : (t.databasesConf.toFinset ∪ names).card ≤ topDatabases) :
    Safely (fun p => CacheKept p.2.2 names) (t.storeNew key data) := by
  refine Safely.bind (k.openNewDb room) ?_
  rintro ⟨f, db, t'⟩ ⟨k', held⟩
  exact Safely.bind
    (AllOpen.onHandle (Q := fun p => CacheKept p.2 names) held fun ret file out => k'.withFile _)
    fun p kept => kept

theorem storeAnywhere (k : CacheKept t names)
    (room : (∀ f ∈ t.databasesConf, ∃ q, dbPut (t.file f) key data = some q ∧ q.1 ≠ 0 ∧ q.1 ≠ 3) →
      (t.databasesConf.toFinset ∪ names).card ≤ topDatabases) :
    Safely (fun p => CacheKept p.2.2 names) (t.storeAnywhere key data fileno) := by
  refine Safely.bind (k.toAllOpen.storeLoop (List.Subset.refl _) k.nodup) ?_
  rintro ⟨r, t'⟩ ⟨⟨file, rfl⟩, full⟩
  cases r with
  | some r => exact k.withFile file
  | none => exact (k.withFile file).storeNew (room (full rfl))

/-- What a name that is no file's does to the store: nothing is tried. -/
theorem storeHinted (k : CacheKept t names)
    (room : (t.databasesConf.toFinset ∪ (names ∪ askedName fileno)).card ≤ topDatabases + 1) :
    Safely (fun p => CacheKept p.2 (names ∪ askedName fileno) ∧ p.2.databasesConf = t.databasesConf ∧
      (p.1 = 2 → (fileno ∈ t.databasesConf → (dbPutHinted (t.file fileno) key data).map Prod.fst = some 2) ∧
        ∀ f ∈ t.databasesConf, p.2.file f = t.afterHint key data fileno f))
      (t.storeHinted key data fileno) := by
  unfold CachedTable.storeHinted
  by_cases mem : fileno ∈ t.databasesConf
  · obtain ⟨db, found, held⟩ := k.hinted_mem mem
    rw [found]
    change Safely _ (t.onHandle db fun file => dbPutHinted file key data)
    refine AllOpen.onHandle held fun ret file out => ⟨(k.widen room).withFile _, rfl, ?_⟩
    rintro rfl
    refine ⟨fun _ => by rw [out]; rfl, fun f there => ?_⟩
    unfold CachedTable.afterHint
    by_cases here : f = fileno
    · subst here
      rw [if_pos rfl, out]
      exact Function.update_self ..
    · rw [if_neg here]
      exact Function.update_of_ne here ..
  · obtain ⟨k', dbs, same⟩ := k.seen room
    rw [k.hinted_absent mem]
    refine ⟨k', by rw [same], fun _ => ⟨fun there => absurd there mem, fun f there => ?_⟩⟩
    unfold CachedTable.afterHint
    rw [if_neg (ne_of_mem_of_not_mem there mem), same]

/-- What all files have left over is for a new one. -/
theorem not_takesRecord (asked : fileno ∈ t.databasesConf →
      (dbPutHinted (t.file fileno) key data).map Prod.fst = some 2) (mem : f ∈ t.databasesConf)
    (full : ∃ q, dbPut (t.afterHint key data fileno f) key data = some q ∧ q.1 ≠ 0 ∧ q.1 ≠ 3) :
    ¬ TakesRecord (t.file f) key data := by
  intro takes
  obtain ⟨same, ends⟩ := takes.put
  by_cases here : f = fileno
  · subst here
    obtain ⟨q, out, two⟩ := Option.map_eq_some_iff.mp (asked mem)
    have code := ends q (same.symm.trans out)
    omega
  · obtain ⟨q, out, stored, error⟩ := full
    rw [CachedTable.afterHint, if_neg here] at out
    rcases ends q out with zero | three
    · exact stored zero
    · exact error three

theorem store (k : CacheKept t names) (room : AskedTable.Room ⟨t, names⟩ (.store key data fileno)) :
    Safely (fun p => CacheKept p.2.2 (names ∪ (TableCall.store key data fileno).asks))
      (t.store key data fileno) := by
  obtain ⟨few, opens⟩ := room
  unfold CachedTable.store
  split_ifs with empty
  · exact k.widen few
  · have asks : (TableCall.store key data fileno).asks = askedName fileno := if_neg empty
    rw [asks] at few opens ⊢
    refine Safely.bind (k.storeHinted few) ?_
    rintro ⟨ret, t'⟩ ⟨k', conf, hint⟩
    dsimp only
    split_ifs with two
    · exact k'
    · apply k'.storeAnywhere
      intro full
      obtain ⟨asked, files⟩ := hint (not_not.mp two)
      rw [conf]
      refine opens ⟨empty, fun f mem => not_takesRecord asked mem ?_⟩
      rw [← files f mem]
      exact full f (conf ▸ mem)

/-! ### `erase` -/

theorem eraseLoop (k : CacheKept t names) {l : List (List UInt8)} (sub : l ⊆ t.databasesConf) :
    Safely (fun p => CacheKept p.2 names) (CachedTable.eraseLoop key l t) := by
  cases l with
  | nil => exact k
  | cons f l =>
      obtain ⟨db, found, held⟩ := k.toAllOpen.usable (sub List.mem_cons_self)
      unfold CachedTable.eraseLoop
      rw [found]
      change Safely _ (t.onHandle db fun file => dbDelete file key)
      exact AllOpen.onHandle held fun ret file out => k.withFile _

theorem erase (k : CacheKept t names) (room : AskedTable.Room ⟨t, names⟩ (.erase key fileno)) :
    Safely (fun p => CacheKept p.2 (names ∪ askedName fileno)) (t.erase key fileno) := by
  obtain ⟨k', -⟩ := k.seen room.1
  unfold CachedTable.erase CachedTable.seen at *
  by_cases nil : fileno = []
  · rw [if_pos nil] at k' ⊢
    exact k'.eraseLoop (List.Subset.refl _)
  · rw [if_neg nil] at k' ⊢
    by_cases mem : fileno ∈ t.databasesConf
    · obtain ⟨db, found, held⟩ := k.toAllOpen.index mem
      rw [found] at k' ⊢
      exact AllOpen.onHandle held fun ret file out => k'.withFile _
    · obtain ⟨dbs, found, -⟩ := k.toAllOpen.index_absent mem
      rw [found] at k' ⊢
      exact k'.eraseLoop (List.Subset.refl _)

/-! ### `get` -/

theorem fetch (held : t.openOn db = some f) :
    t.fetch (some db) key = match dbFetch (t.file f) key with
      | some dbd => .ok (dbd, t)
      | none => .error .file := by
  unfold CachedTable.fetch CachedTable.onHandle
  simp only [held]
  cases dbFetch (t.file f) key with
  | none => rfl
  | some dbd =>
      simp only [Option.map_some, Function.update_eq_self]

/-- The loop finds what a search does, and leaves the table as it is. -/
theorem getLoop (k : CacheKept t names) (key fileno : List UInt8) {l : List (List UInt8)}
    (sub : l ⊆ t.databasesConf) :
    (CachedTable.getLoop key fileno l t).map (fun p => (p.1, p.2.2)) =
      (CachedTable.search t.file key l).map fun dbd => (dbd, t) := by
  induction l with
  | nil => rfl
  | cons f l ih =>
      obtain ⟨db, found, held⟩ := k.toAllOpen.usable (sub List.mem_cons_self)
      rw [CachedTable.search_cons]
      unfold CachedTable.getLoop
      rw [found]
      change (t.fetch (some db) key >>= _).map _ = _
      rw [fetch held]
      cases dbFetch (t.file f) key with
      | none => rfl
      | some dbd =>
          cases dbd with
          | some data => rfl
          | none => exact ih fun g mem => sub (List.mem_cons_of_mem f mem)

/-- The table that `get` leaves behind. -/
theorem get_eq (k : CacheKept t names) (fileno key : List UInt8) (pos : Bool)
    (room : AskedTable.Room ⟨t, names⟩ (.get key fileno pos)) :
    (t.get fileno key pos).map (fun p => (p.1, p.2.2)) =
      (CachedTable.search t.file key (t.order fileno pos)).map fun dbd =>
        (dbd, if pos then t.seen fileno else t) := by
  have whole := k.getLoop key fileno (List.Subset.refl _)
  unfold CachedTable.get CachedTable.order
  by_cases asked : fileno ≠ [] ∧ pos = true
  · obtain ⟨name, rfl⟩ := asked
    rw [if_pos ⟨name, rfl⟩, if_pos rfl]
    by_cases mem : fileno ∈ t.databasesConf
    · obtain ⟨db, found, held⟩ := k.toAllOpen.index mem
      rw [if_pos ⟨rfl, mem⟩, k.seen_mem mem]
      rw [CachedTable.search_cons]
      unfold CachedTable.getByPos
      rw [found]
      change (t.fetch (some db) key >>= _).map _ = _
      rw [fetch held]
      cases dbFetch (t.file fileno) key with
      | none => rfl
      | some dbd =>
          cases dbd with
          | some data => rfl
          | none => exact whole
    · obtain ⟨k', dbs, same⟩ := k.seen room.1
      obtain ⟨dbs', found, -⟩ := k.toAllOpen.index_absent mem
      have there : t.seen fileno = { t with dbs := dbs' } := by
        unfold CachedTable.seen
        rw [if_neg name, found]
      have rest := k'.getLoop key fileno (List.Subset.refl _)
      rw [if_neg fun both => mem both.2]
      unfold CachedTable.getByPos
      rw [found]
      dsimp only
      rw [if_pos name]
      unfold CachedTable.openExistDb
      dsimp only
      rw [if_neg mem]
      rw [there] at rest ⊢
      exact rest
  · have order : ¬(pos = true ∧ fileno ∈ t.databasesConf) := fun both =>
      asked ⟨ne_of_mem_of_not_mem both.2 k.nil_not_mem, both.1⟩
    have same : (if pos = true then t.seen fileno else t) = t := by
      split_ifs with given
      · exact if_pos (not_not.mp fun name => asked ⟨name, given⟩)
      · rfl
    rw [if_neg asked, if_neg order, same]
    exact whole

theorem search_safe (file : List UInt8 → Db) (key : List UInt8) (l : List (List UInt8)) :
    Safely (fun _ => True) (CachedTable.search file key l) := by
  induction l with
  | nil => trivial
  | cons f l ih =>
      rw [CachedTable.search_cons]
      split
      · split_ifs
        · trivial
        · exact ih
      · exact rfl

theorem runCached_get (k : CacheKept t names) (key fileno : List UInt8) (pos : Bool)
    (room : AskedTable.Room ⟨t, names⟩ (.get key fileno pos)) :
    (TableCall.get key fileno pos).runCached t = (CachedTable.search t.file key (t.order fileno pos)).map
      fun dbd => (.data dbd, if pos then t.seen fileno else t) := by
  have found := congrArg (Except.map fun p => (DbAnswer.data p.1, p.2)) (k.get_eq fileno key pos room)
  rw [Safely.map_map, Safely.map_map] at found
  exact found

/-! ### Calls and runs -/

theorem call (k : CacheKept t names) {call : TableCall} (room : AskedTable.Room ⟨t, names⟩ call) :
    Safely (fun p => CacheKept p.2 (names ∪ call.asks)) (call.runCached t) := by
  cases call with
  | store key data fileno => exact (k.store room).map fun p kept => kept
  | erase key fileno => exact (k.erase room).map fun p kept => kept
  | get key fileno pos =>
      rw [k.runCached_get _ _ _ room]
      refine (search_safe t.file key _).map fun dbd _ => ?_
      have few := room.1
      dsimp only [TableCall.asks] at few ⊢
      split_ifs at few ⊢ with given
      · exact (k.seen few).1
      · exact k.widen few

theorem sound (k : CacheKept t names) : CacheSound t := by
  refine ⟨k.length_le.trans k.few, k.handles, fun f mem => ?_⟩
  obtain ⟨db, found, held⟩ := k.toAllOpen.usable mem
  rw [found]
  exact ⟨db, rfl, held⟩

theorem callSound (k : CacheKept t names) {call : TableCall} (room : AskedTable.Room ⟨t, names⟩ call) :
    CallSound t call := by
  have safe := k.call room
  refine ⟨safe.ne_handle, fun answer t' ran => ?_, ?_⟩
  · rw [ran] at safe
    exact CacheKept.sound safe
  · rintro key fileno pos rfl
    rw [k.runCached_get _ _ _ room]
    cases CachedTable.search t.file key (t.order fileno pos) <;> rfl

end CacheKept

/-! ### Loading -/

theorem AllOpen.loadLoop {t : CachedTable} (o : AllOpen t) {l : List (List UInt8)} (nodup : l.Nodup)
    (away : ∀ f ∈ l, f ∉ t.databasesConf) (room : t.dbs.entries.length + l.length ≤ topDatabases + 1)
    (files : ∀ f ∈ t.dbs, f ∈ t.databasesConf) :
    Safely (fun t' => AllOpen t' ∧ t'.filename = t.filename ∧
      t'.countOfDatabase = t.countOfDatabase + l.length ∧
      (∀ f ∈ t'.databasesConf, f ∈ t.databasesConf ∨ f ∈ l) ∧
      ∀ f ∈ t'.dbs, f ∈ t'.databasesConf) (CachedTable.loadLoop l t) := by
  induction l generalizing t with
  | nil => exact ⟨o, rfl, rfl, fun f mem => Or.inl mem, files⟩
  | cons f l ih =>
      obtain ⟨absent, nodup⟩ := List.nodup_cons.mp nodup
      have grown := o.grow (away f List.mem_cons_self)
      have entries := entries_insert t.dbs f (some t.handles)
      rw [List.length_cons] at room ⊢
      unfold CachedTable.loadLoop CachedTable.openExistDb
      dsimp only
      rw [if_pos (DbAccessType.mem_insertConf.mpr (Or.inl rfl))]
      cases dbOpen (t.file f).idx (t.file f).dat with
      | none => exact rfl
      | some db =>
          dsimp only
          rw [opened_eq (by dsimp only; omega)]
          have opened := grown (Function.update t.file f db)
          refine (ih (t := { t with
            countOfDatabase := t.countOfDatabase + 1
            databasesConf := DbAccessType.insertConf t.databasesConf f
            dbs := t.dbs.insert f (some t.handles)
            file := Function.update t.file f db
            handles := t.handles + 1
            openOn := Function.update t.openOn t.handles (some f) })
            ⟨opened.nodup, opened.handles, opened.opened, opened.below⟩ nodup ?_ ?_ ?_).mono ?_
          · intro g mem there
            rcases DbAccessType.mem_insertConf.mp there with rfl | old
            · exact absent mem
            · exact away g (List.mem_cons_of_mem f mem) old
          · dsimp only
            omega
          · intro g mem
            rcases (AList.mem_insert _).mp mem with rfl | old
            · exact DbAccessType.mem_insertConf.mpr (Or.inl rfl)
            · exact DbAccessType.mem_insertConf.mpr (Or.inr (files g old))
          · rintro t' ⟨o', name, count, conf', files'⟩
            dsimp only at name count conf'
            refine ⟨o', name, by omega, fun g mem => ?_, files'⟩
            rcases conf' g mem with conf | later
            · rcases DbAccessType.mem_insertConf.mp conf with rfl | old
              · exact Or.inr List.mem_cons_self
              · exact Or.inl old
            · exact Or.inr (List.mem_cons_of_mem f later)

theorem CacheKept.load (c : ConfFile) (few : c.names.length ≤ topDatabases + 1) :
    Safely (fun t => CacheKept t ∅) (CachedTable.load c) := by
  refine (AllOpen.loadLoop ?_ c.nodup (fun f _ => List.not_mem_nil) ?_ ?_).mono ?_
  · exact ⟨List.nodup_nil, fun f db => iff_of_false (by intro held; cases held) (by intro held; cases held),
      fun f => iff_of_false List.not_mem_nil (by rintro ⟨db, held⟩; cases held), fun f db held => nomatch held⟩
  · change 0 + _ ≤ _
    omega
  · intro f mem
    cases mem
  · rintro t ⟨o, name, count, files, entries⟩
    dsimp only at name count files
    have sub : t.databasesConf ⊆ c.names := fun f mem => (files f mem).resolve_left List.not_mem_nil
    refine ⟨o, fun f mem => ?_, fun f mem => ?_, ?_⟩
    · obtain ⟨n, below, same⟩ := c.numbered f ((files f mem).resolve_left List.not_mem_nil)
      refine ⟨n, by omega, ?_⟩
      unfold CachedTable.filenoOf
      rw [name, same]
    · exact Finset.mem_union_left _ (List.mem_toFinset.mpr (entries f mem))
    · rw [Finset.union_empty, List.toFinset_card_of_nodup o.nodup]
      exact (List.Subperm.length_le (List.subperm_of_subset o.nodup sub)).trans few

/-- A table that is loaded with as many files as the cache has room for, and used by calls that it
has room for. -/
theorem cache_sound_run (c : ConfFile) (few : c.names.length ≤ topDatabases + 1) :
    CachedTable.load c ≠ .error .handle ∧
      ∀ t₀, CachedTable.load c = .ok t₀ →
        ∀ T s, Run (Guarded AskedTable.Roomy AskedStep) ⟨t₀, ∅⟩ T s →
          CacheSound s.table ∧ ∀ call, s.Room call → CallSound s.table call := by
  have loaded := CacheKept.load c few
  refine ⟨loaded.ne_handle, fun t₀ start T s run => ?_⟩
  rw [start] at loaded
  have first : CacheKept t₀ ∅ := loaded
  have kept : CacheKept s.table s.names := by
    refine run.invariant (I := fun s : AskedTable => CacheKept s.table s.names) first ?_
    rintro s ev s' k ⟨room, step, names⟩
    have after := k.call room
    rw [show ev.call.runCached s.table = .ok (ev.answer, s'.table) from step] at after
    rw [names]
    exact after
  exact ⟨kept.sound, fun call room => kept.callSound room⟩

/-- A table without a file. -/
def noFiles : ConfFile := ⟨[116], [], fun _ => Db.fresh, List.nodup_nil, fun _ mem => nomatch mem⟩

/-- A table with one file, whose data file is full. -/
def oneFull : ConfFile where
  filename := [116]
  names := [(DbAccessType.fresh [116]).filenoOf 0]
  file := fun _ => ⟨idxTemplate, ⟨fun _ => 0, dataFilelenMax⟩, idxBase, dataFilelenMax, []⟩
  nodup := List.nodup_singleton _
  numbered := fun _ mem => ⟨0, Nat.one_pos, List.mem_singleton.mp mem⟩

/-- A step within the limit. -/
def AskedTable.take (s : AskedTable) (ev : TableEvent) : Option AskedTable :=
  if (s.table.databasesConf.toFinset ∪ (s.names ∪ ev.call.asks)).card ≤ topDatabases then
    match ev.call.runCached s.table with
    | .ok (answer, t) => if answer = ev.answer then some ⟨t, s.names ∪ ev.call.asks⟩ else none
    | .error _ => none
  else none

theorem AskedTable.take_sound (s : AskedTable) (ev : TableEvent) (s' : AskedTable)
    (taken : s.take ev = some s') : Guarded AskedTable.Roomy AskedStep s ev s' := by
  unfold AskedTable.take at taken
  split_ifs at taken with few
  cases ran : ev.call.runCached s.table with
  | error fault =>
      rw [ran] at taken
      cases taken
  | ok p =>
      obtain ⟨answer, t⟩ := p
      rw [ran] at taken
      dsimp only at taken
      split_ifs at taken with same
      cases taken
      refine ⟨⟨few.trans (Nat.le_succ _), fun _ => few⟩, ?_, rfl⟩
      rw [CachedStep, ran, same]

/-- A name of no file is asked for, a record opens the second file `0/t.1`, is found there and deleted
again. -/
def secondOpened : List TableEvent :=
  [⟨.erase [97] [48, 47, 116, 46, 49], .code 0⟩,
    ⟨.get [97] [48, 47, 116, 46, 49] true, .data (some [1])⟩,
    ⟨.store [97] [1] [], .code 1⟩, ⟨.get [97] [98] true, .data none⟩]

theorem cache_sound_opened : ∃ t₀ s, CachedTable.load oneFull = .ok t₀ ∧ t₀.handles = 1 ∧
    Run (Guarded AskedTable.Roomy AskedStep) ⟨t₀, ∅⟩ secondOpened s ∧ s.table.handles = 2 ∧
      CacheSound s.table := by
  have ends : ((CachedTable.load oneFull).toOption.bind fun t₀ =>
      (reach AskedTable.take ⟨t₀, ∅⟩ secondOpened).map fun s => (t₀.handles, s.table.handles)) =
        some (1, 2) := by decide +kernel
  obtain ⟨t₀, loaded, ends⟩ := Option.bind_eq_some_iff.mp ends
  obtain ⟨s, reached, handles⟩ := Option.map_eq_some_iff.mp ends
  have start : CachedTable.load oneFull = .ok t₀ := by
    cases result : CachedTable.load oneFull with
    | error fault =>
        rw [result] at loaded
        cases loaded
    | ok t =>
        rw [result] at loaded
        cases loaded
        rfl
  have run := run_of_reach AskedTable.take_sound reached
  obtain ⟨one, two⟩ := Prod.mk.inj handles
  exact ⟨t₀, s, start, one, run, two, ((cache_sound_run oneFull (by decide)).2 t₀ start _ s run).1⟩

/-- Names of files that there are not, each of another length. -/
theorem asked_many (n : ℕ) (few : n ≤ topDatabases + 1) :
    ∃ T t names, Run CachedStep ⟨[116], 0, [], ∅, fun _ => Db.fresh, 0, fun _ => none⟩ T t ∧
      CacheKept t names ∧ names.card ≤ n ∧ t.databasesConf = [] ∧ t.dbs.entries.length = n ∧
        ∀ f, n < f.length → t.dbs.lookup f = none := by
  induction n with
  | zero =>
      have loaded := CacheKept.load noFiles (by decide)
      exact ⟨[], _, ∅, .nil, loaded, Nat.le_refl 0, rfl, rfl, fun f _ => rfl⟩
  | succ n ih =>
      obtain ⟨T, t, names, run, k, size, conf, count, free⟩ := ih (by omega)
      have name : List.replicate (n + 1) 97 ≠ ([] : List UInt8) := by simp
      have entry := free (List.replicate (n + 1) 97) (by simp)
      have seen : t.seen (List.replicate (n + 1) 97) =
          { t with dbs := t.dbs.insert (List.replicate (n + 1) 97) none } := by
        unfold CachedTable.seen CachedTable.index
        rw [if_neg name, entry]
      have longer : (t.dbs.insert (List.replicate (n + 1) 97) none).entries.length = n + 1 := by
        rw [AList.entries_insert, List.length_cons, List.kerase_of_notMem_keys, count]
        exact AList.lookup_eq_none.mp entry
      have one : (askedName (List.replicate (n + 1) 97)).card = 1 := by
        rw [askedName, if_neg name]
        rfl
      have more : (names ∪ askedName (List.replicate (n + 1) 97)).card ≤ n + 1 := by
        have sum := Finset.card_union_le names (askedName (List.replicate (n + 1) 97))
        omega
      have room : (t.databasesConf.toFinset ∪ (names ∪ askedName (List.replicate (n + 1) 97))).card ≤
          topDatabases + 1 := by
        rw [conf, List.toFinset_nil, Finset.empty_union]
        exact more.trans few
      have asked := k.runCached_get [97] (List.replicate (n + 1) 97) true ⟨room, fun none => none.elim⟩
      have order : t.order (List.replicate (n + 1) 97) true = [] := by
        simp [CachedTable.order, conf]
      rw [order, if_pos rfl] at asked
      have step : CachedStep t ⟨.get [97] (List.replicate (n + 1) 97) true, .data none⟩
          (t.seen (List.replicate (n + 1) 97)) := asked
      refine ⟨_, _, _, .snoc run step, (k.seen room).1, more, ?_⟩
      rw [seen]
      refine ⟨conf, longer, fun f long => ?_⟩
      have other : f ≠ List.replicate (n + 1) 97 := by
        rintro rfl
        simp at long
      dsimp only
      rw [AList.lookup_insert_ne other]
      exact free f (by omega)

/-- A new file is opened when there are more entries than there should be. -/
theorem store_full {t : CachedTable} (conf : t.databasesConf = [])
    (full : topDatabases < t.dbs.entries.length) :
    (TableCall.store [97] [1] []).runCached t = .error .handle := by
  have opened : t.openNewDb = .error .handle := by
    unfold CachedTable.openNewDb CachedTable.opened CachedTable._open
    dsimp only
    rw [if_pos full]
    rfl
  have new : t.storeNew [97] [1] = .error .handle := by
    unfold CachedTable.storeNew
    rw [opened]
    rfl
  have anywhere : t.storeAnywhere [97] [1] [] = .error .handle := by
    unfold CachedTable.storeAnywhere
    rw [conf]
    exact new
  change (t.store [97] [1] []).map _ = _
  rw [show t.store [97] [1] [] = t.storeAnywhere [97] [1] [] from rfl, anywhere]
  rfl

/-- After a hundred and one names of no file, a first file. -/
theorem not_cache_sound : ¬ ∀ (c : ConfFile) (t₀ : CachedTable) (T : List TableEvent) (t : CachedTable),
    CachedTable.load c = .ok t₀ → Run CachedStep t₀ T t → CacheSound t ∧ ∀ call, CallSound t call := by
  intro claim
  obtain ⟨T, t, -, run, -, -, conf, count, -⟩ := asked_many (topDatabases + 1) (Nat.le_refl _)
  have calls := (claim noFiles _ T t rfl run).2
  exact (calls (.store [97] [1] [])).safe (store_full conf (by omega))

end BloomServer
