import BloomServer.DbHandles
import BloomServer.Library.LabelledRun

/-! A table with its handles does what the table without them does. -/
namespace BloomServer
open LabelledRun

/-- Two computations fail together, or their results are related. -/
inductive SameOutcome {α β : Type} (R : α → β → Prop) : Except TableFault α → Option β → Prop
  | ok {a : α} {b : β} (same : R a b) : SameOutcome R (.ok a) (some b)
  | error (fault : TableFault) : SameOutcome R (.error fault) none

namespace SameOutcome

variable {α β α' β' : Type} {R : α → β → Prop} {S : α' → β' → Prop} {x : Except TableFault α}
  {y : Option β}

theorem bind {f : α → Except TableFault α'} {g : β → Option β'} (first : SameOutcome R x y)
    (rest : ∀ a b, R a b → SameOutcome S (f a) (g b)) : SameOutcome S (x >>= f) (y >>= g) := by
  cases first with
  | ok same => exact rest _ _ same
  | error fault => exact .error fault

theorem bind_right {S : α → β' → Prop} {g : β → Option β'} (first : SameOutcome R x y)
    (rest : ∀ a b, R a b → SameOutcome S (.ok a) (g b)) : SameOutcome S x (y >>= g) := by
  cases first with
  | ok same => exact rest _ _ same
  | error fault => exact .error fault

theorem map {f : α → α'} {g : β → β'} (first : SameOutcome R x y) (rest : ∀ a b, R a b → S (f a) (g b)) :
    SameOutcome S (x.map f) (y.map g) := by
  cases first with
  | ok same => exact .ok (rest _ _ same)
  | error fault => exact .error fault

end SameOutcome

/-- The second table is the first one without its handles; the ones in `dbs` are open on their files,
and were returned before the next one. -/
structure Forgets (t : CachedTable) (u : DbAccessType) : Prop where
  filename : u.filename = t.filename
  count : u.countOfDatabase = t.countOfDatabase
  conf : u.databasesConf = t.databasesConf
  file : u.file = t.file
  keys : u.dbs.keys = t.dbs.keys
  entry : ∀ f, u.dbs.lookup f = (t.dbs.lookup f).map Option.isSome
  held : ∀ f db, t.dbs.lookup f = some (some db) → t.openOn db = some f
  below : ∀ f db, t.dbs.lookup f = some (some db) → db < t.handles

/-- The same answer, from tables that are the same but for the handles. -/
def Alike {α : Type} (p : α × CachedTable) (q : α × DbAccessType) : Prop := p.1 = q.1 ∧ Forgets p.2 q.2

/-- And with the name of a file. -/
def NamedAlike {α : Type} (p : α × List UInt8 × CachedTable) (q : α × List UInt8 × DbAccessType) : Prop :=
  p.1 = q.1 ∧ p.2.1 = q.2.1 ∧ Forgets p.2.2 q.2.2

/-- There is a handle of the file, or in both tables none. -/
def OpenAlike (f : List UInt8) (p : Option ℕ × CachedTable) (q : Bool × DbAccessType) : Prop :=
  p.1.isSome = q.1 ∧ (∀ db, p.1 = some db → p.2.openOn db = some f) ∧ Forgets p.2 q.2

namespace Forgets

variable {t : CachedTable} {u : DbAccessType} {f key data fileno : List UInt8} {db : ℕ}

theorem fresh (filename : List UInt8) :
    Forgets ⟨filename, 0, [], ∅, fun _ => Db.fresh, 0, fun _ => none⟩ (DbAccessType.fresh filename) := by
  refine ⟨rfl, rfl, rfl, rfl, rfl, fun f => rfl, fun f db held => ?_, fun f db held => ?_⟩
  · cases held
  · cases held

theorem length (s : Forgets t u) : u.dbs.entries.length = t.dbs.entries.length := by
  have same := congrArg List.length s.keys
  simpa [AList.keys, List.keys] using same

/-! ### Handles -/

theorem insert (s : Forgets t u) (f : List UInt8) (value : Option ℕ)
    (fits : ∀ db, value = some db → t.openOn db = some f ∧ db < t.handles) :
    Forgets { t with dbs := t.dbs.insert f value } { u with dbs := u.dbs.insert f value.isSome } := by
  refine ⟨s.filename, s.count, s.conf, s.file, ?_, fun g => ?_, fun g db found => ?_, fun g db found => ?_⟩
  · simp only [AList.keys_insert, s.keys]
  · by_cases same : g = f
    · rw [same, AList.lookup_insert, AList.lookup_insert]
      rfl
    · rw [AList.lookup_insert_ne same, AList.lookup_insert_ne same, s.entry g]
  · by_cases same : g = f
    · rw [same, AList.lookup_insert] at found
      rw [same]
      exact (fits db (Option.some.inj found)).1
    · rw [AList.lookup_insert_ne same] at found
      exact s.held g db found
  · by_cases same : g = f
    · rw [same, AList.lookup_insert] at found
      exact (fits db (Option.some.inj found)).2
    · rw [AList.lookup_insert_ne same] at found
      exact s.below g db found

/-- A new handle is none that `dbs` holds. -/
theorem returned (s : Forgets t u) (f : List UInt8) (db : Db) :
    Forgets
      { t with
        file := Function.update t.file f db
        handles := t.handles + 1
        openOn := Function.update t.openOn t.handles (some f) }
      { u with file := Function.update u.file f db } := by
  refine ⟨s.filename, s.count, s.conf, ?_, s.keys, s.entry, fun g db found => ?_, fun g db found => ?_⟩
  · exact congrArg (Function.update · f db) s.file
  · have other := (s.below g db found).ne
    exact (Function.update_of_ne other _ _).trans (s.held g db found)
  · exact Nat.lt_succ_of_lt (s.below g db found)

theorem index (s : Forgets t u) (f : List UInt8) : OpenAlike f (t.index f) (u.index f) := by
  unfold CachedTable.index DbAccessType.index
  rw [s.entry f]
  cases entry : t.dbs.lookup f with
  | some db => exact ⟨rfl, fun db' same => s.held f db' (same ▸ entry), s⟩
  | none =>
      refine ⟨rfl, ?_, s.insert f none ?_⟩
      · rintro db ⟨⟩
      · rintro db ⟨⟩

theorem opened (s : Forgets t u) (f : List UInt8) (db : Db) :
    SameOutcome (fun t' u' => t'.openOn t.handles = some f ∧ t'.countOfDatabase = t.countOfDatabase ∧ Forgets t' u')
      (t.opened f db) ({ u with file := Function.update u.file f db }._open f) := by
  have s' := s.returned f db
  unfold CachedTable.opened CachedTable._open DbAccessType._open
  dsimp only
  rw [s.length]
  by_cases full : topDatabases < t.dbs.entries.length
  · rw [if_pos full, if_pos full]
    exact .error .handle
  · rw [if_neg full, if_neg full]
    refine .ok ⟨Function.update_self .., rfl, s'.insert f (some t.handles) ?_⟩
    rintro db ⟨⟩
    exact ⟨Function.update_self .., Nat.lt_succ_self _⟩

theorem openExistDb (s : Forgets t u) (f : List UInt8) :
    SameOutcome (OpenAlike f) (t.openExistDb f) (u.openExistDb f) := by
  have has : u.Has f ↔ f ∈ t.databasesConf := by rw [DbAccessType.Has, s.conf]
  unfold CachedTable.openExistDb DbAccessType.openExistDb
  by_cases mem : f ∈ t.databasesConf
  · rw [if_pos mem, if_pos (has.mpr mem), s.file]
    cases dbOpen (t.file f).idx (t.file f).dat with
    | none => exact .error .file
    | some db =>
        have out := s.opened f db
        rw [s.file] at out
        apply out.bind
        rintro t' u' ⟨there, -, s'⟩
        refine .ok ⟨rfl, ?_, s'⟩
        rintro db ⟨⟩
        exact there
  · rw [if_neg mem, if_neg (mt has.mp mem)]
    refine .ok ⟨rfl, ?_, s⟩
    rintro db ⟨⟩

theorem usable (s : Forgets t u) (f : List UInt8) : SameOutcome (OpenAlike f) (t.usable f) (u.usable f) := by
  unfold CachedTable.usable DbAccessType.usable
  rw [s.entry f]
  cases entry : t.dbs.lookup f with
  | none => exact s.openExistDb f
  | some db => exact .ok ⟨rfl, fun db' same => s.held f db' (same ▸ entry), s⟩

theorem openNewDb (s : Forgets t u) :
    SameOutcome (fun p q => p.1 = q.1 ∧ p.2.2.openOn p.2.1 = some p.1 ∧ Forgets p.2.2 q.2) t.openNewDb
      u.openNewDb := by
  have name : u.filenoOf u.countOfDatabase = t.filenoOf t.countOfDatabase := by
    rw [s.count]
    unfold CachedTable.filenoOf DbAccessType.filenoOf
    rw [s.filename]
    rfl
  have grown : Forgets
      { t with databasesConf := DbAccessType.insertConf t.databasesConf (t.filenoOf t.countOfDatabase) }
      { u with databasesConf := DbAccessType.insertConf u.databasesConf (t.filenoOf t.countOfDatabase) } :=
    ⟨s.filename, s.count, congrArg (DbAccessType.insertConf · _) s.conf, s.file, s.keys, s.entry, s.held, s.below⟩
  unfold CachedTable.openNewDb DbAccessType.openNewDb
  rw [name]
  apply (grown.opened (t.filenoOf t.countOfDatabase) Db.fresh).bind
  rintro t' u' ⟨there, count, s'⟩
  refine .ok ⟨rfl, there, s'.filename, ?_, s'.conf, s'.file, s'.keys, s'.entry, s'.held, s'.below⟩
  exact congrArg (· + 1) (s'.count.trans count)

/-- A function of `db.h` does to the file of a handle what it does to the file. -/
theorem onHandle (s : Forgets t u) (held : t.openOn db = some f) (op : Db → Option (ℤ × Db)) :
    SameOutcome Alike (t.onHandle db op) (u.onFile f op) := by
  unfold CachedTable.onHandle DbAccessType.onFile
  rw [held, s.file]
  dsimp only
  cases op (t.file f) with
  | none => exact .error .file
  | some p =>
      refine .ok ⟨rfl, s.filename, s.count, s.conf, rfl, s.keys, s.entry, s.held, s.below⟩

/-! ### `store` -/

theorem hinted (s : Forgets t u) (fileno : List UInt8) :
    SameOutcome (OpenAlike fileno) (t.hinted fileno) (u.hinted fileno) := by
  have out := s.index fileno
  unfold CachedTable.hinted DbAccessType.hinted
  by_cases nil : fileno = []
  · rw [if_pos nil, if_pos nil]
    refine .ok ⟨rfl, ?_, s⟩
    rintro db ⟨⟩
  · rw [if_neg nil, if_neg nil]
    generalize t.index fileno = p at out
    generalize u.index fileno = q at out
    obtain ⟨db, t'⟩ := p
    obtain ⟨b, u'⟩ := q
    obtain ⟨same, held, s'⟩ := out
    cases same
    cases db with
    | none => exact s'.openExistDb fileno
    | some db => exact .ok ⟨rfl, held, s'⟩

theorem storeLoop (s : Forgets t u) (key data fileno : List UInt8) (l : List (List UInt8)) :
    SameOutcome Alike (CachedTable.storeLoop key data fileno l t) (DbAccessType.storeLoop key data fileno l u) := by
  induction l generalizing t u with
  | nil => exact .ok ⟨rfl, s⟩
  | cons f l ih =>
      unfold CachedTable.storeLoop DbAccessType.storeLoop
      apply (s.usable f).bind
      rintro ⟨db, t'⟩ ⟨b, u'⟩ ⟨same, held, s'⟩
      cases same
      cases db with
      | none => exact ih s'
      | some db =>
          apply (s'.onHandle (held db rfl) fun file => dbPut file key data).bind
          rintro ⟨ret, t''⟩ ⟨ret', u''⟩ ⟨same, s''⟩
          cases same
          dsimp only
          split_ifs
          · exact .ok ⟨rfl, s''⟩
          · exact .ok ⟨rfl, s''⟩
          · exact ih s''

theorem storeNew (s : Forgets t u) (key data : List UInt8) :
    SameOutcome NamedAlike (t.storeNew key data) (u.storeNew key data) := by
  unfold CachedTable.storeNew DbAccessType.storeNew
  apply s.openNewDb.bind
  rintro ⟨f, db, t'⟩ ⟨f', u'⟩ ⟨same, held, s'⟩
  cases same
  apply (s'.onHandle held fun file => dbPut file key data).bind
  rintro ⟨ret, t''⟩ ⟨ret', u''⟩ ⟨same, s''⟩
  cases same
  exact .ok ⟨rfl, rfl, s''⟩

theorem storeAnywhere (s : Forgets t u) (key data fileno : List UInt8) :
    SameOutcome NamedAlike (t.storeAnywhere key data fileno) (u.storeAnywhere key data fileno) := by
  unfold CachedTable.storeAnywhere DbAccessType.storeAnywhere
  rw [s.conf]
  apply (s.storeLoop key data fileno t.databasesConf).bind
  rintro ⟨found, t'⟩ ⟨found', u'⟩ ⟨same, s'⟩
  cases same
  cases found with
  | none => exact s'.storeNew key data
  | some p => exact .ok ⟨rfl, rfl, s'⟩

theorem store (s : Forgets t u) (key data fileno : List UInt8) :
    SameOutcome NamedAlike (t.store key data fileno) (u.store key data fileno) := by
  unfold CachedTable.store DbAccessType.store
  by_cases empty : key = []
  · rw [if_pos empty, if_pos empty]
    exact .ok ⟨rfl, rfl, s⟩
  · rw [if_neg empty, if_neg empty, CachedTable.storeHinted, bind_assoc]
    apply (s.hinted fileno).bind
    rintro ⟨db, t'⟩ ⟨b, u'⟩ ⟨same, held, s'⟩
    cases same
    cases db with
    | none => exact s'.storeAnywhere key data fileno
    | some db =>
        apply (s'.onHandle (held db rfl) fun file => dbPutHinted file key data).bind
        rintro ⟨ret, t''⟩ ⟨ret', u''⟩ ⟨same, s''⟩
        cases same
        dsimp only
        split_ifs
        · exact .ok ⟨rfl, rfl, s''⟩
        · exact s''.storeAnywhere key data fileno

/-! ### `erase` -/

theorem eraseLoop (s : Forgets t u) (key : List UInt8) (l : List (List UInt8)) :
    SameOutcome Alike (CachedTable.eraseLoop key l t) (DbAccessType.eraseLoop key l u) := by
  induction l generalizing t u with
  | nil => exact .ok ⟨rfl, s⟩
  | cons f l ih =>
      unfold CachedTable.eraseLoop DbAccessType.eraseLoop
      apply (s.usable f).bind
      rintro ⟨db, t'⟩ ⟨b, u'⟩ ⟨same, held, s'⟩
      cases same
      cases db with
      | none => exact ih s'
      | some db => exact s'.onHandle (held db rfl) _

theorem erase (s : Forgets t u) (key fileno : List UInt8) :
    SameOutcome Alike (t.erase key fileno) (u.erase key fileno) := by
  have looked : OpenAlike fileno (if fileno = [] then (none, t) else t.index fileno)
      (if fileno = [] then (false, u) else u.index fileno) := by
    split_ifs
    · refine ⟨rfl, ?_, s⟩
      rintro db ⟨⟩
    · exact s.index fileno
  unfold CachedTable.erase DbAccessType.erase
  generalize (if fileno = [] then (none, t) else t.index fileno) = p at looked
  generalize (if fileno = [] then (false, u) else u.index fileno) = q at looked
  obtain ⟨db, t'⟩ := p
  obtain ⟨b, u'⟩ := q
  obtain ⟨same, held, s'⟩ := looked
  cases same
  cases db with
  | none =>
      dsimp only
      rw [s'.conf]
      exact s'.eraseLoop key t'.databasesConf
  | some db => exact s'.onHandle (held db rfl) _

/-! ### `get` -/

/-- A fetch leaves the table as it is. -/
theorem fetch (s : Forgets t u) (held : t.openOn db = some f) (key : List UInt8) :
    SameOutcome (fun p dbd => p.1 = dbd ∧ Forgets p.2 u) (t.fetch (some db) key) (dbFetch (u.file f) key) := by
  unfold CachedTable.fetch CachedTable.onHandle
  rw [s.file]
  simp only [held]
  cases dbFetch (t.file f) key with
  | none => exact .error .file
  | some dbd =>
      refine .ok ⟨rfl, ?_⟩
      simp only [Function.update_eq_self]
      exact s

theorem getByPos (s : Forgets t u) (key fileno : List UInt8) :
    SameOutcome Alike (t.getByPos key fileno) (u.getByPos key fileno) := by
  have fetched {db : Option ℕ} {t' : CachedTable} {u' : DbAccessType} (s' : Forgets t' u')
      (held : ∀ h, db = some h → t'.openOn h = some fileno) :
      SameOutcome Alike (t'.fetch db key)
        (if db.isSome then dbFetch (u'.file fileno) key >>= fun dbd => some (dbd, u') else some (none, u')) := by
    cases db with
    | none => exact .ok ⟨rfl, s'⟩
    | some h =>
        apply (s'.fetch (held h rfl) key).bind_right
        rintro p dbd same
        exact .ok same
  have out := s.index fileno
  unfold CachedTable.getByPos DbAccessType.getByPos
  generalize t.index fileno = p at out
  generalize u.index fileno = q at out
  obtain ⟨db, t'⟩ := p
  obtain ⟨b, u'⟩ := q
  obtain ⟨same, held, s'⟩ := out
  cases same
  cases db with
  | some h =>
      simp only [not_true_eq_false, and_false, if_false]
      exact fetched s' held
  | none =>
      by_cases nil : fileno = []
      · simp only [nil, ne_eq, not_true_eq_false, false_and, if_false]
        exact .ok ⟨rfl, s'⟩
      · simp only [nil, ne_eq, not_false_eq_true, Bool.false_eq_true, and_self, if_true]
        apply (s'.openExistDb fileno).bind
        rintro ⟨db, t''⟩ ⟨b, u''⟩ ⟨same, held, s''⟩
        cases same
        exact fetched s'' held

theorem getLoop (s : Forgets t u) (key fileno : List UInt8) (l : List (List UInt8)) :
    SameOutcome NamedAlike (CachedTable.getLoop key fileno l t) (DbAccessType.getLoop key fileno l u) := by
  induction l generalizing t u with
  | nil => exact .ok ⟨rfl, rfl, s⟩
  | cons f l ih =>
      unfold CachedTable.getLoop DbAccessType.getLoop
      apply (s.usable f).bind
      rintro ⟨db, t'⟩ ⟨b, u'⟩ ⟨same, held, s'⟩
      cases same
      cases db with
      | none => exact ih s'
      | some h =>
          apply (s'.fetch (held h rfl) key).bind
          rintro ⟨dbd, t''⟩ dbd' ⟨same, s''⟩
          cases same
          dsimp only
          split_ifs
          · exact .ok ⟨rfl, rfl, s''⟩
          · exact ih s''

theorem get (s : Forgets t u) (fileno key : List UInt8) (pos : Bool) :
    SameOutcome NamedAlike (t.get fileno key pos) (u.get fileno key pos) := by
  have rest : ∀ p q, Alike p q → SameOutcome NamedAlike
      (if p.1.isSome then .ok (p.1, fileno, p.2) else CachedTable.getLoop key fileno p.2.databasesConf p.2)
      (if q.1.isSome then some (q.1, fileno, q.2)
        else DbAccessType.getLoop key fileno q.2.databasesConf q.2) := by
    rintro ⟨dbd, t'⟩ ⟨dbd', u'⟩ ⟨same, s'⟩
    cases same
    dsimp only
    split_ifs
    · exact .ok ⟨rfl, rfl, s'⟩
    · rw [s'.conf]
      exact s'.getLoop key fileno t'.databasesConf
  unfold CachedTable.get DbAccessType.get
  by_cases asked : fileno ≠ [] ∧ pos
  · simp only [if_pos asked]
    exact (s.getByPos key fileno).bind rest
  · simp only [if_neg asked]
    exact rest (none, t) (none, u) ⟨rfl, s⟩

/-! ### Calls and runs -/

theorem call (s : Forgets t u) (call : TableCall) : SameOutcome Alike (call.runCached t) (call.run u) := by
  cases call with
  | store key data fileno =>
      exact (s.store key data fileno).map fun p q same => ⟨congrArg DbAnswer.code same.1, same.2.2⟩
  | erase key fileno =>
      exact (s.erase key fileno).map fun p q same => ⟨congrArg DbAnswer.code same.1, same.2⟩
  | get key fileno pos =>
      exact (s.get fileno key pos).map fun p q same => ⟨congrArg DbAnswer.data same.1, same.2.2⟩

theorem step {ev : TableEvent} {t' : CachedTable} (s : Forgets t u) (step : CachedStep t ev t') :
    ∃ u', TableStep u ev u' ∧ Forgets t' u' := by
  have out := s.call ev.call
  rw [show ev.call.runCached t = .ok (ev.answer, t') from step] at out
  generalize run : ev.call.run u = y at out
  cases out with
  | @ok _ q same =>
      obtain ⟨answer, s'⟩ := same
      refine ⟨q.2, ?_, s'⟩
      unfold TableStep
      rw [run, show ev.answer = q.1 from answer]

theorem step_back {ev : TableEvent} {u' : DbAccessType} (s : Forgets t u) (step : TableStep u ev u') :
    ∃ t', CachedStep t ev t' ∧ Forgets t' u' := by
  have out := s.call ev.call
  rw [show ev.call.run u = some (ev.answer, u') from step] at out
  generalize run : ev.call.runCached t = x at out
  cases out with
  | @ok p _ same =>
      obtain ⟨answer, s'⟩ := same
      refine ⟨p.2, ?_, s'⟩
      unfold CachedStep
      rw [run, ← show p.1 = ev.answer from answer]

end Forgets

/-- The runs of a table are those of the table without its handles. -/
theorem CachedTable.run_iff {t : CachedTable} {u : DbAccessType} (s : Forgets t u) (T : List TableEvent) :
    (∃ t', Run CachedStep t T t') ↔ ∃ u', Run TableStep u T u' := by
  constructor
  · rintro ⟨t', run⟩
    obtain ⟨u', simulated, -⟩ := run.simulated (fun _ _ _ _ s step => s.step step) s
    exact ⟨u', simulated⟩
  · rintro ⟨u', run⟩
    have back : ∀ u ev u' t, Forgets t u → TableStep u ev u' → ∃ t', CachedStep t ev t' ∧ Forgets t' u' :=
      fun _ _ _ _ s step => s.step_back step
    obtain ⟨t', simulated, -⟩ := run.simulated (S := fun u t => Forgets t u) back s
    exact ⟨t', simulated⟩

/-- A table that starts without a file, and one without handles, have the same runs. -/
theorem CachedTable.run_fresh_iff (filename : List UInt8) (T : List TableEvent) :
    (∃ t, Run CachedStep ⟨filename, 0, [], ∅, fun _ => Db.fresh, 0, fun _ => none⟩ T t) ↔
      ∃ u, Run TableStep (DbAccessType.fresh filename) T u :=
  CachedTable.run_iff (Forgets.fresh filename) T

end BloomServer
