import BloomServer.DbAccess
import BloomServer.Library.LabelledRun
import BloomServer.Library.SplitMap

/-! A table is a map as long as each store and each deletion comes to the file that holds the
key. -/
namespace BloomServer
open DecimalText LabelledRun SplitMap

inductive TableCall
  | store (key data fileno : List UInt8)
  | erase (key fileno : List UInt8)
  | get (key fileno : List UInt8) (pos : Bool)

def TableCall.run : TableCall → DbAccessType → Option (DbAnswer × DbAccessType)
  | .store key data fileno, t => (t.store key data fileno).map fun p => (.code p.1, p.2.2)
  | .erase key fileno, t => (t.erase key fileno).map fun p => (.code p.1, p.2)
  | .get key fileno pos, t => (t.get fileno key pos).map fun p => (.data p.1, p.2.2)

/-- A call that has returned. -/
structure TableEvent where
  call : TableCall
  answer : DbAnswer

def TableStep (t : DbAccessType) (ev : TableEvent) (t' : DbAccessType) : Prop :=
  ev.call.run t = some (ev.answer, t')

/-- What a map makes of a call and its answer. A store that has failed may have lost the record. -/
inductive OnTable : KeyMap → TableEvent → KeyMap → Prop
  | stored {m : KeyMap} {key data fileno : List UInt8} {rc : ℤ} (success : rc = 0 ∨ rc = 1) :
      OnTable m ⟨.store key data fileno, .code rc⟩ (Function.update m key (some data))
  | failed {m : KeyMap} {key data fileno : List UInt8} {rc : ℤ} (failure : rc = 2 ∨ rc = 3) :
      OnTable m ⟨.store key data fileno, .code rc⟩ m
  | lost {m : KeyMap} {key data fileno : List UInt8} :
      OnTable m ⟨.store key data fileno, .code 2⟩ (Function.update m key none)
  | erased {m : KeyMap} {key fileno : List UInt8} (held : (m key).isSome = true) :
      OnTable m ⟨.erase key fileno, .code 0⟩ (Function.update m key none)
  | unfound {m : KeyMap} {key fileno : List UInt8} {rc : ℤ} (failure : rc = 1 ∨ rc = -1)
      (absent : m key = none) : OnTable m ⟨.erase key fileno, .code rc⟩ m
  | got {m : KeyMap} {key fileno : List UInt8} {pos : Bool} :
      OnTable m ⟨.get key fileno pos, .data (m key)⟩ m

/-- Stores and deletions of a key. -/
def TableCall.Writes : TableCall → List UInt8 → Prop
  | .store key _ _, k => key = k
  | .erase key _, k => key = k
  | .get _ _ _, _ => False

def TableCall.Stores : TableCall → List UInt8 → Prop
  | .store key _ _, k => key = k
  | .erase _ _, _ => False
  | .get _ _ _, _ => False

namespace OnTable

variable {m m' : KeyMap} {ev : TableEvent} {T : List TableEvent} {key : List UInt8}

theorem frame (h : OnTable m ev m') (other : ¬ ev.call.Writes key) : m' key = m key := by
  cases h with
  | stored _ => exact Function.update_of_ne (Ne.symm other) _ _
  | failed _ => rfl
  | lost => exact Function.update_of_ne (Ne.symm other) _ _
  | erased _ => exact Function.update_of_ne (Ne.symm other) _ _
  | unfound _ _ => rfl
  | got => rfl

theorem stays_absent (h : OnTable m ev m') (other : ¬ ev.call.Stores key) (absent : m key = none) :
    m' key = none := by
  by_cases same : ev.call.Writes key
  · cases h with
    | stored _ => exact absurd same other
    | failed _ => exact absent
    | lost => exact absurd same other
    | @erased erased _ held =>
        have here : erased = key := same
        rw [here, absent] at held
        cases held
    | unfound _ _ => exact absent
    | got => exact absent
  · rw [h.frame same, absent]

theorem run_frame (run : Run OnTable m T m') (others : ∀ ev ∈ T, ¬ ev.call.Writes key) :
    m' key = m key := by
  induction run with
  | nil => rfl
  | snoc _ last ih =>
      rw [last.frame (others _ List.mem_cons_self),
        ih fun ev mem => others ev (List.mem_cons_of_mem _ mem)]

theorem run_absent (run : Run OnTable m T m') (others : ∀ ev ∈ T, ¬ ev.call.Stores key)
    (absent : m key = none) : m' key = none := by
  induction run with
  | nil => exact absent
  | snoc _ last ih =>
      exact last.stays_absent (others _ List.mem_cons_self)
        (ih fun ev mem => others ev (List.mem_cons_of_mem _ mem))

end OnTable

namespace DbAccessType

/-! ### When a table is a map -/

def holds (t : DbAccessType) (fileno key : List UInt8) : Bool :=
  ((t.file fileno).map key).isSome

/-- The files up to the first one that has a place for the record. -/
def upToPlace (t : DbAccessType) (key data : List UInt8) : List (List UInt8) → List (List UInt8)
  | [] => []
  | fileno :: rest =>
      if hasPlace (t.file fileno) key data then [fileno]
      else fileno :: upToPlace t key data rest

/-- The files that a store comes to. -/
def comesTo (t : DbAccessType) (key data fileno : List UInt8) : List (List UInt8) :=
  t.upToPlace key data
    (if t.Has fileno then fileno :: t.databasesConf else t.databasesConf)

/-- The table after a name was looked up. -/
def seen (t : DbAccessType) (fileno : List UInt8) : DbAccessType :=
  if fileno = [] then t else (t.index fileno).2

/-- There is an entry left for a new file. -/
def CanOpen (t : DbAccessType) (fileno : List UInt8) : Prop :=
  (t.seen fileno).dbs.entries.length ≤ topDatabases

instance (t : DbAccessType) (fileno : List UInt8) : Decidable (t.CanOpen fileno) :=
  inferInstanceAs (Decidable (_ ≤ _))

/-- A store comes to each file that holds the key, data that is too long is not stored in a file
asked for, and there is an entry left if a new file is opened. -/
structure StoreClear (t : DbAccessType) (key data fileno : List UInt8) : Prop where
  noNul : 0 ∉ key
  limit : t.Has fileno → data.length ≤ datlenMax
  holders : data.length ≤ datlenMax →
    ∀ f ∈ t.databasesConf, t.holds f key = true → f ∈ t.comesTo key data fileno
  fits : ∀ f ∈ t.comesTo key data fileno, PutFits (t.file f) key data
  opens : (∀ f ∈ t.databasesConf, data.length ≤ datlenMax ∧ hasPlace (t.file f) key data = false) →
    t.CanOpen fileno ∧ PutFits Db.fresh key data

instance (t : DbAccessType) (key data fileno : List UInt8) :
    Decidable (t.StoreClear key data fileno) :=
  decidable_of_iff (0 ∉ key ∧ (t.Has fileno → data.length ≤ datlenMax) ∧
      (data.length ≤ datlenMax → ∀ f ∈ t.databasesConf, t.holds f key = true →
        (t.comesTo key data fileno).contains f = true) ∧
      (∀ f ∈ t.comesTo key data fileno, PutFits (t.file f) key data) ∧
      ((∀ f ∈ t.databasesConf, data.length ≤ datlenMax ∧ hasPlace (t.file f) key data = false) →
        t.CanOpen fileno ∧ PutFits Db.fresh key data))
    ⟨fun h => ⟨h.1, h.2.1, fun limit f mem held =>
        List.contains_iff_mem.mp (h.2.2.1 limit f mem held), h.2.2.2.1, h.2.2.2.2⟩,
      fun h => ⟨h.noNul, h.limit, fun limit f mem held =>
        List.contains_iff_mem.mpr (h.holders limit f mem held), h.fits, h.opens⟩⟩

/-- The file that is searched is the one that holds the key. -/
def EraseClear (t : DbAccessType) (key fileno : List UInt8) : Prop :=
  ∀ f ∈ t.databasesConf, t.holds f key = true →
    if t.Has fileno then f = fileno else t.databasesConf.head? = some f

def Clear (t : DbAccessType) : TableCall → Prop
  | .store key data fileno => key ≠ [] → t.StoreClear key data fileno
  | .erase key fileno => t.EraseClear key fileno
  | .get _ _ _ => True

instance (t : DbAccessType) (key fileno : List UInt8) : Decidable (t.EraseClear key fileno) :=
  inferInstanceAs (Decidable (∀ f ∈ t.databasesConf, t.holds f key = true →
    if t.Has fileno then f = fileno else t.databasesConf.head? = some f))

instance (t : DbAccessType) : (call : TableCall) → Decidable (t.Clear call)
  | .store _ _ _ => inferInstanceAs (Decidable (_ → _))
  | .erase key fileno => inferInstanceAs (Decidable (t.EraseClear key fileno))
  | .get _ _ _ => inferInstanceAs (Decidable True)

def Cleared (t : DbAccessType) (ev : TableEvent) : Prop := t.Clear ev.call

/-- What `get` finds, in whichever file it is told to look. -/
def Gets (t : DbAccessType) (key : List UInt8) (found : Option (List UInt8)) : Prop :=
  ∀ fileno pos, ∃ f t', t.get fileno key pos = some (found, f, t')

theorem filenoOf_inj {t : DbAccessType} {n k : ℕ} (same : t.filenoOf n = t.filenoOf k) : n = k :=
  eq_of_append_decimal (by decide) same

theorem filenoOf_ne_nil (t : DbAccessType) (n : ℕ) : t.filenoOf n ≠ [] := by
  intro nil
  exact decimal_ne_nil n (List.append_eq_nil_iff.mp nil).2

theorem mem_insertConf {conf : List (List UInt8)} {key f : List UInt8} :
    f ∈ insertConf conf key ↔ f = key ∨ f ∈ conf := by
  unfold insertConf
  split_ifs with there
  · exact ⟨Or.inr, Or.rec (· ▸ there) id⟩
  · exact List.mem_orderedInsert ..

theorem nodup_insertConf {conf : List (List UInt8)} {key : List UInt8} (nodup : conf.Nodup) :
    (insertConf conf key).Nodup := by
  unfold insertConf
  split_ifs with there
  · exact nodup
  · rw [(List.perm_orderedInsert _ _ _).nodup_iff]
    exact List.nodup_cons.mpr ⟨there, nodup⟩

theorem index_frame (t : DbAccessType) (fileno : List UInt8) :
    ∃ dbs, (t.index fileno).2 = { t with dbs } := by
  unfold index
  split
  · exact ⟨t.dbs, rfl⟩
  · exact ⟨_, rfl⟩

@[simp] theorem seen_databasesConf (t : DbAccessType) (fileno : List UInt8) :
    (t.seen fileno).databasesConf = t.databasesConf := by
  obtain ⟨dbs, same⟩ := t.index_frame fileno
  unfold seen
  split_ifs
  · rfl
  · rw [same]

@[simp] theorem seen_file (t : DbAccessType) (fileno : List UInt8) :
    (t.seen fileno).file = t.file := by
  obtain ⟨dbs, same⟩ := t.index_frame fileno
  unfold seen
  split_ifs
  · rfl
  · rw [same]

end DbAccessType

/-! ### A table and its map -/

/-- Each key is in one file at most, and every file is open. -/
structure TableSound (t : DbAccessType) (m : KeyMap) : Prop where
  nodup : t.databasesConf.Nodup
  named : ∀ f ∈ t.databasesConf, ∃ n < t.countOfDatabase, f = t.filenoOf n
  opened : ∀ f, t.dbs.lookup f = some true ↔ f ∈ t.databasesConf
  maps : ∀ f ∈ t.databasesConf, Refines (t.file f) (t.file f).map
  split : Split t.databasesConf (Db.map ∘ t.file) m

namespace TableSound

variable {t : DbAccessType} {m m' : KeyMap} {f key data fileno : List UInt8} {db' : Db}

/-! ### The file that holds a key -/

theorem isSome_iff_holds (s : TableSound t m) :
    (m key).isSome = true ↔ ∃ f ∈ t.databasesConf, t.holds f key = true := by
  rw [s.split.isSome_iff]
  simp only [Function.comp_apply, DbAccessType.holds]

theorem eq_none_of_nowhere (s : TableSound t m)
    (nowhere : ∀ f ∈ t.databasesConf, ¬ t.holds f key = true) : m key = none := by
  by_contra some
  obtain ⟨f, mem, held⟩ := s.isSome_iff_holds.mp (Option.isSome_iff_ne_none.mpr some)
  exact nowhere f mem held

theorem eq_of_holds (s : TableSound t m) (mem : f ∈ t.databasesConf) (held : t.holds f key = true) :
    m key = (t.file f).map key := by
  have there : ((Db.map ∘ t.file) f key).isSome = true := by
    rwa [Function.comp_apply]
  rw [s.split.eq_of_isSome mem there, Function.comp_apply]

/-! ### Tables -/

theorem fresh (filename : List UInt8) :
    TableSound (DbAccessType.fresh filename) fun _ => none where
  nodup := List.nodup_nil
  named _ mem := nomatch mem
  opened _ := iff_of_false (by intro held; cases held) List.not_mem_nil
  maps _ mem := nomatch mem
  split := .empty

theorem new_fileno (s : TableSound t m) : t.filenoOf t.countOfDatabase ∉ t.databasesConf := by
  intro mem
  obtain ⟨n, below, same⟩ := s.named _ mem
  exact Nat.ne_of_gt below (DbAccessType.filenoOf_inj same)

theorem nil_not_mem (s : TableSound t m) : [] ∉ t.databasesConf := by
  intro mem
  obtain ⟨n, _, same⟩ := s.named _ mem
  exact t.filenoOf_ne_nil n same.symm

/-! ### Handles -/

theorem usable (s : TableSound t m) (mem : f ∈ t.databasesConf) : t.usable f = some (true, t) := by
  rw [DbAccessType.usable, (s.opened f).mpr mem]

theorem index (s : TableSound t m) (fileno : List UInt8) :
    (t.index fileno).1 = decide (fileno ∈ t.databasesConf) ∧ TableSound (t.index fileno).2 m := by
  unfold DbAccessType.index
  cases entry : t.dbs.lookup fileno with
  | some db =>
      refine ⟨?_, s⟩
      have opened := s.opened fileno
      rw [entry, Option.some_inj] at opened
      cases db with
      | true => exact (decide_eq_true (opened.mp rfl)).symm
      | false => exact (decide_eq_false fun mem => nomatch opened.mpr mem).symm
  | none =>
      have absent : fileno ∉ t.databasesConf := by
        intro mem
        rw [(s.opened fileno).mpr mem] at entry
        cases entry
      refine ⟨(decide_eq_false absent).symm, s.nodup, s.named, ?_, s.maps, s.split⟩
      intro f
      by_cases same : f = fileno
      · subst same
        rw [AList.lookup_insert]
        exact iff_of_false (by decide) absent
      · rw [AList.lookup_insert_ne same]
        exact s.opened f

theorem seen (s : TableSound t m) (fileno : List UInt8) : TableSound (t.seen fileno) m := by
  unfold DbAccessType.seen
  split_ifs
  · exact s
  · exact (s.index fileno).2

/-- A name of no file is not opened. -/
theorem hinted (s : TableSound t m) (fileno : List UInt8) :
    t.hinted fileno = some (decide (fileno ∈ t.databasesConf), t.seen fileno) := by
  unfold DbAccessType.hinted DbAccessType.seen
  split_ifs with nil
  · subst nil
    rw [decide_eq_false s.nil_not_mem]
  · have handle := (s.index fileno).1
    have conf : (t.index fileno).2.databasesConf = t.databasesConf := by
      obtain ⟨dbs, same⟩ := t.index_frame fileno
      rw [same]
    by_cases mem : fileno ∈ t.databasesConf
    · rw [decide_eq_true mem] at handle ⊢
      simp only [handle, if_true]
    · rw [decide_eq_false mem] at handle ⊢
      rw [← conf] at mem
      simp only [handle, Bool.false_eq_true, if_false]
      exact if_neg mem

/-! ### What an operation on one file does to the table -/

/-- What a store that has failed may have made of a map. -/
def Lost (m : KeyMap) (key : List UInt8) (m' : KeyMap) : Prop :=
  m' = m ∨ m' = Function.update m key none

theorem Lost.trans {m₁ m₂ : KeyMap} (first : Lost m key m₁) (rest : Lost m₁ key m₂) :
    Lost m key m₂ := by
  rcases first with rfl | rfl
  · exact rest
  · rcases rest with rfl | rfl
    · exact Or.inr rfl
    · exact Or.inr (Function.update_idem _ _ _)

theorem Lost.put (lost : Lost m key m') (data : List UInt8) :
    Function.update m' key (some data) = Function.update m key (some data) := by
  rcases lost with rfl | rfl
  · rfl
  · exact Function.update_idem _ _ _

theorem onto (s : TableSound t m) {c : KeyMap} (refines : Refines db' c)
    (split : Split t.databasesConf (Function.update (Db.map ∘ t.file) f c) m') :
    TableSound { t with file := Function.update t.file f db' } m' := by
  refine ⟨s.nodup, s.named, s.opened, ?_, ?_⟩
  · intro g mem
    by_cases same : g = f
    · subst same
      dsimp only
      rw [Function.update_self, refines.map_eq]
      exact refines
    · dsimp only
      rw [Function.update_of_ne same]
      exact s.maps g mem
  · dsimp only
    rwa [Function.comp_update, refines.map_eq]

/-- A key is written in one file while no other holds it. -/
theorem write (s : TableSound t m) (mem : f ∈ t.databasesConf) {value : Option (List UInt8)}
    (refines : Refines db' (Function.update (t.file f).map key value))
    (clear : ∀ g ∈ t.databasesConf, t.holds g key = true → g = f) :
    TableSound { t with file := Function.update t.file f db' } (Function.update m key value) := by
  apply s.onto refines
  apply s.split.write mem value
  intro g there other
  by_contra some
  exact other (clear g there (Option.isSome_iff_ne_none.mpr some))

/-- A key is lost in one file. -/
theorem drop (s : TableSound t m) (mem : f ∈ t.databasesConf)
    (refines : Refines db' (Function.update (t.file f).map key none)) :
    ∃ m', Lost m key m' ∧
      TableSound { t with file := Function.update t.file f db' } m' := by
  obtain ⟨m', loss, split⟩ := s.split.drop (k := key) mem
  exact ⟨m', loss, s.onto refines split⟩

end TableSound
end BloomServer
