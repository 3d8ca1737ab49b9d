import BloomServer.DbSteps

/-! A file is a finite map: the calls it is used with, and what a map answers to them. -/
namespace BloomServer

/-- The calls on a file. -/
inductive DbCall
  | store (key data : List UInt8) (flag : DbFlag)
  | delete (key : List UInt8)
  | fetch (key : List UInt8)

/-- A return code, or the data found. -/
inductive DbAnswer
  | code (rc : ℤ)
  | data (found : Option (List UInt8))
  deriving DecidableEq

def DbCall.run : DbCall → Db → Option (DbAnswer × Db)
  | .store key data flag, db => (dbStore db key data flag).map fun p => (.code p.1, p.2)
  | .delete key, db => (dbDelete db key).map fun p => (.code p.1, p.2)
  | .fetch key, db => (dbFetch db key).map fun found => (.data found, db)

/-- What is called one after the other, and what it answers. -/
def runCalls : List DbCall → Db → Option (List DbAnswer × Db)
  | [], db => some ([], db)
  | call :: rest, db => do
      let (answer, db) ← call.run db
      let (answers, db) ← runCalls rest db
      return (answer :: answers, db)

/-- Every call meets a condition on the file it is made on. -/
def AllMeet (P : DbCall → Db → Prop) : List DbCall → Db → Prop
  | [], _ => True
  | call :: rest, db => P call db ∧ ∀ out ∈ call.run db, AllMeet P rest out.2

instance allMeetDecidable (P : DbCall → Db → Prop) [∀ call db, Decidable (P call db)] :
    (calls : List DbCall) → (db : Db) → Decidable (AllMeet P calls db)
  | [], _ => inferInstanceAs (Decidable True)
  | call :: rest, db =>
      have (out : DbAnswer × Db) : Decidable (AllMeet P rest out.2) :=
        allMeetDecidable P rest out.2
      inferInstanceAs (Decidable (P call db ∧ ∀ out ∈ call.run db, AllMeet P rest out.2))

/-- A step that keeps an invariant lets every run keep it. -/
theorem runCalls_invariant {P : DbCall → Db → Prop} {I : Db → Prop}
    (step : ∀ call db answer db', I db → P call db → call.run db = some (answer, db') → I db')
    {calls : List DbCall} {db db' : Db} {answers : List DbAnswer} (start : I db)
    (meet : AllMeet P calls db) (run : runCalls calls db = some (answers, db')) : I db' := by
  induction calls generalizing db answers with
  | nil =>
      cases run
      exact start
  | cons call rest ih =>
      obtain ⟨first, next⟩ := meet
      obtain ⟨out, called, run⟩ := Option.bind_eq_some_iff.mp run
      obtain ⟨later, ran, returned⟩ := Option.bind_eq_some_iff.mp run
      cases returned
      exact ih (step call db out.1 out.2 start first called) (next out called) ran

theorem AllMeet.mono {P Q : DbCall → Db → Prop} (sub : ∀ call db, P call db → Q call db)
    {calls : List DbCall} {db : Db} (meet : AllMeet P calls db) : AllMeet Q calls db := by
  induction calls generalizing db with
  | nil => trivial
  | cons call rest ih =>
      obtain ⟨first, next⟩ := meet
      exact ⟨sub call db first, fun out called => ih (next out called)⟩

/-- The beginning of a run whose calls meet a condition. -/
theorem AllMeet.take {P : DbCall → Db → Prop} {calls : List DbCall} {db : Db}
    (meet : AllMeet P calls db) (n : ℕ) : AllMeet P (calls.take n) db := by
  induction n generalizing calls db with
  | zero => trivial
  | succ n ih =>
      cases calls with
      | nil => trivial
      | cons call rest =>
          obtain ⟨first, next⟩ := meet
          exact ⟨first, fun out called => ih (next out called)⟩

/-! ### The map -/

/-- What a file is for. -/
abbrev KeyMap := List UInt8 → Option (List UInt8)

/-- What a finite map answers to a call, and the map afterwards. -/
def DbCall.onMap : DbCall → KeyMap → DbAnswer × KeyMap
  | .store key data .insert, m =>
      if (m key).isSome then (.code 1, m) else (.code 0, Function.update m key (some data))
  | .store key data .replace, m =>
      if (m key).isSome then (.code 0, Function.update m key (some data)) else (.code (-1), m)
  | .delete key, m =>
      if (m key).isSome then (.code 0, Function.update m key none) else (.code (-1), m)
  | .fetch key, m => (.data (m key), m)

def mapCalls : List DbCall → KeyMap → List DbAnswer × KeyMap
  | [], m => ([], m)
  | call :: rest, m =>
      ((call.onMap m).1 :: (mapCalls rest (call.onMap m).2).1, (mapCalls rest (call.onMap m).2).2)

/-- Keys that are C strings and not empty, data that is not too long, no limit of a file reached,
and an index record within its limit. -/
def DbCall.InRange : DbCall → Db → Prop
  | .store key data flag, db =>
      (key ≠ [] ∧ 0 ∉ key) ∧ data.length ≤ datlenMax ∧ StoreShort db key data flag ∧
        (needsPlace db key data flag = true →
          (freeFor db key data = none → dbIsEnoughFileSpace db key.length data.length = 0) ∧
            db.idxLen ≤ ptrMax)
  | .delete key, _ => key ≠ [] ∧ 0 ∉ key
  | .fetch key, _ => key ≠ [] ∧ 0 ∉ key

/-- The index record of a record that is written again where it stands fits. -/
def DbCall.Fits : DbCall → Db → Prop
  | .store key data .replace, db => RewriteFits db key data
  | _, _ => True

instance : (call : DbCall) → (db : Db) → Decidable (call.InRange db)
  | .store _ _ _, _ => inferInstanceAs (Decidable ((_ ∧ _) ∧ _ ∧ _ ∧ (_ → _)))
  | .delete _, _ => inferInstanceAs (Decidable (_ ∧ _))
  | .fetch _, _ => inferInstanceAs (Decidable (_ ∧ _))

instance : (call : DbCall) → (db : Db) → Decidable (call.Fits db)
  | .store key data .replace, db => inferInstanceAs (Decidable (RewriteFits db key data))
  | .store _ _ .insert, _ => inferInstanceAs (Decidable True)
  | .delete _, _ => inferInstanceAs (Decidable True)
  | .fetch _, _ => inferInstanceAs (Decidable True)

/-- The chains hold at most one record for each key, with the data of the map. -/
def Refines (db : Db) (m : KeyMap) : Prop :=
  ∃ L chain, Sound db L chain ∧ ∀ key, contents chain key = (m key).toList

section Refines

variable {chain chain' : ℕ → List Entry} {m : KeyMap} {key data : List UInt8}

theorem refines_put (same : ∀ key, contents chain key = (m key).toList)
    (holds : contents chain' = Function.update (contents chain) key
      (data :: (contents chain key).tail)) (k : List UInt8) :
    contents chain' k = (Function.update m key (some data) k).toList := by
  rw [holds]
  by_cases here : k = key
  · subst here
    rw [Function.update_self, Function.update_self, same k]
    cases m k <;> rfl
  · rw [Function.update_of_ne here, Function.update_of_ne here, same k]

theorem refines_drop (same : ∀ key, contents chain key = (m key).toList)
    (holds : contents chain' = Function.update (contents chain) key (contents chain key).tail)
    (k : List UInt8) : contents chain' k = (Function.update m key none k).toList := by
  rw [holds]
  by_cases here : k = key
  · subst here
    rw [Function.update_self, Function.update_self, same k]
    cases m k <;> rfl
  · rw [Function.update_of_ne here, Function.update_of_ne here, same k]

theorem contents_eq_nil (same : ∀ key, contents chain key = (m key).toList) :
    contents chain key = [] ↔ ¬ (m key).isSome = true := by
  rw [same key]
  cases m key <;> simp

/-- A map stores what a file stores. -/
theorem onMap_stored {flag : DbFlag} (allowed : flag = .insert ↔ ¬ (m key).isSome = true) :
    (DbCall.store key data flag).onMap m = (.code 0, Function.update m key (some data)) := by
  cases flag with
  | insert => exact if_neg (allowed.mp rfl)
  | replace =>
      have present : (m key).isSome = true := by
        by_contra absent
        cases allowed.mpr absent
      exact if_pos present

end Refines

/-- One call answers as the map does, and leaves a file that is again the map. -/
theorem Refines.call {db : Db} {m : KeyMap} (h : Refines db m) (call : DbCall)
    (within : call.InRange db) (fits : call.Fits db) :
    ∃ db', call.run db = some ((call.onMap m).1, db') ∧ Refines db' (call.onMap m).2 := by
  obtain ⟨L, chain, sound, same⟩ := h
  cases call with
  | fetch key =>
      refine ⟨db, ?_, L, chain, sound, same⟩
      rw [DbCall.run, DbCall.onMap, sound.fetch key, same key]
      cases m key <;> rfl
  | delete key =>
      obtain ⟨db', L', chain', deleted, sound', holds, _⟩ := sound.delete key
      refine ⟨db', ?_, ?_⟩
      · rw [DbCall.run, deleted, DbCall.onMap]
        by_cases present : (m key).isSome = true
        · rw [if_pos present, if_neg fun none => (contents_eq_nil same).mp none present]
          rfl
        · rw [if_neg present, if_pos ((contents_eq_nil same).mpr present)]
          rfl
      · have dropped := refines_drop same holds
        rw [DbCall.onMap]
        by_cases present : (m key).isSome = true
        · rw [if_pos present]
          exact ⟨L', chain', sound', dropped⟩
        · have none : m key = none := Option.not_isSome_iff_eq_none.mp present
          rw [if_neg present]
          refine ⟨L', chain', sound', fun k => ?_⟩
          rw [dropped k, ← none, Function.update_eq_self]
  | store key data flag =>
      obtain ⟨⟨_, noNul⟩, limit, short, room⟩ := within
      have out := sound.store noNul flag short (fun replace => by subst replace; exact fits)
      rw [DbCall.run]
      generalize dbStore db key data flag = result at out
      cases out with
      | tooLong long => exact absurd limit (Nat.not_le.mpr long)
      | missing replace none =>
          subst replace
          have absent := (contents_eq_nil same).mp none
          refine ⟨db, ?_, ?_⟩
          · rw [DbCall.onMap, if_neg absent]
            rfl
          · rw [DbCall.onMap, if_neg absent]
            exact ⟨L, chain, sound, same⟩
      | present insert held =>
          subst insert
          have present := not_not.mp fun absent => held ((contents_eq_nil same).mpr absent)
          refine ⟨db, ?_, ?_⟩
          · rw [DbCall.onMap, if_pos present]
            rfl
          · rw [DbCall.onMap, if_pos present]
            exact ⟨L, chain, sound, same⟩
      | full place free space => exact absurd ((room place).1 free) space
      | beyond place far _ => exact absurd (room place).2 (Nat.not_le.mpr far)
      | stored allowed db' L' chain' sound' holds _ =>
          have put := refines_put same holds
          have answer : (DbCall.store key data flag).onMap m = _ :=
            onMap_stored (allowed.trans (contents_eq_nil same))
          refine ⟨db', ?_, ?_⟩
          · rw [answer]
            rfl
          · rw [answer]
            exact ⟨L', chain', sound', put⟩

/-- Calls made one after the other answer as the map does. -/
theorem Refines.calls {db : Db} {m : KeyMap} (h : Refines db m) (calls : List DbCall)
    (within : AllMeet DbCall.InRange calls db) (fits : AllMeet DbCall.Fits calls db) :
    ∃ db', runCalls calls db = some ((mapCalls calls m).1, db') ∧
      Refines db' (mapCalls calls m).2 := by
  induction calls generalizing db m with
  | nil => exact ⟨db, rfl, h⟩
  | cons call rest ih =>
      obtain ⟨db₁, called, h₁⟩ := h.call call within.1 fits.1
      obtain ⟨db', ran, h'⟩ := ih h₁ (within.2 _ called) (fits.2 _ called)
      refine ⟨db', ?_, h'⟩
      unfold runCalls
      rw [called]
      change (runCalls rest db₁).bind _ = _
      rw [ran]
      rfl

theorem Refines.fetch {db : Db} {m : KeyMap} (h : Refines db m) (key : List UInt8) :
    dbFetch db key = some (m key) := by
  obtain ⟨L, chain, sound, same⟩ := h
  rw [sound.fetch key, same key]
  cases m key <;> rfl

theorem Refines.fresh : Refines Db.fresh fun _ => none :=
  ⟨_, _, Sound.fresh, fun _ => rfl⟩

/-- As long as every record that is written again where it stands has room for its index record, a
file answers all calls as a finite map does. -/
theorem store_is_map (calls : List DbCall) (within : AllMeet DbCall.InRange calls Db.fresh)
    (fits : AllMeet DbCall.Fits calls Db.fresh) :
    ∃ db, runCalls calls Db.fresh = some ((mapCalls calls fun _ => none).1, db) ∧
      ∀ key, dbFetch db key = some ((mapCalls calls fun _ => none).2 key) := by
  obtain ⟨db, ran, refines⟩ := Refines.fresh.calls calls within fits
  exact ⟨db, ran, refines.fetch⟩

/-- A record appended with a key area that is too large for its key has an index record that is too
short for a longer key, once the data is longer than what the free record was reused for. -/
def outgrown : List DbCall :=
  [.store (List.replicate 10 97) (List.replicate 10 1) .insert,
    .delete (List.replicate 10 97),
    .store (List.replicate 9 98) (List.replicate 9 2) .insert,
    .store (List.replicate 9 98) (List.replicate 11 3) .replace,
    .delete (List.replicate 9 98),
    .store (List.replicate 10 99) (List.replicate 9 4) .insert,
    .store (List.replicate 10 99) (List.replicate 10 5) .replace,
    .fetch (List.replicate 10 99)]

theorem outgrown_inRange : AllMeet DbCall.InRange outgrown Db.fresh := by decide +kernel

/-- Up to there the file is a map. -/
theorem store_is_map_outgrown :
    (AllMeet DbCall.InRange (outgrown.take 6) Db.fresh ∧
      AllMeet DbCall.Fits (outgrown.take 6) Db.fresh) ∧
    ∃ db, runCalls (outgrown.take 6) Db.fresh =
        some ([.code 0, .code 0, .code 0, .code 0, .code 0, .code 0], db) ∧
      dbFetch db (List.replicate 10 99) = some (some (List.replicate 9 4)) := by
  have within : AllMeet DbCall.InRange (outgrown.take 6) Db.fresh := outgrown_inRange.take 6
  have fits : AllMeet DbCall.Fits (outgrown.take 6) Db.fresh := by decide +kernel
  obtain ⟨db, ran, found⟩ := store_is_map (outgrown.take 6) within fits
  exact ⟨⟨within, fits⟩, db, ran, found (List.replicate 10 99)⟩

theorem store_is_not_map : ¬ ∀ calls : List DbCall, AllMeet DbCall.InRange calls Db.fresh →
    ∃ db, runCalls calls Db.fresh = some ((mapCalls calls fun _ => none).1, db) ∧
      ∀ key, dbFetch db key = some ((mapCalls calls fun _ => none).2 key) := by
  intro claim
  obtain ⟨db, ran, _⟩ := claim outgrown outgrown_inRange
  have stale : (runCalls outgrown Db.fresh).map Prod.fst ≠
      some (mapCalls outgrown fun _ => none).1 := by decide +kernel
  apply stale
  rw [ran]
  rfl

end BloomServer
