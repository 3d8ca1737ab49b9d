import BloomServer.DbMap

/-! A record is put into a file: replaced, or inserted where there is none. -/
namespace BloomServer

/-- `DB_REPLACE`, and `DB_INSERT` of a key that has no record. -/
def dbPut (db : Db) (key data : List UInt8) : Option (ℤ × Db) := do
  let (ret, db) ← dbStore db key data .replace
  if ret = -1 then dbStore db key data .insert else return (ret, db)

/-- A record that cannot be saved any more is deleted, too. -/
def dbPutHinted (db : Db) (key data : List UInt8) : Option (ℤ × Db) := do
  let (ret, db) ← dbStore db key data .replace
  if ret = -1 then dbStore db key data .insert
  else if ret = 2 then
    let (_, db) ← dbDelete db key
    return (2, db)
  else return (ret, db)

/-- What a file maps each key to. -/
def Db.map (db : Db) : KeyMap := fun key => (dbFetch db key).join

/-- There is a place for the record: its own, a free one, or room at the end. -/
def hasPlace (db : Db) (key data : List UInt8) : Bool :=
  (inPlace db key data).isSome || (freeFor db key data).isSome ||
    decide (dbIsEnoughFileSpace db key.length data.length = 0)

/-- The index record that a store writes fits. -/
def WriteFits (db : Db) (key data : List UInt8) (flag : DbFlag) : Prop :=
  StoreShort db key data flag ∧ (flag = .replace → RewriteFits db key data) ∧
    (needsPlace db key data flag = true → db.idxLen ≤ ptrMax ∨ ReuseFits db key data)

instance (db : Db) (key data : List UInt8) (flag : DbFlag) : Decidable (WriteFits db key data flag) :=
  inferInstanceAs (Decidable (_ ∧ (_ → _) ∧ (_ → _)))

/-- If there is a place for it. -/
def PutFits (db : Db) (key data : List UInt8) : Prop :=
  data.length ≤ datlenMax → hasPlace db key data = true →
    ∀ flag ∈ [DbFlag.replace, .insert], WriteFits db key data flag

instance (db : Db) (key data : List UInt8) : Decidable (PutFits db key data) :=
  inferInstanceAs (Decidable (_ → _ → _))

theorem hasPlace_eq_false {db : Db} {key data : List UInt8} : hasPlace db key data = false ↔
    inPlace db key data = none ∧ freeFor db key data = none ∧
      dbIsEnoughFileSpace db key.length data.length ≠ 0 := by
  unfold hasPlace
  simp only [Bool.or_eq_false_iff, Option.isSome_eq_false_iff, Option.isNone_iff_eq_none,
    decide_eq_false_iff_not, and_assoc, ne_eq]

theorem inPlace_of_needsPlace {db : Db} {key data : List UInt8} {flag : DbFlag}
    (place : needsPlace db key data flag = true) : inPlace db key data = none := by
  unfold needsPlace at place
  unfold inPlace
  cases found : dbFind db key with
  | none => rfl
  | some p =>
      obtain ⟨held, d⟩ := p
      rw [found, Option.any_some] at place
      rw [Option.bind_some]
      apply if_neg
      intro fit
      rw [if_pos fit.1, decide_eq_true_eq] at place
      exact Nat.not_le.mpr place.2 fit.2

theorem inPlace_eq_of_found {db : Db} {key data : List UInt8} {d : Dbd}
    (found : dbFind db key = some (true, d)) (fit : data.length ≤ d.datlen) :
    inPlace db key data = some d := by
  rw [inPlace, found]
  exact if_pos ⟨rfl, fit⟩

/-- There is neither a free record for the data nor room at the end. -/
theorem Sound.storeEnd_full {db : Db} {L : Layout} {chain : ℕ → List Entry} {key data : List UInt8}
    (s : Sound db L chain) (d : Dbd)
    (free : freeFor db key data = none)
    (space : dbIsEnoughFileSpace db key.length data.length ≠ 0) :
    dbStoreEnd db d key data = some (2, db) := by
  unfold dbStoreEnd
  cases s.findfree d key data with
  | missing missing result =>
      simp only [result, s.laid.readptr (Or.inl (head_dbChainOff key)), Option.bind_eq_bind,
        Option.bind_some]
      exact if_pos space
  | taken l₁ e l₂ before b db' split pred suits item result sound stays idxLen dat =>
      rw [free] at item
      cases item

namespace Refines

variable {db : Db} {m : KeyMap} {key data : List UInt8} {flag : DbFlag}

theorem map_eq (h : Refines db m) : db.map = m := by
  funext key
  rw [Db.map, h.fetch key]
  rfl

theorem find_absent (h : Refines db m) (absent : m key = none) :
    ∃ L chain b, Sound db L chain ∧ (∀ key, contents chain key = (m key).toList) ∧
      dbFind db key = some (false, { Dbd.alloc with chainoff := dbChainOff key, ptroff := b }) := by
  obtain ⟨L, chain, sound, same⟩ := h
  cases sound.find key with
  | absent b other result => exact ⟨L, chain, b, sound, same, result⟩
  | found l₁ e l₂ before a split named other pred result =>
      have held := same key
      rw [contents_split split named other, absent] at held
      cases held

theorem missing (h : Refines db m) (absent : m key = none) (limit : data.length ≤ datlenMax) :
    dbStore db key data .replace = some (-1, db) := by
  obtain ⟨L, chain, b, sound, same, result⟩ := h.find_absent absent
  rw [dbStore, if_neg (Nat.not_lt.mpr limit), dbStoreBegin, result]
  rfl

theorem unfound (h : Refines db m) (absent : m key = none) : dbDelete db key = some (-1, db) := by
  obtain ⟨L, chain, b, sound, same, result⟩ := h.find_absent absent
  rw [dbDelete, result]
  rfl

theorem refused (h : Refines db m) (absent : m key = none) (limit : data.length ≤ datlenMax)
    (full : hasPlace db key data = false) : dbStore db key data .insert = some (2, db) := by
  obtain ⟨L, chain, b, sound, same, result⟩ := h.find_absent absent
  obtain ⟨_, free, space⟩ := hasPlace_eq_false.mp full
  rw [dbStore, if_neg (Nat.not_lt.mpr limit), sound.storeBegin_insert rfl result,
    sound.storeEnd_full _ free space]
  rfl

theorem erase (h : Refines db m) (key : List UInt8) :
    ∃ db', dbDelete db key = some (if (m key).isSome then 0 else -1, db') ∧
      Refines db' (Function.update m key none) := by
  obtain ⟨L, chain, sound, same⟩ := h
  obtain ⟨db', L', chain', deleted, sound', holds, _⟩ := sound.delete key
  refine ⟨db', ?_, L', chain', sound', refines_drop same holds⟩
  rw [deleted, same key]
  cases m key <;> rfl

/-- A record that has become too long for every place is deleted. -/
theorem dropped (h : Refines db m) (held : m key ≠ none) (limit : data.length ≤ datlenMax)
    (full : hasPlace db key data = false) :
    ∃ db', dbStore db key data .replace = some (2, db') ∧
      Refines db' (Function.update m key none) ∧ hasPlace db' key data = false := by
  obtain ⟨L, chain, sound, same⟩ := h
  obtain ⟨inPlace, free, space⟩ := hasPlace_eq_false.mp full
  cases sound.find key with
  | absent b other result =>
      have none := contents_nil other
      rw [same key] at none
      exact absurd (Option.toList_eq_nil_iff.mp none) held
  | found l₁ e l₂ before a split named other pred result =>
      have grows : e.record.datlen < data.length := by
        by_contra fit
        rw [inPlace_eq_of_found result (Nat.le_of_not_lt fit)] at inPlace
        cases inPlace
      obtain ⟨db', L', chain', deleted, sound', holds, _, list, idxLen, datLen⟩ :=
        sound.deleteFound split named other pred result
      have grown : db'.freeList =
          ⟨e.offset, e.record.datlen, e.record.idxlenA⟩ :: db.freeList := by
        rw [sound'.freeList, list, List.map_cons, ← sound.freeList]
        rfl
      have free' : freeFor db' key data = none := (Sound.freeFor_deleted grown grows).trans free
      have space' : dbIsEnoughFileSpace db' key.length data.length ≠ 0 := by
        unfold dbIsEnoughFileSpace at space ⊢
        rwa [idxLen, datLen]
      have refines' : Refines db' (Function.update m key Option.none) :=
        ⟨L', chain', sound', refines_drop same holds⟩
      refine ⟨db', ?_, refines', hasPlace_eq_false.mpr ⟨?_, free', space'⟩⟩
      · have start : dbStoreBegin db key data .replace =
            some (.longer (Sound.foundDbd key a (L.ptr e.offset) e), db) := by
          unfold dbStoreBegin
          rw [result]
          exact if_pos grows
        rw [dbStore, if_neg (Nat.not_lt.mpr limit), start]
        simp only [deleted, Option.bind_eq_bind, Option.bind_some]
        exact sound'.storeEnd_full _ free' space'
      · have absent : Function.update m key Option.none key = Option.none := Function.update_self ..
        obtain ⟨_, _, b, _, _, unfound⟩ := refines'.find_absent absent
        rw [BloomServer.inPlace, unfound]
        rfl

/-- A record that there is a place for is stored. -/
theorem stored (h : Refines db m) (noNul : 0 ∉ key) (limit : data.length ≤ datlenMax)
    (place : hasPlace db key data = true) (fits : WriteFits db key data flag)
    (allowed : flag = .insert ↔ m key = none) :
    ∃ db', dbStore db key data flag = some (0, db') ∧
      Refines db' (Function.update m key (some data)) := by
  obtain ⟨L, chain, sound, same⟩ := h
  have absent : contents chain key = [] ↔ m key = none := by
    rw [same key, Option.toList_eq_nil_iff]
  have out := sound.store noNul flag fits.1 fits.2.1
  generalize dbStore db key data flag = result at out
  cases out with
  | tooLong long => exact absurd limit (Nat.not_le.mpr long)
  | missing replace none =>
      have insert := allowed.mpr (absent.mp none)
      rw [replace] at insert
      cases insert
  | present insert held => exact absurd (absent.mpr (allowed.mp insert)) held
  | full needs free space =>
      rw [hasPlace_eq_false.mpr ⟨inPlace_of_needsPlace needs, free, space⟩] at place
      cases place
  | beyond needs far outgrown =>
      rcases fits.2.2 needs with near | reuse
      · exact absurd near (Nat.not_le.mpr far)
      · exact absurd reuse outgrown
  | stored _ db' L' chain' sound' holds _ =>
      exact ⟨db', rfl, L', chain', sound', refines_put same holds⟩

end Refines

/-- How a record is put into a file. -/
inductive Put (db : Db) (m : KeyMap) (key data : List UInt8) : Option (ℤ × Db) → Prop
  | tooLong (long : datlenMax < data.length) : Put db m key data (some (3, db))
  | full (limit : data.length ≤ datlenMax) (full : hasPlace db key data = false) (db' : Db)
      (refines : Refines db' (Function.update m key none))
      (again : hasPlace db' key data = false) : Put db m key data (some (2, db'))
  | placed (limit : data.length ≤ datlenMax) (place : hasPlace db key data = true) (db' : Db)
      (refines : Refines db' (Function.update m key (some data))) :
      Put db m key data (some (0, db'))

namespace Refines

variable {db : Db} {m : KeyMap} {key data : List UInt8}

theorem put (h : Refines db m) (noNul : 0 ∉ key) (fits : PutFits db key data) :
    Put db m key data (dbPut db key data) := by
  by_cases long : datlenMax < data.length
  · have answer : dbPut db key data = some (3, db) := by
      rw [dbPut, dbStore, if_pos long]
      rfl
    rw [answer]
    exact .tooLong long
  · have limit := Nat.le_of_not_lt long
    cases place : hasPlace db key data with
    | false =>
        by_cases absent : m key = none
        · have answer : dbPut db key data = some (2, db) := by
            unfold dbPut
            simp only [h.missing absent limit, Option.bind_eq_bind, Option.bind_some]
            exact h.refused absent limit place
          have same : Function.update m key none = m := by rw [← absent, Function.update_eq_self]
          rw [answer]
          exact .full limit place db (same.symm ▸ h) place
        · obtain ⟨db', dropped, refines, again⟩ := h.dropped absent limit place
          have answer : dbPut db key data = some (2, db') := by
            unfold dbPut
            rw [dropped]
            rfl
          rw [answer]
          exact .full limit place db' refines again
    | true =>
        have fit := fits limit place
        by_cases absent : m key = none
        · obtain ⟨db', stored, refines⟩ :=
            h.stored noNul limit place (fit .insert (by decide)) (iff_of_true rfl absent)
          have answer : dbPut db key data = some (0, db') := by
            unfold dbPut
            simp only [h.missing absent limit, Option.bind_eq_bind, Option.bind_some]
            exact stored
          rw [answer]
          exact .placed limit place db' refines
        · obtain ⟨db', stored, refines⟩ :=
            h.stored noNul limit place (fit .replace (by decide)) (iff_of_false (by decide) absent)
          have answer : dbPut db key data = some (0, db') := by
            unfold dbPut
            rw [stored]
            rfl
          rw [answer]
          exact .placed limit place db' refines

/-- `db_store` has already deleted a record that it cannot save. -/
theorem putHinted (h : Refines db m) (noNul : 0 ∉ key) (fits : PutFits db key data) :
    dbPutHinted db key data = dbPut db key data := by
  by_cases deleted : ∃ db', dbStore db key data .replace = some (2, db')
  · obtain ⟨db', dropped⟩ := deleted
    have answer : dbPut db key data = some (2, db') := by
      unfold dbPut
      rw [dropped]
      rfl
    have out := h.put noNul fits
    rw [answer] at out
    cases out with
    | full limit full _ refines again =>
        have absent : Function.update m key none key = none := Function.update_self ..
        unfold dbPutHinted
        rw [dropped, answer]
        simp only [refines.unfound absent, Option.bind_eq_bind, Option.bind_some]
        rfl
  · unfold dbPutHinted dbPut
    cases stored : dbStore db key data .replace with
    | none => rfl
    | some p =>
        obtain ⟨ret, db'⟩ := p
        have kept : ret ≠ 2 := by
          intro same
          subst same
          exact deleted ⟨db', stored⟩
        simp only [Option.bind_eq_bind, Option.bind_some, if_neg kept]

end Refines
end BloomServer
