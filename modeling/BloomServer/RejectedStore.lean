import BloomServer.DbStorage

/-! Stores whose index record is too long: `_db_writeidx` refuses it, and `db_store` does not look at
what it returns. -/
namespace BloomServer
open LinkedChain DecimalText

/-- The length of the text that `_db_writeidx` prints for a record and its data. -/
def dbWriteLen (db : Db) (dbd : Dbd) (key data : List UInt8) (append : Bool) (ptrval : ℕ) :
    Option ℕ :=
  let dbd := (dbWritedatBin db dbd data dbd.datoff append).1
  if ptrMax < ptrval then none else some ((dbd.text key).length + 1)

/-- The length at a new place; a file that is full is left before. -/
def dbStoreAtLen (db : Db) (dbd : Dbd) (key data : List UInt8) (reused : Bool) (ptrval : ℕ) :
    Option ℕ :=
  if reused then dbWriteLen db dbd key data false ptrval
  else if dbIsEnoughFileSpace db key.length data.length ≠ 0 then none
  else dbWriteLen db { dbd with idxlenU := key.length } key data true ptrval

/-- The length of the index record that `db_store` has written, if it comes to that. -/
def dbStoreLen (db : Db) (key data : List UInt8) (flag : DbFlag) : Option ℕ :=
  if datlenMax < data.length then none
  else do
    let (found, dbd) ← dbFind db key
    if ¬ found then
      if flag = .replace then none
      else
        let ptrval ← dbReadptr db.idx dbd.chainoff
        let (reused, dbd, db) ← dbFindfreeCache db dbd key.length data.length
        dbStoreAtLen db dbd key data reused ptrval
    else if flag = .insert then none
    else if dbd.datlen < data.length then
      let (_, db) ← dbDelete db key
      let (reused, dbd, db) ← dbFindfreeCache db dbd key.length data.length
      let ptrval ← dbReadptr db.idx (dbChainOff key)
      dbStoreAtLen db dbd key data reused ptrval
    else dbWriteLen db dbd key data false dbd.ptrval

/-- The index record is longer than it may be. -/
def Refuses (db : Db) (key data : List UInt8) (flag : DbFlag) : Prop :=
  ∃ len ∈ dbStoreLen db key data flag, idxlenMax < len

instance (db : Db) (key data : List UInt8) (flag : DbFlag) : Decidable (Refuses db key data flag) :=
  inferInstanceAs (Decidable (∃ len ∈ dbStoreLen db key data flag, _))

/-- An error is reported, the free list is as before, and so is what is found for the other keys of
the chain. -/
def LeavesIntact (db : Db) (key data : List UInt8) (flag : DbFlag) : Prop :=
  ∃ rc db', dbStore db key data flag = some (rc, db') ∧ rc ≠ 0 ∧ db'.freeList = db.freeList ∧
    ∀ other, other ≠ key → dbChainOff other = dbChainOff key → dbFetch db' other = dbFetch db other

/-! ### What is returned -/

section Returned

variable {db : Db} {dbd : Dbd} {key data : List UInt8} {flag : DbFlag} {append reused : Bool}
  {ptrval : ℕ} {c : ℕ}

theorem storeAt_returns (printed : dbStoreAtLen db dbd key data reused ptrval = some c) :
    ∀ out ∈ dbStoreAt db dbd key data reused ptrval, out.1 = 0 := by
  have front {db : Db} {dbd : Dbd} {append : Bool} :
      ∀ out ∈ dbWriteFront db dbd key data append ptrval, out.1 = 0 := by
    intro out wrote
    obtain ⟨_, _, linked⟩ := Option.bind_eq_some_iff.mp wrote
    obtain ⟨_, _, same⟩ := Option.bind_eq_some_iff.mp linked
    cases same
    rfl
  unfold dbStoreAtLen at printed
  unfold dbStoreAt
  split_ifs at printed ⊢ with reuse space
  · exact front
  · exact front

theorem storeEnd_returns
    (printed : ((dbFindfreeCache db dbd key.length data.length).bind fun p =>
      (dbReadptr p.2.2.idx (dbChainOff key)).bind (dbStoreAtLen p.2.2 p.2.1 key data p.1)) = some c) :
    ∀ out ∈ dbStoreEnd db dbd key data, out.1 = 0 := by
  intro out stored
  obtain ⟨place, free, printed⟩ := Option.bind_eq_some_iff.mp printed
  obtain ⟨p, pointer, printed⟩ := Option.bind_eq_some_iff.mp printed
  obtain ⟨place', free', stored⟩ := Option.bind_eq_some_iff.mp stored
  cases free.symm.trans free'
  obtain ⟨p', pointer', stored⟩ := Option.bind_eq_some_iff.mp stored
  cases pointer.symm.trans pointer'
  exact storeAt_returns printed _ stored

theorem storeLen_limit (printed : dbStoreLen db key data flag = some c) :
    ¬ datlenMax < data.length := by
  intro long
  rw [dbStoreLen, if_pos long] at printed
  cases printed

/-- Whatever `_db_writeidx` returns, `db_store` returns 0. -/
theorem store_returns (printed : dbStoreLen db key data flag = some c) :
    ∀ out ∈ dbStore db key data flag, out.1 = 0 := by
  intro out stored
  have limit := storeLen_limit printed
  rw [dbStoreLen, if_neg limit] at printed
  change dbStore db key data flag = some out at stored
  rw [dbStore, if_neg limit] at stored
  obtain ⟨⟨found, dbd⟩, find, printed⟩ := Option.bind_eq_some_iff.mp printed
  obtain ⟨⟨begun, db₁⟩, begins, stored⟩ := Option.bind_eq_some_iff.mp stored
  unfold dbStoreBegin at begins
  rw [find] at begins
  change (if ¬ found = true then _ else _) = _ at begins
  dsimp only at printed
  cases found with
  | false =>
      rw [if_pos (by decide)] at printed begins
      cases flag with
      | replace => cases printed
      | insert =>
          rw [if_neg (by decide)] at printed begins
          obtain ⟨p, pointer, printed⟩ := Option.bind_eq_some_iff.mp printed
          obtain ⟨⟨reused, dbd', db'⟩, free, printed⟩ := Option.bind_eq_some_iff.mp printed
          rw [pointer] at begins
          change (dbFindfreeCache db dbd key.length data.length).bind _ = _ at begins
          rw [free] at begins
          change (dbStoreAt db' dbd' key data reused p).bind _ = _ at begins
          obtain ⟨placed, wrote, same⟩ := Option.bind_eq_some_iff.mp begins
          cases same
          cases stored
          exact storeAt_returns printed _ wrote
  | true =>
      rw [if_neg (by decide)] at printed begins
      cases flag with
      | insert => cases printed
      | replace =>
          rw [if_neg (by decide)] at printed begins
          by_cases grows : dbd.datlen < data.length
          · rw [if_pos grows] at printed begins
            cases begins
            obtain ⟨deleted, gone, printed⟩ := Option.bind_eq_some_iff.mp printed
            change (dbDelete db key).bind _ = _ at stored
            rw [gone] at stored
            exact storeEnd_returns printed out stored
          · rw [if_neg grows] at begins
            obtain ⟨_, _, same⟩ := Option.bind_eq_some_iff.mp begins
            cases same
            cases stored
            rfl

/-- Where the index record is refused, nothing is written and the record is left as it was. A text
that does not even fit its buffer is not refused, it overflows it. -/
theorem writeidx_refused {offset : ℕ} {rc : ℤ} {d : Dbd} {db' : Db} (small : ptrval ≤ ptrMax)
    (long : idxlenMax < (dbd.text key).length + 1)
    (wrote : dbWriteidx db dbd key offset append ptrval = some (rc, d, db')) :
    rc = -1 ∧ d = { dbd with ptrval } ∧ db' = db := by
  have text : ({ dbd with ptrval } : Dbd).text key = dbd.text key := rfl
  unfold dbWriteidx at wrote
  dsimp only at wrote
  rw [if_neg (Nat.not_lt.mpr small), text] at wrote
  by_cases overflows : idxlenMax + 1 < (dbd.text key).length + 1
  · rw [if_pos overflows] at wrote
    cases wrote
  · rw [if_neg overflows, if_pos (Or.inr long)] at wrote
    cases wrote
    exact ⟨rfl, rfl, rfl⟩

/-- The head of the chain is then set to the offset that the record had before. -/
theorem writeFront_refused {len : ℕ} {out : ℤ × Db}
    (printed : dbWriteLen db dbd key data true ptrval = some len) (long : idxlenMax < len)
    (small : dbd.idxoff ≤ ptrMax) (wrote : dbWriteFront db dbd key data true ptrval = some out) :
    out = (0, { db with
      idx := db.idx.pwrite (ptrText dbd.idxoff) dbd.chainoff
      dat := db.dat.pwrite data db.datLen
      datLen := db.datLen + data.length }) := by
  have near : ptrval ≤ ptrMax := by
    by_contra far
    have none : dbWriteLen db dbd key data true ptrval = none := if_pos (Nat.lt_of_not_le far)
    rw [none] at printed
    cases printed
  have length : dbWriteLen db dbd key data true ptrval =
      some (((dbWritedatBin db dbd data dbd.datoff true).1.text key).length + 1) :=
    if_neg (Nat.not_lt.mpr near)
  rw [length] at printed
  cases printed
  obtain ⟨⟨d, db'⟩, written, linked⟩ := Option.bind_eq_some_iff.mp wrote
  obtain ⟨⟨rc, d', db''⟩, refused, same⟩ := Option.bind_eq_some_iff.mp written
  cases same
  obtain ⟨_, rfl, rfl⟩ := writeidx_refused near long refused
  change (dbWriteptr _ dbd.chainoff dbd.idxoff).bind _ = _ at linked
  rw [dbWriteptr_eq small] at linked
  cases linked
  rfl

end Returned

/-! ### What is lost -/

namespace Sound

variable {db : Db} {L : Layout} {chain : ℕ → List Entry} {key data : List UInt8}

/-- Data is appended, and the chain of a key is cut off at its head. -/
theorem cut (s : Sound db L chain) (key data : List UInt8) :
    Sound { db with
      idx := db.idx.pwrite (ptrText 0) (dbChainOff key)
      dat := db.dat.pwrite data db.datLen
      datLen := db.datLen + data.length } (L.setPtr (dbChainOff key) 0)
      (Function.update chain (dbChainOff key) []) := by
  have head := head_dbChainOff key
  have cell : L.Cell (dbChainOff key) := Or.inl head
  have clear : ∀ c, Head c → ∀ e ∈ chain c, db.datLen + data.length ≤ e.record.datoff ∨
      e.record.datoff + e.record.datlen ≤ db.datLen := by
    intro c head e mem
    exact Or.inr ((s.threads.held c head e mem).area.trans (Nat.le_of_eq s.datLen.symm))
  have kept := s.kept (Nat.le_refl data.length) clear
  refine ⟨s.laid.setPtr cell (Nat.zero_le _), ?_, ?_, ?_, ?_⟩
  · apply s.threads.replace
    · apply LinkedChain.Chain.cons (q := none)
      · rw [next_setPtr_self cell]
        rfl
      · exact .nil
    · intro e mem
      cases mem
    · intro c head' other
      constructor
      · apply (s.threads.linked c head').congr
        intro q mem
        apply next_setPtr_ne
        rintro rfl
        exact s.threads.runs_apart s.behind head head' other.symm (Or.inl rfl)
          (Threads.mem_cells.mp mem)
      · intro e mem
        have held := s.threads.held c head' e mem
        refine ⟨held.record, held.belongs, held.area.trans ByteFile.size_le_pwrite, held.used, ?_⟩
        exact fun live => kept c head' live e mem
    · intro c _ _ e mem
      cases mem
    · intro e mem
      cases mem
  · exact s.idxLen.trans (s.laid.size_setPtr cell (Nat.zero_le _)).symm
  · change db.datLen + data.length = (db.dat.pwrite data db.datLen).size
    rw [s.datLen, ByteFile.size_pwrite_end]
  · rw [Function.update_of_ne (dbChainOff_ne_freeOff key).symm]
    exact s.freeList

theorem refused_append (s : Sound db L chain) {dbd : Dbd} {out : ℤ × Db}
    (absent : dbFind db key = some (false, dbd)) (chainoff : dbd.chainoff = dbChainOff key)
    (idxoff : dbd.idxoff = 0)
    (free : dbFindfreeCache db dbd key.length data.length = some (false, dbd, db))
    (refuses : Refuses db key data .insert) (stored : dbStore db key data .insert = some out) :
    out = (0, { db with
      idx := db.idx.pwrite (ptrText 0) (dbChainOff key)
      dat := db.dat.pwrite data db.datLen
      datLen := db.datLen + data.length }) := by
  have pointer := s.laid.readptr (Or.inl (head_dbChainOff key))
  obtain ⟨len, printed, long⟩ := refuses
  have limit := storeLen_limit printed
  have placed : dbStoreAtLen db dbd key data false (L.ptr (dbChainOff key)) = some len := by
    change dbStoreLen db key data .insert = some len at printed
    rw [dbStoreLen, if_neg limit] at printed
    simp only [absent, chainoff, pointer, free, Option.bind_eq_bind, Option.bind_some] at printed
    exact printed
  have space : dbIsEnoughFileSpace db key.length data.length = 0 := by
    by_contra full
    rw [dbStoreAtLen, if_neg (by decide), if_pos full] at placed
    cases placed
  rw [dbStoreAtLen, if_neg (by decide), if_neg (not_not.mpr space)] at placed
  have ends : dbStoreEnd db dbd key data = dbWriteFront db { dbd with idxlenU := key.length } key data
      true (L.ptr (dbChainOff key)) := by
    unfold dbStoreEnd dbStoreAt
    simp only [free, pointer, Option.bind_eq_bind, Option.bind_some]
    rw [if_neg (by decide), if_neg (not_not.mpr space)]
  rw [dbStore, if_neg limit, s.storeBegin_insert chainoff absent, ends] at stored
  obtain ⟨⟨begun, db'⟩, begins, stored⟩ := Option.bind_eq_some_iff.mp stored
  obtain ⟨front, wrote, same⟩ := Option.map_eq_some_iff.mp begins
  cases same
  cases stored
  rw [writeFront_refused placed long (idxoff ▸ Nat.zero_le ptrMax) wrote]
  dsimp only
  rw [idxoff, chainoff]

/-- The length that the index record of a new key has, if there is no free record for it. -/
theorem storeLen_new (s : Sound db L chain) (absent : dbFetch db key = some none)
    (missing : freeFor db key data = none) (short : data.length ≤ datlenMax)
    (space : dbIsEnoughFileSpace db key.length data.length = 0) :
    dbStoreLen db key data .insert = some (key.length + 7 + (decimal db.datLen).length +
      (decimal key.length).length + 2 * (decimal data.length).length) := by
  cases s.find key with
  | found l₁ e l₂ before b split same other pred result =>
      rw [s.fetch key, contents_split split same other] at absent
      cases absent
  | absent b other result =>
      cases s.findfree { Dbd.alloc with chainoff := dbChainOff key, ptroff := b } key data with
      | taken _ e _ _ _ _ _ _ _ item =>
          rw [missing] at item
          cases item
      | missing _ free =>
          have pointer := s.laid.readptr (Or.inl (head_dbChainOff key))
          have near := Nat.not_lt.mpr (s.laid.small (dbChainOff key))
          rw [dbStoreLen, if_neg (Nat.not_lt.mpr short)]
          simp only [result, pointer, free, Option.bind_eq_bind, Option.bind_some]
          change dbStoreAtLen db _ key data false (L.ptr (dbChainOff key)) = _
          rw [dbStoreAtLen, if_neg (by decide), if_neg (not_not.mpr space), dbWriteLen, if_neg near]
          change some ((indexText 0 key db.datLen data.length data.length 0).length + 1) = _
          rw [length_indexText, Nat.zero_max, show decimal 0 = [48] from rfl]
          refine congrArg some ?_
          rw [List.length_singleton]
          omega

/-- A new key that finds no free record takes its whole chain with it. -/
theorem refused_insert (s : Sound db L chain) (missing : freeFor db key data = none)
    (refuses : Refuses db key data .insert) {rc : ℤ} {db' : Db}
    (stored : dbStore db key data .insert = some (rc, db')) :
    db'.freeList = db.freeList ∧ ∀ other, dbFetch db' other =
      if dbChainOff other = dbChainOff key then some none else dbFetch db other := by
  cases s.find key with
  | found _ _ _ _ _ _ _ _ _ result =>
      obtain ⟨len, printed, _⟩ := refuses
      change dbStoreLen db key data .insert = some len at printed
      rw [dbStoreLen, if_neg (storeLen_limit printed), result] at printed
      cases printed
  | absent b other result =>
      cases s.findfree { Dbd.alloc with chainoff := dbChainOff key, ptroff := b } key data with
      | taken _ e _ _ _ _ _ _ _ item =>
          rw [missing] at item
          cases item
      | missing _ free =>
          cases s.refused_append result rfl rfl free refuses stored
          refine ⟨rfl, fun other => ?_⟩
          rw [(s.cut key data).fetch other, s.fetch other]
          unfold contents
          by_cases same : dbChainOff other = dbChainOff key
          · rw [if_pos same, same, Function.update_self]
            rfl
          · rw [if_neg same, Function.update_of_ne same]

end Sound

/-- A store whose index record is refused reports success. -/
theorem refused_store_not_intact (db : Db) (key data : List UInt8) (flag : DbFlag)
    (refuses : Refuses db key data flag) : ¬ LeavesIntact db key data flag := by
  rintro ⟨rc, db', stored, error, _⟩
  obtain ⟨len, printed, _⟩ := refuses
  exact error (store_returns printed (rc, db') stored)

/-- A key that is one byte too long for its index record; it shares the chain of `"ut"`. -/
def longKey : List UInt8 := List.replicate 4082 80 ++ [55]

theorem length_longKey : longKey.length = 4083 := by
  rw [longKey, List.length_append, List.length_replicate]
  rfl

theorem refuses_longKey {db : Db} {L : Layout} {chain : ℕ → List Entry} (s : Sound db L chain)
    (absent : dbFetch db longKey = some none) (free : db.freeList = [])
    (space : dbIsEnoughFileSpace db 4083 1 = 0) : Refuses db longKey [2] .insert := by
  have missing : freeFor db longKey [2] = none := by
    rw [freeFor, free]
    rfl
  refine ⟨_, s.storeLen_new absent missing (by decide) (length_longKey ▸ space), ?_⟩
  have digit := length_decimal_pos db.datLen
  have digits : (decimal 4083).length = 4 := by decide
  have digit' : (decimal [(2 : UInt8)].length).length = 1 := by decide
  have limit : idxlenMax = 4096 := rfl
  rw [length_longKey, digits, digit', limit]
  omega

theorem refused_store_not_intact_fresh :
    Refuses Db.fresh longKey [2] .insert ∧ ¬ LeavesIntact Db.fresh longKey [2] .insert := by
  have refuses : Refuses Db.fresh longKey [2] .insert :=
    refuses_longKey Sound.fresh (Sound.fresh.fetch longKey) rfl (by decide +kernel)
  exact ⟨refuses, refused_store_not_intact Db.fresh longKey [2] .insert refuses⟩

/-- With a record on the chain. -/
theorem not_refused_store_intact : ¬ ∀ (calls : List DbCall) (answers : List DbAnswer) (db : Db)
    (key data : List UInt8) (flag : DbFlag), AllMeet DbCall.InRange calls Db.fresh →
      runCalls calls Db.fresh = some (answers, db) → (key ≠ [] ∧ 0 ∉ key) →
        Refuses db key data flag → LeavesIntact db key data flag := by
  intro claim
  have within : AllMeet DbCall.InRange [.store [117, 116] [1] .insert] Db.fresh := by
    decide +kernel
  have orderly : AllMeet DbCall.Orderly [.store [117, 116] [1] .insert] Db.fresh := by
    decide +kernel
  have facts : (runCalls [.store [117, 116] [1] .insert] Db.fresh).any
      fun out : List DbAnswer × Db => decide (out.2.freeList = [] ∧
        dbIsEnoughFileSpace out.2 4083 1 = 0 ∧ dbFetch out.2 [117, 116] = some (some [1]) ∧
        dbFetch out.2 longKey = some none) := by
    decide +kernel
  have chain : dbChainOff [117, 116] = dbChainOff longKey := by decide +kernel
  obtain ⟨⟨answers, db⟩, ran, facts⟩ := (Option.any_eq_true _ _).mp facts
  obtain ⟨free, space, there, absent⟩ := of_decide_eq_true facts
  obtain ⟨L, chains, sound, _⟩ := Sound.calls orderly ran
  have refuses := refuses_longKey sound absent free space
  have missing : freeFor db longKey [2] = none := by
    rw [freeFor, free]
    rfl
  obtain ⟨rc, db', stored, _, _, others⟩ := claim _ answers db longKey [2] .insert within ran
    (by decide +kernel) refuses
  have kept := others [117, 116] (by decide +kernel) chain
  have lost := (sound.refused_insert missing refuses stored).2 [117, 116]
  rw [if_pos chain, kept, there] at lost
  cases lost

end BloomServer
