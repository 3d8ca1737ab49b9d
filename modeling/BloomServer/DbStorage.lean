import BloomServer.DbMap

/-! The regions of both files: which records there are, which chain each is on, and that the free
list in memory is the one on disk. -/
namespace BloomServer
open LinkedChain

/-- Where the pointer that stands at an offset of a file leads. -/
def fileNext (f : ByteFile) (a : ℕ) : Option (Option ℕ) := (dbReadptr f a).map link

/-- The records that the chain at a pointer runs through. -/
def Walks (f : ByteFile) (c : ℕ) (offsets : List ℕ) : Prop :=
  Chain (fileNext f) (some c) (c :: offsets)

/-- The records of an index file from an offset on, one behind the other. -/
inductive IndexRecords (f : ByteFile) : ℕ → List (ℕ × Dbd) → Prop
  | nil : IndexRecords f f.size []
  | cons {offset : ℕ} {d : Dbd} {rest : List (ℕ × Dbd)} (read : dbReadidx f offset = some d)
      (behind : IndexRecords f (offset + (ptrSz + (idxlenSz + d.idxlen))) rest) :
      IndexRecords f offset ((offset, d) :: rest)

theorem IndexRecords.uncons {f : ByteFile} {offset : ℕ} {l : List (ℕ × Dbd)}
    (h : IndexRecords f offset l) : (offset = f.size ∧ l = []) ∨
      ∃ d rest, l = (offset, d) :: rest ∧ dbReadidx f offset = some d ∧
        IndexRecords f (offset + (ptrSz + (idxlenSz + d.idxlen))) rest := by
  cases h with
  | nil => exact Or.inl ⟨rfl, rfl⟩
  | cons read behind => exact Or.inr ⟨_, _, rfl, read, behind⟩

/-- Data areas that do not overlap. -/
def Dbd.Clear (d d' : Dbd) : Prop :=
  d.datoff + d.datlen ≤ d'.datoff ∨ d'.datoff + d'.datlen ≤ d.datoff

/-- What holds of each index record. -/
structure RecordSound (db : Db) (offset : ℕ) (d : Dbd) : Prop where
  chained : ∃! c, Head c ∧ ∃ offsets, Walks db.idx c offsets ∧ offset ∈ offsets
  area : d.datoff + d.datlen ≤ db.dat.size
  usedKey : d.idxlenU ≤ d.idxlenA
  usedData : d.datlenU ≤ d.datlen
  usedRecord : (d.text d.idxbuf).length + 1 ≤ d.idxlen

/-- The records of both files do not overlap, and the free list in memory mirrors the one on disk,
also after the file has been closed and opened again. -/
structure StorageSound (db : Db) : Prop where
  records : ∃ l, IndexRecords db.idx idxBase l ∧ (∀ p ∈ l, RecordSound db p.1 p.2) ∧
    l.Pairwise fun p q => p.2.Clear q.2
  freeChain : Walks db.idx freeOff (db.freeList.map Fsdbd.offset)
  freeLengths : ∀ item ∈ db.freeList, ∃ d, dbReadidx db.idx item.offset = some d ∧
    item.datlen = d.datlen ∧ item.idxlenA = d.idxlenA
  reopened : dbOpen db.idx db.dat = some db

namespace Sound

variable {db : Db} {L : Layout} {chain : ℕ → List Entry} {c i : ℕ} {e : Entry}

theorem fileNext_eq (s : Sound db L chain) {a : ℕ} (cell : L.Cell a) :
    fileNext db.idx a = L.next a := by
  rw [fileNext, s.laid.readptr cell, next_cell cell]
  rfl

theorem walks (s : Sound db L chain) (head : Head c) :
    Walks db.idx c ((chain c).map Entry.offset) := by
  apply (s.threads.linked c head).congr
  intro a mem
  exact s.fileNext_eq (s.threads.runs_cell head (Threads.mem_cells.mp mem))

theorem walks_eq (s : Sound db L chain) (head : Head c) {offsets : List ℕ}
    (walks : Walks db.idx c offsets) : offsets = (chain c).map Entry.offset :=
  (List.cons.inj (walks.unique (s.walks head))).2

/-- A record is on one chain. -/
theorem chained (s : Sound db L chain) (head : Head c) (mem : e ∈ chain c) :
    ∃! c, Head c ∧ ∃ offsets, Walks db.idx c offsets ∧ e.offset ∈ offsets := by
  refine ⟨c, ⟨head, _, s.walks head, List.mem_map_of_mem mem⟩, ?_⟩
  intro c' there
  obtain ⟨head', offsets, walks, later⟩ := there
  rw [s.walks_eq head' walks] at later
  obtain ⟨e', mem', same⟩ := List.mem_map.mp later
  by_contra differ
  exact (s.threads.apart c' c head' head differ e' mem' e mem).1 same

/-- The records from one on, each on its chain. -/
def Listed (L : Layout) (i : ℕ) (l : List (ℕ × Dbd)) : Prop :=
  l.Pairwise (fun p q => p.1 < q.1) ∧
    ∀ p ∈ l, i ≤ p.1 ∧ ∃ r, L.record p.1 = some r ∧ p.2 = r.dbd p.1 (L.ptr p.1)

/-- The places where a record begins or the file ends. -/
def Border (L : Layout) (i : ℕ) : Prop :=
  i = idxBase ∨ ∃ offset r, L.record offset = some r ∧ i = offset + r.extent

/-- Between two borders there are whole records. -/
theorem border_record (s : Sound db L chain) (border : Border L i) (low : idxBase ≤ i)
    (high : i < db.idx.size) : ∃ r, L.record i = some r := by
  obtain ⟨offset, r, held, before, after⟩ := s.laid.tiled i low high
  have here : offset = i := by
    rcases border with first | ⟨offset', r', held', last⟩
    · have behind := s.laid.behind offset r held
      omega
    · rcases Nat.lt_trichotomy offset offset' with less | same | more
      · have apart := s.laid.apart offset r offset' r' held held' less
        have size := LaidOut.extent_pos r'
        omega
      · subst same
        rw [held] at held'
        cases held'
        omega
      · have apart := s.laid.apart offset' r' offset r held' held more
        omega
  exact ⟨r, here ▸ held⟩

/-- The index records fill the file. -/
theorem records_from (s : Sound db L chain) {n : ℕ} (rest : db.idx.size - i = n)
    (border : Border L i) (low : idxBase ≤ i) (high : i ≤ db.idx.size) :
    ∃ l, IndexRecords db.idx i l ∧ Listed L i l := by
  induction n using Nat.strong_induction_on generalizing i with
  | h n ih =>
      by_cases last : i = db.idx.size
      · subst last
        refine ⟨[], .nil, List.Pairwise.nil, ?_⟩
        intro p mem
        cases mem
      · obtain ⟨r, held⟩ := s.border_record border low (Nat.lt_of_le_of_ne high last)
        have room := s.laid.extent_le held
        have size := LaidOut.extent_pos r
        obtain ⟨l, behind, sorted, listed⟩ := ih (db.idx.size - (i + r.extent)) (by omega) rfl
          (Or.inr ⟨i, r, held, rfl⟩) (by omega) room
        refine ⟨(i, r.dbd i (L.ptr i)) :: l, .cons (s.laid.readidx held) behind, ?_, ?_⟩
        · rw [List.pairwise_cons]
          refine ⟨fun p mem => ?_, sorted⟩
          have later := (listed p mem).1
          dsimp only
          omega
        · intro p mem
          rcases List.mem_cons.mp mem with rfl | later
          · exact ⟨Nat.le_refl _, r, held, rfl⟩
          · obtain ⟨above, there⟩ := listed p later
            exact ⟨by omega, there⟩

/-- The loop of `_db_retrieve_free_space` lists the rest of the free chain. -/
theorem retrieveLoop (s : Sound db L chain) {n p : ℕ} {l : List Entry}
    (sub : ∀ e ∈ l, e ∈ chain freeOff) (walk : Chain L.next (link p) (l.map Entry.offset))
    (fuel : l.length < n) : dbRetrieveLoop db.idx n p = some (l.map Entry.item) := by
  induction l generalizing n p with
  | nil =>
      obtain ⟨m, rfl⟩ := Nat.exists_eq_succ_of_ne_zero (Nat.ne_of_gt fuel)
      rw [dbRetrieveLoop, if_pos (eq_of_link_none walk.head_eq)]
      rfl
  | cons e l ih =>
      have mem := sub e List.mem_cons_self
      have here : p ≠ 0 ∧ p = e.offset := eq_of_link_some walk.head_eq
      obtain ⟨m, rfl⟩ := Nat.exists_eq_succ_of_ne_zero (Nat.ne_of_gt (Nat.zero_lt_of_lt fuel))
      have rest : Chain L.next (link (L.ptr e.offset)) (l.map Entry.offset) := by
        rw [link_of_ne here.1, here.2, List.map_cons] at walk
        obtain ⟨q, leads, rest⟩ := walk.pop
        rw [next_cell (cell_of_record (s.threads.held _ head_freeOff e mem).record)] at leads
        rw [Option.some.inj leads]
        exact rest
      have later := ih (n := m) (fun e mem => sub e (List.mem_cons_of_mem _ mem)) rest
        (by simpa using fuel)
      rw [dbRetrieveLoop, if_neg here.1, here.2, s.readidx head_freeOff mem]
      change (dbRetrieveLoop db.idx m (L.ptr e.offset)).bind _ = _
      rw [later]
      rfl

/-- Opening the files again gives back the store. -/
theorem reopened (s : Sound db L chain) : dbOpen db.idx db.dat = some db := by
  obtain ⟨q, leads, rest⟩ := (s.threads.linked _ head_freeOff).pop
  rw [next_cell (Or.inl head_freeOff)] at leads
  rw [← Option.some.inj leads] at rest
  have list : dbRetrieveFreeSpace db.idx = some db.freeList := by
    unfold dbRetrieveFreeSpace
    rw [s.laid.readptr (Or.inl head_freeOff), s.freeList]
    exact s.retrieveLoop (fun _ mem => mem) rest (Nat.lt_succ_of_le (s.length_le head_freeOff))
  unfold dbOpen
  rw [list, ← s.idxLen, ← s.datLen]
  rfl

theorem storage (s : Sound db L chain) (covered : Covered L chain) : StorageSound db where
  records := by
    obtain ⟨l, records, sorted, listed⟩ := s.records_from rfl (Or.inl rfl) (Nat.le_refl _)
      s.laid.base
    have entry {p : ℕ × Dbd} (mem : p ∈ l) : ∃ c e, Head c ∧ e ∈ chain c ∧ e.offset = p.1 ∧
        p.2 = e.record.dbd p.1 (L.ptr p.1) := by
      obtain ⟨_, r, held, read⟩ := listed p mem
      by_contra none
      apply covered p.1 r held
      intro c head e there same
      have record := (s.threads.held c head e there).record
      rw [same, held] at record
      exact none ⟨c, e, head, there, same, by rw [read, Option.some.inj record]⟩
    refine ⟨l, records, ?_, ?_⟩
    · intro p mem
      obtain ⟨c, e, head, there, same, read⟩ := entry mem
      have held := s.threads.held c head e there
      have valid := s.laid.valid _ _ held.record
      rw [read]
      refine ⟨same ▸ s.chained head there, held.area, valid.area, valid.used,
        valid.room⟩
    · apply sorted.imp_of_mem
      intro p q mem mem' before
      obtain ⟨c, e, head, there, same, read⟩ := entry mem
      obtain ⟨c', e', head', there', same', read'⟩ := entry mem'
      rw [read, read']
      exact s.threads.clear head head' there there' (by omega)
  freeChain := by
    have walks := s.walks head_freeOff
    rwa [s.freeList, List.map_map]
  freeLengths := by
    intro item mem
    rw [s.freeList] at mem
    obtain ⟨e, there, rfl⟩ := List.mem_map.mp mem
    exact ⟨_, s.readidx head_freeOff there, rfl, rfl⟩
  reopened := s.reopened

end Sound
/-! ### Runs -/

/-- Keys are C strings, the index record written keeps within its limit, and one that is written
again where it stands fits. -/
def DbCall.Orderly : DbCall → Db → Prop
  | .store key data flag, db =>
      0 ∉ key ∧ StoreShort db key data flag ∧ (flag = .replace → RewriteFits db key data)
  | _, _ => True

/-- The index record of a free place that is reused fits, too. -/
def DbCall.Fitting : DbCall → Db → Prop
  | .store key data flag, db =>
      (DbCall.store key data flag).Orderly db ∧
        (needsPlace db key data flag = true → ReuseFits db key data)
  | _, _ => True

instance : (call : DbCall) → (db : Db) → Decidable (call.Orderly db)
  | .store _ _ _, _ => inferInstanceAs (Decidable (_ ∧ _ ∧ (_ → _)))
  | .delete _, _ => inferInstanceAs (Decidable True)
  | .fetch _, _ => inferInstanceAs (Decidable True)

instance : (call : DbCall) → (db : Db) → Decidable (call.Fitting db)
  | .store key data flag, db =>
      have : Decidable ((DbCall.store key data flag).Orderly db) := inferInstance
      inferInstanceAs (Decidable (_ ∧ (_ → _)))
  | .delete _, _ => inferInstanceAs (Decidable True)
  | .fetch _, _ => inferInstanceAs (Decidable True)

/-- At most one record for each key. -/
def Single (chain : ℕ → List Entry) : Prop := ∀ key, (contents chain key).length ≤ 1

section Single

variable {chain chain' : ℕ → List Entry} {key data : List UInt8}

theorem Single.drop (single : Single chain)
    (holds : contents chain' = Function.update (contents chain) key (contents chain key).tail) :
    Single chain' := by
  intro k
  rw [holds]
  by_cases here : k = key
  · subst here
    have few := single k
    rw [Function.update_self, List.length_tail]
    omega
  · rw [Function.update_of_ne here]
    exact single k

theorem Single.put (single : Single chain)
    (holds : contents chain' = Function.update (contents chain) key
      (data :: (contents chain key).tail)) : Single chain' := by
  intro k
  rw [holds]
  by_cases here : k = key
  · subst here
    have few := single k
    rw [Function.update_self, List.length_cons, List.length_tail]
    omega
  · rw [Function.update_of_ne here]
    exact single k

end Single

/-- A call leaves the files sound, with one record for each key, and every live record on a chain;
every record, if the one it reuses fits. -/
theorem Sound.call {db db' : Db} {L : Layout} {chain : ℕ → List Entry} (s : Sound db L chain)
    {call : DbCall} {answer : DbAnswer} (orderly : call.Orderly db)
    (run : call.run db = some (answer, db')) :
    ∃ L' chain', Sound db' L' chain' ∧ (Single chain → Single chain') ∧
      ∀ kind, (call.Fitting db ∨ ∀ r, kind r → r.isfree = 0) →
        CoveredIn kind L chain → CoveredIn kind L' chain' := by
  cases call with
  | fetch key =>
      obtain ⟨found, _, same⟩ := Option.map_eq_some_iff.mp run
      cases same
      exact ⟨L, chain, s, id, fun _ _ => id⟩
  | delete key =>
      obtain ⟨p, deleted, same⟩ := Option.map_eq_some_iff.mp run
      obtain ⟨db₁, L', chain', result, sound, holds, covered⟩ := s.delete key
      rw [result] at deleted
      cases deleted
      cases same
      exact ⟨L', chain', sound, fun single => single.drop holds, fun kind _ => covered kind⟩
  | store key data flag =>
      obtain ⟨p, stored, same⟩ := Option.map_eq_some_iff.mp run
      obtain ⟨noNul, short, fits⟩ := orderly
      have out := s.store noNul flag short fits
      rw [stored] at out
      cases same
      cases out with
      | tooLong _ => exact ⟨L, chain, s, id, fun _ _ => id⟩
      | missing _ _ => exact ⟨L, chain, s, id, fun _ _ => id⟩
      | present _ _ => exact ⟨L, chain, s, id, fun _ _ => id⟩
      | full _ _ _ db' L' chain' sound holds covered =>
          exact ⟨L', chain', sound, fun single => single.drop holds, fun kind _ => covered kind⟩
      | stored _ db' L' chain' sound holds covered =>
          refine ⟨L', chain', sound, fun single => single.put holds, fun kind fitting => ?_⟩
          exact covered kind (fitting.imp_left fun fitting => fitting.2)

/-- A call whose index record fits returns. -/
theorem Sound.returns {db : Db} {L : Layout} {chain : ℕ → List Entry} (s : Sound db L chain)
    {call : DbCall} (fitting : call.Fitting db) :
    ∃ answer db', call.run db = some (answer, db') := by
  cases call with
  | fetch key =>
      refine ⟨.data (contents chain key).head?, db, ?_⟩
      rw [DbCall.run, s.fetch key]
      rfl
  | delete key =>
      obtain ⟨db', _, _, result, _⟩ := s.delete key
      refine ⟨.code (if contents chain key = [] then -1 else 0), db', ?_⟩
      rw [DbCall.run, result]
      rfl
  | store key data flag =>
      obtain ⟨⟨noNul, short, fits⟩, reuse⟩ := fitting
      have out := s.store noNul flag short fits
      rw [DbCall.run]
      generalize dbStore db key data flag = result at out
      cases out with
      | tooLong _ => exact ⟨_, _, rfl⟩
      | missing _ _ => exact ⟨_, _, rfl⟩
      | present _ _ => exact ⟨_, _, rfl⟩
      | full _ _ _ _ _ _ _ _ _ => exact ⟨_, _, rfl⟩
      | stored _ _ _ _ _ _ _ => exact ⟨_, _, rfl⟩
      | beyond place _ outgrown => exact absurd (reuse place) outgrown

/-- After every run the files are sound, with one record for each key, and its chain holds it. -/
theorem Sound.calls {calls : List DbCall} {db : Db} {answers : List DbAnswer}
    (orderly : AllMeet DbCall.Orderly calls Db.fresh)
    (run : runCalls calls Db.fresh = some (answers, db)) :
    ∃ L chain, Sound db L chain ∧ Single chain ∧ CoveredIn (fun r => r.isfree = 0) L chain := by
  apply runCalls_invariant (I := fun db => ∃ L chain, Sound db L chain ∧ Single chain ∧
    CoveredIn (fun r => r.isfree = 0) L chain) _ _ orderly run
  · intro call db answer db' kept orderly run
    obtain ⟨L, chain, sound, single, covered⟩ := kept
    obtain ⟨L', chain', sound', single', covered'⟩ := sound.call orderly run
    exact ⟨L', chain', sound', single' single, covered' _ (Or.inr fun _ live => live) covered⟩
  · exact ⟨_, _, Sound.fresh, fun _ => Nat.zero_le 1, fun _ _ held => by cases held⟩

theorem DbCall.Fitting.orderly {call : DbCall} {db : Db} (fitting : call.Fitting db) :
    call.Orderly db := by
  cases call with
  | store key data flag => exact fitting.1
  | delete key => trivial
  | fetch key => trivial

theorem Sound.run {calls : List DbCall} {db : Db} {L : Layout} {chain : ℕ → List Entry}
    (s : Sound db L chain) (covered : Covered L chain) (fitting : AllMeet DbCall.Fitting calls db) :
    ∃ answers db' L' chain', runCalls calls db = some (answers, db') ∧ Sound db' L' chain' ∧
      Covered L' chain' := by
  induction calls generalizing db L chain with
  | nil => exact ⟨[], db, L, chain, rfl, s, covered⟩
  | cons call rest ih =>
      obtain ⟨answer, db₁, called⟩ := s.returns fitting.1
      obtain ⟨L₁, chain₁, sound₁, _, covered₁⟩ := s.call fitting.1.orderly called
      have all := covered_iff.mpr (covered₁ _ (Or.inl fitting.1) (covered_iff.mp covered))
      obtain ⟨answers, db', L', chain', ran, sound', covered'⟩ :=
        ih sound₁ all (fitting.2 _ called)
      refine ⟨answer :: answers, db', L', chain', ?_, sound', covered'⟩
      unfold runCalls
      rw [called]
      change (runCalls rest db₁).bind _ = _
      rw [ran]
      rfl

/-- As long as every index record that is written over another one fits, the regions of the files
stay apart and the free list in memory is the one on disk. -/
theorem storage_sound (calls : List DbCall) (fitting : AllMeet DbCall.Fitting calls Db.fresh) :
    ∃ answers db, runCalls calls Db.fresh = some (answers, db) ∧ StorageSound db := by
  obtain ⟨answers, db, L, chain, ran, sound, covered⟩ := Sound.fresh.run
    (fun _ _ held => by cases held) fitting
  exact ⟨answers, db, ran, sound.storage covered⟩

/-- A deleted record is left on the free list, and one of another key appended. -/
theorem storage_sound_outgrown : AllMeet DbCall.Fitting (outgrown.take 5) Db.fresh ∧
    ∃ answers db, runCalls (outgrown.take 5) Db.fresh = some (answers, db) ∧ StorageSound db := by
  have fitting : AllMeet DbCall.Fitting (outgrown.take 5) Db.fresh := by decide +kernel
  exact ⟨fitting, storage_sound (outgrown.take 5) fitting⟩

/-- A free record is reused that is too short for the index record. -/
def orphaning : List DbCall :=
  outgrown.take 5 ++ [.store (List.replicate 10 99) (List.replicate 10 5) .insert]

/-- The free record of the second key is on no chain afterwards. -/
theorem storage_unsound : ¬ ∀ (calls : List DbCall) (answers : List DbAnswer) (db : Db),
    runCalls calls Db.fresh = some (answers, db) → StorageSound db := by
  intro claim
  have orderly : AllMeet DbCall.Orderly orphaning Db.fresh := by decide +kernel
  have facts : (runCalls orphaning Db.fresh).map (fun out =>
      (out.2.idx.size, out.2.freeList.map Fsdbd.offset,
        (dbReadidx out.2.idx idxBase).map Dbd.idxlen,
        (dbReadidx out.2.idx (idxBase + 37)).map Dbd.isfree)) =
      some (idxBase + 112, [idxBase], some 24, some 1) := by decide +kernel
  obtain ⟨⟨answers, db⟩, ran, facts⟩ := Option.map_eq_some_iff.mp facts
  simp only [Prod.mk.injEq] at facts
  obtain ⟨size, free, first, second⟩ := facts
  obtain ⟨L, chain, sound, _⟩ := Sound.calls orderly ran
  obtain ⟨⟨l, records, each, _⟩, _⟩ := claim orphaning answers db ran
  -- the second record of the file
  have there : ∃ d, (idxBase + 37, d) ∈ l := by
    rcases records.uncons with ⟨last, _⟩ | ⟨d, rest, rfl, read, behind⟩
    · omega
    · rw [read] at first
      have idxlen : d.idxlen = 24 := Option.some.inj first
      have next : idxBase + (ptrSz + (idxlenSz + d.idxlen)) = idxBase + 37 := by
        rw [idxlen]
        rfl
      rw [next] at behind
      rcases behind.uncons with ⟨last, _⟩ | ⟨d', rest', rfl, _, _⟩
      · omega
      · exact ⟨d', List.mem_cons_of_mem _ List.mem_cons_self⟩
  obtain ⟨d, there⟩ := there
  obtain ⟨c, ⟨head, offsets, walks, mem⟩, _⟩ := (each _ there).chained
  rw [sound.walks_eq head walks] at mem
  obtain ⟨e, mem, same⟩ := List.mem_map.mp mem
  have belongs := (sound.threads.held c head e mem).belongs
  have read := sound.readidx head mem
  rw [same] at read
  rw [read] at second
  have marked : e.record.isfree = 1 := Option.some.inj second
  by_cases list : c = freeOff
  · subst list
    have listed : e.item.offset ∈ db.freeList.map Fsdbd.offset := by
      rw [sound.freeList]
      exact List.mem_map_of_mem (List.mem_map_of_mem mem)
    rw [free] at listed
    have here : e.offset = idxBase := List.mem_singleton.mp listed
    omega
  · rw [Belongs, if_neg list, marked] at belongs
    exact absurd belongs.1 (by decide)

end BloomServer
