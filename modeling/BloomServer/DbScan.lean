import BloomServer.DbStorage

/-! `db_nextrec`: the live records of a file, one behind the other. -/
namespace BloomServer
open LinkedChain

/-- The loop of `db_nextrec`, with as many rounds left as its first argument says: the record and
the offset behind it, unless the end comes first. -/
def dbNextrecLoop (f : ByteFile) : ℕ → ℕ → Option (Option (Dbd × ℕ))
  | 0, _ => none
  | n + 1, offset =>
      match dbReadidx f offset with
      | none => some none
      | some dbd =>
          let lastOffset := offset + (ptrSz + (idxlenSz + dbd.idxlen))
          if dbd.isfree ≠ 0 then dbNextrecLoop f n lastOffset else some (some (dbd, lastOffset))

/-- The buffer was filled with nul bytes; whether all of the data could be read is not tested. -/
def nextrecData (db : Db) (dbd : Dbd) : Dbd :=
  let data := db.dat.pread dbd.datlenU dbd.datoff
  { dbd with datbuf := data ++ List.replicate (dbd.datlenU - data.length) 0 }

/-- `db_nextrec`, called with the offset that the last call left, or without a record. -/
def dbNextrec (db : Db) (lastOffset : Option ℕ) : Option (Option (Dbd × ℕ)) := do
  let next ← dbNextrecLoop db.idx (db.idx.size + 1) (lastOffset.getD idxBase)
  return next.map fun p => (nextrecData db p.1, p.2)

/-- The records that so many calls return, when the last of them is the first to report the end. -/
def dbScan (db : Db) : ℕ → Option ℕ → Option (List Dbd)
  | 0, _ => none
  | n + 1, lastOffset => do
      match ← dbNextrec db lastOffset with
      | none => if n = 0 then return [] else none
      | some (dbd, lastOffset) => return dbd :: (← dbScan db n (some lastOffset))

/-- A scan gives every key that is found, and its data, and each key once; the call behind the last
one reports the end. -/
def ScansOnce (db : Db) : Prop :=
  ∃ l, dbScan db (l.length + 1) none = some l ∧ (l.map Dbd.idxbuf).Nodup ∧
    ∀ key data, (∃ d ∈ l, d.idxbuf = key ∧ d.datbuf = data) ↔ dbFetch db key = some (some data)

/-- There is one number of calls after which the end is reported. -/
theorem dbScan_unique {db : Db} {n n' : ℕ} {lastOffset : Option ℕ} {l l' : List Dbd}
    (scan : dbScan db n lastOffset = some l) (scan' : dbScan db n' lastOffset = some l') :
    l = l' := by
  induction n generalizing n' lastOffset l l' with
  | zero => cases scan
  | succ n ih =>
      cases n' with
      | zero => cases scan'
      | succ n' =>
          rw [dbScan] at scan scan'
          obtain ⟨next, call, rest⟩ := Option.bind_eq_some_iff.mp scan
          rw [call] at scan'
          cases next with
          | none =>
              have last : (if n = 0 then some [] else none) = some l := rest
              have last' : (if n' = 0 then some [] else none) = some l' := scan'
              split_ifs at last last'
              exact (Option.some.inj last).symm.trans (Option.some.inj last')
          | some next =>
              have rest' : ((dbScan db n' (some next.2)).bind fun l => some (next.1 :: l)) =
                  some l' := scan'
              obtain ⟨later, ran, same⟩ := Option.bind_eq_some_iff.mp rest
              obtain ⟨later', ran', same'⟩ := Option.bind_eq_some_iff.mp rest'
              cases same
              cases same'
              rw [ih ran ran']

/-! ### One call -/

/-- The records that are not free. -/
def liveOf (l : List (ℕ × Dbd)) : List (ℕ × Dbd) := l.filter fun p => p.2.isfree = 0

section Calls

variable {f : ByteFile} {offset n : ℕ} {l : List (ℕ × Dbd)} {db : Db}

theorem dbReadidx_end (f : ByteFile) : dbReadidx f f.size = none := by
  have short : f.pread ptrSz f.size = [] := by
    rw [ByteFile.pread, Nat.sub_self, Nat.min_zero]
    rfl
  unfold dbReadidx dbReadptr
  rw [short]
  rfl

theorem length_records (records : IndexRecords f offset l) : offset + l.length ≤ f.size := by
  induction records with
  | nil => exact Nat.le_refl _
  | cons _ _ ih =>
      rw [List.length_cons]
      unfold ptrSz at ih
      omega

/-- A call comes to the next live record, and leaves off behind it. -/
theorem nextrecLoop_eq (records : IndexRecords f offset l) (fuel : l.length < n) :
    (liveOf l = [] ∧ dbNextrecLoop f n offset = some none) ∨
      ∃ p rest next, liveOf l = p :: liveOf rest ∧ IndexRecords f next rest ∧
        dbNextrecLoop f n offset = some (some (p.2, next)) := by
  induction records generalizing n with
  | nil =>
      obtain ⟨m, rfl⟩ := Nat.exists_eq_succ_of_ne_zero (Nat.ne_of_gt fuel)
      refine Or.inl ⟨rfl, ?_⟩
      rw [dbNextrecLoop, dbReadidx_end]
  | @cons offset d rest read behind ih =>
      obtain ⟨m, rfl⟩ := Nat.exists_eq_succ_of_ne_zero (Nat.ne_of_gt (Nat.zero_lt_of_lt fuel))
      rw [dbNextrecLoop, read]
      by_cases live : d.isfree = 0
      · refine Or.inr ⟨(offset, d), rest, _, ?_, behind, if_neg (not_not.mpr live)⟩
        exact List.filter_cons_of_pos (decide_eq_true live)
      · dsimp only
        rw [if_pos live, liveOf, List.filter_cons_of_neg (by simpa using live)]
        exact ih (Nat.lt_of_succ_lt_succ fuel)

theorem scan_eq (records : IndexRecords db.idx offset l) {lastOffset : Option ℕ}
    (start : lastOffset.getD idxBase = offset) {k : ℕ} (count : (liveOf l).length = k) :
    dbScan db (k + 1) lastOffset = some ((liveOf l).map fun p => nextrecData db p.2) := by
  induction k generalizing l offset lastOffset with
  | zero =>
      have none : liveOf l = [] := List.length_eq_zero_iff.mp count
      rcases nextrecLoop_eq records (Nat.lt_succ_of_le (Nat.le_of_add_left_le (length_records records)))
        with ⟨_, last⟩ | ⟨p, rest, next, some, _⟩
      · rw [dbScan, dbNextrec, start, last, none]
        rfl
      · rw [none] at some
        cases some
  | succ k ih =>
      rcases nextrecLoop_eq records (Nat.lt_succ_of_le (Nat.le_of_add_left_le (length_records records)))
        with ⟨none, _⟩ | ⟨p, rest, next, split, behind, step⟩
      · rw [none] at count
        cases count
      · rw [split, List.length_cons] at count
        have start' : (some next).getD idxBase = next := rfl
        have later := ih behind start' (Nat.succ.inj count)
        rw [dbScan, dbNextrec, start, step, split]
        change (dbScan db (k + 1) (some next)).bind _ = _
        rw [later]
        rfl

end Calls

namespace Sound

variable {db : Db} {L : Layout} {chain : ℕ → List Entry} {c i : ℕ} {e e' : Entry}
  {key data : List UInt8} {l : List (ℕ × Dbd)} {r : IndexRec}

/-- The records from an offset on are all there are. -/
theorem mem_records (s : Sound db L chain) (records : IndexRecords db.idx i l) (listed : Listed L i l)
    {offset : ℕ} (held : L.record offset = some r) (above : i ≤ offset) :
    (offset, r.dbd offset (L.ptr offset)) ∈ l := by
  induction records with
  | nil =>
      have room := s.laid.extent_le held
      have size := LaidOut.extent_pos r
      omega
  | @cons i d rest read behind ih =>
      obtain ⟨sorted, each⟩ := listed
      obtain ⟨_, r', held', same⟩ := each _ List.mem_cons_self
      dsimp only at held' same
      rcases Nat.eq_or_lt_of_le above with rfl | before
      · rw [held] at held'
        cases held'
        rw [same]
        exact List.mem_cons_self
      · have apart := s.laid.apart i r' offset r held' held before
        have extent : ptrSz + (idxlenSz + d.idxlen) = r'.extent := by
          rw [same]
          rfl
        rw [extent] at ih
        apply List.mem_cons_of_mem
        apply ih _ apart
        rw [List.pairwise_cons] at sorted
        refine ⟨sorted.2, fun p mem => ?_⟩
        obtain ⟨_, r'', held'', same''⟩ := each p (List.mem_cons_of_mem _ mem)
        exact ⟨s.laid.apart i r' p.1 r'' held' held'' (sorted.1 p mem), r'', held'', same''⟩

/-- The data of a live record. -/
theorem nextrecData_eq (s : Sound db L chain) (mem : e ∈ chain (dbChainOff key)) (p : ℕ) :
    (nextrecData db (e.record.dbd e.offset p)).datbuf = e.data := by
  have held := s.threads.held _ (head_dbChainOff key) e mem
  have live := dbChainOff_ne_freeOff key
  have read := (held.data live).pread
  rw [← held.used live] at read
  change db.dat.pread e.record.datlenU e.record.datoff ++
    List.replicate (e.record.datlenU - (db.dat.pread e.record.datlenU e.record.datoff).length) 0 = _
  rw [read, held.used live, Nat.sub_self, List.replicate_zero, List.append_nil]

theorem eq_of_single (single : Single chain) (mem : e ∈ chain (dbChainOff key))
    (mem' : e' ∈ chain (dbChainOff key)) (same : e.record.key = key) (same' : e'.record.key = key) :
    e = e' := by
  have few := single key
  have there : e ∈ (chain (dbChainOff key)).filter fun e => e.record.key = key :=
    List.mem_filter.mpr ⟨mem, decide_eq_true same⟩
  have there' : e' ∈ (chain (dbChainOff key)).filter fun e => e.record.key = key :=
    List.mem_filter.mpr ⟨mem', decide_eq_true same'⟩
  rw [contents, List.length_map] at few
  obtain ⟨x, one⟩ := List.length_eq_one_iff.mp (Nat.le_antisymm few (List.length_pos_of_mem there))
  rw [one] at there there'
  rw [List.mem_singleton.mp there, List.mem_singleton.mp there']

/-- With one record for each key, the data fetched is that of the record on the chain. -/
theorem fetch_iff (s : Sound db L chain) (single : Single chain) :
    dbFetch db key = some (some data) ↔
      ∃ e ∈ chain (dbChainOff key), e.record.key = key ∧ e.data = data := by
  rw [s.fetch key]
  constructor
  · intro found
    have there := List.mem_of_head? (Option.some.inj found)
    obtain ⟨e, mem, same⟩ := List.mem_map.mp there
    obtain ⟨mem, holds⟩ := List.mem_filter.mp mem
    exact ⟨e, mem, of_decide_eq_true holds, same⟩
  · rintro ⟨e, mem, same, rfl⟩
    have there : e.data ∈ contents chain key :=
      List.mem_map_of_mem (List.mem_filter.mpr ⟨mem, decide_eq_true same⟩)
    obtain ⟨x, one⟩ :=
      List.length_eq_one_iff.mp (Nat.le_antisymm (single key) (List.length_pos_of_mem there))
    rw [one] at there
    rw [one, List.mem_singleton.mp there]
    rfl

/-- A live record of the file is one of its chain. -/
theorem entry_of_live (s : Sound db L chain) (covered : CoveredIn (fun r => r.isfree = 0) L chain)
    {offset : ℕ} (held : L.record offset = some r) (live : r.isfree = 0) :
    ∃ e ∈ chain (dbChainOff r.key), e.offset = offset ∧ e.record = r := by
  have linked := covered offset r held live
  unfold Threads.Off at linked
  push Not at linked
  obtain ⟨c, head, e, mem, same⟩ := linked
  have entry := s.threads.held c head e mem
  have record := entry.record
  rw [same, held] at record
  have eq : e.record = r := (Option.some.inj record).symm
  have belongs := entry.belongs
  unfold Belongs at belongs
  split_ifs at belongs with free
  · rw [eq, live] at belongs
    cases belongs
  · rw [eq] at belongs
    rw [belongs.2]
    exact ⟨e, mem, same, eq⟩

theorem scansOnce (s : Sound db L chain) (single : Single chain)
    (covered : CoveredIn (fun r => r.isfree = 0) L chain) : ScansOnce db := by
  obtain ⟨l, records, listed⟩ := s.records_from rfl (Or.inl rfl) (Nat.le_refl _) s.laid.base
  have entry {p : ℕ × Dbd} (mem : p ∈ liveOf l) : ∃ e ∈ chain (dbChainOff p.2.idxbuf),
      e.offset = p.1 ∧ e.record.key = p.2.idxbuf ∧ p.2 = e.record.dbd e.offset (L.ptr e.offset) := by
    obtain ⟨there, live⟩ := List.mem_filter.mp mem
    obtain ⟨_, r, held, read⟩ := listed.2 p there
    have idle : r.isfree = 0 := by
      have state := of_decide_eq_true live
      rwa [read] at state
    obtain ⟨e, on, same, rfl⟩ := s.entry_of_live covered held idle
    rw [read, ← same]
    exact ⟨e, on, rfl, rfl, rfl⟩
  refine ⟨(liveOf l).map fun p => nextrecData db p.2, ?_, ?_, ?_⟩
  · rw [List.length_map]
    exact scan_eq records rfl rfl
  · rw [List.map_map, List.Nodup, List.pairwise_map]
    apply (listed.1.filter _).imp_of_mem
    intro p q mem mem' before equal
    obtain ⟨e, on, same, key, _⟩ := entry mem
    obtain ⟨e', on', same', key', _⟩ := entry mem'
    change p.2.idxbuf = q.2.idxbuf at equal
    rw [equal] at on key
    have one := eq_of_single single on on' key key'
    rw [← same, ← same', one] at before
    exact absurd before (Nat.lt_irrefl _)
  · intro key data
    rw [s.fetch_iff single]
    constructor
    · rintro ⟨_, mem, rfl, rfl⟩
      obtain ⟨p, there, rfl⟩ := List.mem_map.mp mem
      obtain ⟨e, on, _, same, read⟩ := entry there
      refine ⟨e, on, same, ?_⟩
      rw [read]
      exact (s.nextrecData_eq on _).symm
    · rintro ⟨e, on, rfl, rfl⟩
      have held := s.threads.held _ (head_dbChainOff _) e on
      have belongs := held.belongs
      rw [Belongs, if_neg (dbChainOff_ne_freeOff _)] at belongs
      have there := s.mem_records records listed held.record (s.laid.behind _ _ held.record)
      refine ⟨_, List.mem_map_of_mem (List.mem_filter.mpr ⟨there, decide_eq_true belongs.1⟩), rfl, ?_⟩
      exact s.nextrecData_eq on _

end Sound

/-! ### Runs -/

/-- As long as every index record that is written keeps within its limit, and within the record that
is written again where it stands, a scan gives each live record once. -/
theorem scan_gives_each_once (calls : List DbCall) (answers : List DbAnswer) (db : Db)
    (orderly : AllMeet DbCall.Orderly calls Db.fresh)
    (run : runCalls calls Db.fresh = some (answers, db)) : ScansOnce db := by
  obtain ⟨L, chain, sound, single, covered⟩ := Sound.calls orderly run
  exact sound.scansOnce single covered

/-- A key is left whose record was deleted, appended again and reused. -/
theorem scan_gives_each_once_outgrown : AllMeet DbCall.Orderly (outgrown.take 6) Db.fresh ∧
    ∃ answers db, runCalls (outgrown.take 6) Db.fresh = some (answers, db) ∧ ScansOnce db := by
  have orderly : AllMeet DbCall.Orderly (outgrown.take 6) Db.fresh := by decide +kernel
  have returns : (runCalls (outgrown.take 6) Db.fresh).isSome := by decide +kernel
  obtain ⟨⟨answers, db⟩, ran⟩ := Option.isSome_iff_exists.mp returns
  exact ⟨orderly, answers, db, ran, scan_gives_each_once _ answers db orderly ran⟩

/-- The record that has outgrown its place is there twice. -/
theorem not_scan_gives_each_once : ¬ ∀ (calls : List DbCall) (answers : List DbAnswer) (db : Db),
    AllMeet DbCall.InRange calls Db.fresh → runCalls calls Db.fresh = some (answers, db) →
      ScansOnce db := by
  intro claim
  have within : AllMeet DbCall.InRange (outgrown.take 7) Db.fresh := outgrown_inRange.take 7
  have facts : (runCalls (outgrown.take 7) Db.fresh).map
      (fun out => (dbScan out.2 3 none).map fun l => l.map Dbd.idxbuf) =
        some (some [List.replicate 10 99, List.replicate 10 99]) := by decide +kernel
  obtain ⟨⟨answers, db⟩, ran, facts⟩ := Option.map_eq_some_iff.mp facts
  obtain ⟨l, scan, keys⟩ := Option.map_eq_some_iff.mp facts
  obtain ⟨l', scan', once, _⟩ := claim _ answers db within ran
  rw [← dbScan_unique scan scan', keys] at once
  exact absurd once (by decide)

end BloomServer
