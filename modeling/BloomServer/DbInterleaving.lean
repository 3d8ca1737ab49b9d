import BloomServer.DbStorage
import BloomServer.Library.LabelledRun

/-! Requests of many clients at once. Each section between taking and giving up the lock of a chain
is one step; a replacement by longer data takes three. -/
namespace BloomServer
open LabelledRun LinkedChain

inductive DbRequest
  | store (key data : List UInt8) (flag : DbFlag)
  | delete (key : List UInt8)

/-- What a store that has given up the lock does next. -/
inductive DbSection
  | delete (key data : List UInt8) (dbd : Dbd)
  | finish (key data : List UInt8) (dbd : Dbd)

/-- The file, and the stores in flight. -/
structure DbServer where
  db : Db
  pending : ℕ → Option DbSection

/-- A client begins a request, or takes the lock again for it. -/
inductive DbAction
  | begin (request : DbRequest)
  | delete (key : List UInt8)
  | finish (key data : List UInt8)

/-- A step of a client, and what its request returns if it does so. -/
structure DbEvent where
  client : ℕ
  action : DbAction
  rc : Option ℤ

def DbServer.start : DbServer := ⟨Db.fresh, fun _ => none⟩

inductive DbServerStep : DbServer → DbEvent → DbServer → Prop
  | deleted {s : DbServer} {client : ℕ} {key : List UInt8} {rc : ℤ} {db : Db}
      (idle : s.pending client = none) (run : dbDelete s.db key = some (rc, db)) :
      DbServerStep s ⟨client, .begin (.delete key), some rc⟩ { s with db }
  | tooLong {s : DbServer} {client : ℕ} {key data : List UInt8} {flag : DbFlag}
      (idle : s.pending client = none) (long : datlenMax < data.length) :
      DbServerStep s ⟨client, .begin (.store key data flag), some 3⟩ s
  | returned {s : DbServer} {client : ℕ} {key data : List UInt8} {flag : DbFlag} {rc : ℤ} {db : Db}
      (idle : s.pending client = none) (limit : data.length ≤ datlenMax)
      (run : dbStoreBegin s.db key data flag = some (.returned rc, db)) :
      DbServerStep s ⟨client, .begin (.store key data flag), some rc⟩ { s with db }
  | longer {s : DbServer} {client : ℕ} {key data : List UInt8} {flag : DbFlag} {dbd : Dbd} {db : Db}
      (idle : s.pending client = none) (limit : data.length ≤ datlenMax)
      (run : dbStoreBegin s.db key data flag = some (.longer dbd, db)) :
      DbServerStep s ⟨client, .begin (.store key data flag), none⟩
        ⟨db, Function.update s.pending client (some (.delete key data dbd))⟩
  | cleared {s : DbServer} {client : ℕ} {key data : List UInt8} {dbd : Dbd} {rc : ℤ} {db : Db}
      (waits : s.pending client = some (.delete key data dbd))
      (run : dbDelete s.db key = some (rc, db)) :
      DbServerStep s ⟨client, .delete key, none⟩
        ⟨db, Function.update s.pending client (some (.finish key data dbd))⟩
  | finished {s : DbServer} {client : ℕ} {key data : List UInt8} {dbd : Dbd} {rc : ℤ} {db : Db}
      (waits : s.pending client = some (.finish key data dbd))
      (run : dbStoreEnd s.db dbd key data = some (rc, db)) :
      DbServerStep s ⟨client, .finish key data, some rc⟩
        ⟨db, Function.update s.pending client none⟩

/-- What a client comes to with an action, if it can take it. -/
def DbServer.act (s : DbServer) (client : ℕ) : DbAction → Option (Option ℤ × DbServer)
  | .begin (.delete key) =>
      if s.pending client = none then
        (dbDelete s.db key).map fun p => (some p.1, { s with db := p.2 })
      else none
  | .begin (.store key data flag) =>
      if s.pending client = none then
        if datlenMax < data.length then some (some 3, s)
        else (dbStoreBegin s.db key data flag).map fun p =>
          match p.1 with
          | .returned rc => (some rc, { s with db := p.2 })
          | .longer dbd =>
              (none, ⟨p.2, Function.update s.pending client (some (.delete key data dbd))⟩)
      else none
  | .delete key =>
      match s.pending client with
      | some (.delete key' data dbd) =>
          if key' = key then
            (dbDelete s.db key).map fun p =>
              (none, ⟨p.2, Function.update s.pending client (some (.finish key data dbd))⟩)
          else none
      | _ => none
  | .finish key data =>
      match s.pending client with
      | some (.finish key' data' dbd) =>
          if key' = key ∧ data' = data then
            (dbStoreEnd s.db dbd key data).map fun p =>
              (some p.1, ⟨p.2, Function.update s.pending client none⟩)
          else none
      | _ => none

theorem DbServer.act_sound {s s' : DbServer} {client : ℕ} {action : DbAction} {rc : Option ℤ}
    (h : s.act client action = some (rc, s')) : DbServerStep s ⟨client, action, rc⟩ s' := by
  cases action with
  | begin request =>
      cases request with
      | delete key =>
          unfold DbServer.act at h
          split_ifs at h with idle
          obtain ⟨p, run, same⟩ := Option.map_eq_some_iff.mp h
          cases same
          exact .deleted idle run
      | store key data flag =>
          unfold DbServer.act at h
          dsimp only at h
          split_ifs at h with idle long
          · cases h
            exact .tooLong idle long
          · have limit := Nat.le_of_not_lt long
            obtain ⟨⟨begun, db⟩, run, same⟩ := Option.map_eq_some_iff.mp h
            cases begun with
            | returned rc' =>
                cases same
                exact .returned idle limit run
            | longer dbd =>
                cases same
                exact .longer idle limit run
  | delete key =>
      unfold DbServer.act at h
      dsimp only at h
      split at h
      · rename_i key' data dbd waits
        split_ifs at h with same
        subst same
        obtain ⟨p, run, same⟩ := Option.map_eq_some_iff.mp h
        cases same
        exact .cleared waits run
      · cases h
  | finish key data =>
      unfold DbServer.act at h
      dsimp only at h
      split at h
      · rename_i key' data' dbd waits
        split_ifs at h with same
        obtain ⟨rfl, rfl⟩ := same
        obtain ⟨p, run, same⟩ := Option.map_eq_some_iff.mp h
        cases same
        exact .finished waits run
      · cases h

/-- The step of an event, if it can be taken. -/
def DbServer.take (s : DbServer) (ev : DbEvent) : Option DbServer :=
  (s.act ev.client ev.action).bind fun out => if out.1 = ev.rc then some out.2 else none

theorem DbServer.take_sound (s : DbServer) (ev : DbEvent) (s' : DbServer)
    (h : s.take ev = some s') : DbServerStep s ev s' := by
  obtain ⟨⟨rc, s₁⟩, acted, h⟩ := Option.bind_eq_some_iff.mp h
  split_ifs at h with same
  cases h
  have step := act_sound acted
  change rc = ev.rc at same
  rwa [same] at step

/-- A store that nobody interrupts is `db_store`. -/
theorem dbStore_steps {s : DbServer} {client : ℕ} {key data : List UInt8} {flag : DbFlag} {rc : ℤ}
    {db : Db} (idle : s.pending client = none) (run : dbStore s.db key data flag = some (rc, db)) :
    ∃ T action, Run DbServerStep s (⟨client, action, some rc⟩ :: T) { s with db } := by
  unfold dbStore at run
  split_ifs at run with long
  · cases run
    exact ⟨[], _, .single (@DbServerStep.tooLong s client key data flag idle long)⟩
  · have limit := Nat.le_of_not_lt long
    obtain ⟨⟨begun, db₁⟩, first, rest⟩ := Option.bind_eq_some_iff.mp run
    cases begun with
    | returned rc' =>
        cases rest
        exact ⟨[], _, .single (.returned idle limit first)⟩
    | longer dbd =>
        obtain ⟨⟨rc', db₂⟩, second, third⟩ := Option.bind_eq_some_iff.mp rest
        have here (c : DbSection) (f : ℕ → Option DbSection) :
            Function.update f client (some c) client = some c := Function.update_self _ _ _
        have run₁ := Run.single (DbServerStep.longer idle limit first)
        have run₂ := run₁.snoc (.cleared (here _ _) second)
        have run₃ := run₂.snoc (.finished (here _ _) third)
        have back : Function.update (Function.update (Function.update s.pending client
            (some (.delete key data dbd))) client (some (.finish key data dbd))) client none =
            s.pending := by
          rw [Function.update_idem, Function.update_idem, ← idle, Function.update_eq_self]
        rw [back] at run₃
        exact ⟨_, _, run₃⟩

/-! ### What the history says -/

/-- What an action makes of the data of its key. -/
def DbAction.onMap (rc : Option ℤ) : DbAction → KeyMap → KeyMap
  | .begin (.store key data _), m => if rc = some 0 then Function.update m key (some data) else m
  | .begin (.delete key), m => Function.update m key none
  | .delete key, m => Function.update m key none
  | .finish key data, m => if rc = some 0 then Function.update m key (some data) else m

/-- The data of each key after a history, newest first. -/
def written : List DbEvent → KeyMap
  | [] => fun _ => none
  | ev :: T => ev.action.onMap ev.rc (written T)

def DbAction.key : DbAction → List UInt8
  | .begin (.store key _ _) => key
  | .begin (.delete key) => key
  | .delete key => key
  | .finish key _ => key

/-- A replacement that has returned success. -/
def DbEvent.Replaced (ev : DbEvent) (key data : List UInt8) : Prop :=
  ev.rc = some 0 ∧ (ev.action = .begin (.store key data .replace) ∨ ev.action = .finish key data)

theorem written_other {ev : DbEvent} {T : List DbEvent} {key : List UInt8}
    (other : ev.action.key ≠ key) : written (ev :: T) key = written T key := by
  obtain ⟨client, action, rc⟩ := ev
  have away : key ≠ action.key := other.symm
  cases action with
  | begin request =>
      cases request with
      | store k d flag =>
          change (if rc = some 0 then Function.update (written T) k (some d) else written T) key = _
          split_ifs
          · exact Function.update_of_ne away _ _
          · rfl
      | delete k => exact Function.update_of_ne away _ _
  | delete k => exact Function.update_of_ne away _ _
  | finish k d =>
      change (if rc = some 0 then Function.update (written T) k (some d) else written T) key = _
      split_ifs
      · exact Function.update_of_ne away _ _
      · rfl

theorem written_replaced {ev : DbEvent} {T : List DbEvent} {key data : List UInt8}
    (replaced : ev.Replaced key data) : written (ev :: T) key = some data := by
  obtain ⟨success, action⟩ := replaced
  rw [written, success]
  rcases action with first | last
  · rw [first, DbAction.onMap, if_pos rfl, Function.update_self]
  · rw [last, DbAction.onMap, if_pos rfl, Function.update_self]

/-- After a replacement a key has its data, or what a later request has made of it. -/
theorem written_later {ev : DbEvent} {later earlier : List DbEvent} {key data : List UInt8}
    (replaced : ev.Replaced key data) (others : ∀ ev' ∈ later, ev'.action.key ≠ key) :
    written (later ++ ev :: earlier) key = some data := by
  induction later with
  | nil => exact written_replaced replaced
  | cons ev' later ih =>
      rw [List.cons_append, written_other (others ev' List.mem_cons_self)]
      exact ih fun ev'' mem => others ev'' (List.mem_cons_of_mem _ mem)

/-! ### One live record for a key -/

/-- The key has no live record when a longer replacement of it is written, and index records fit. -/
def DbServer.Undisturbed (s : DbServer) (ev : DbEvent) : Prop :=
  match ev.action, s.pending ev.client with
  | .begin (.store key data flag), _ =>
      0 ∉ key ∧ InsertShort s.db key data flag ∧ (flag = .replace → RewriteFits s.db key data)
  | .finish key data, some (.finish _ _ dbd) =>
      (dbFind s.db key).map Prod.fst = some false ∧ Short s.db dbd.idxlenA key data
  | _, _ => True

instance (s : DbServer) (ev : DbEvent) : Decidable (s.Undisturbed ev) := by
  unfold DbServer.Undisturbed
  split <;> infer_instance

/-- What a store in flight has found. -/
structure FoundFor (key data : List UInt8) (dbd : Dbd) : Prop where
  noNul : 0 ∉ key
  limit : data.length ≤ datlenMax
  chainoff : dbd.chainoff = dbChainOff key
  state : dbd.isfree = 0
  idxlen : dbd.idxlen ≤ idxlenMax

def DbSection.Ready : DbSection → Prop
  | .delete key data dbd => FoundFor key data dbd
  | .finish key data dbd => FoundFor key data dbd

/-- The file is what the history says, and the stores in flight know where they are. -/
structure Consistent (T : List DbEvent) (s : DbServer) : Prop where
  refines : Refines s.db (written T)
  ready : ∀ client c, s.pending client = some c → c.Ready

theorem ready_update {pending : ℕ → Option DbSection} {client : ℕ} {new : Option DbSection}
    (ready : ∀ client c, pending client = some c → c.Ready) (here : ∀ c, new = some c → c.Ready) :
    ∀ client' c, Function.update pending client new client' = some c → c.Ready := by
  intro client' c waits
  by_cases same : client' = client
  · subst same
    rw [Function.update_self] at waits
    exact here c waits
  · rw [Function.update_of_ne same] at waits
    exact ready client' c waits

/-- Deleting a key, whether there is a record of it or not. -/
theorem Refines.delete {db db' : Db} {m : KeyMap} {key : List UInt8} {rc : ℤ} (h : Refines db m)
    (run : dbDelete db key = some (rc, db')) : Refines db' (Function.update m key none) := by
  obtain ⟨L, chain, sound, same⟩ := h
  obtain ⟨db₁, L', chain', deleted, sound', holds, _⟩ := sound.delete key
  rw [run] at deleted
  cases deleted
  exact ⟨L', chain', sound', refines_drop same holds⟩

/-- The last section of a replacement of a key without a record. -/
theorem Refines.finish {db db' : Db} {m : KeyMap} {key data : List UInt8} {dbd : Dbd} {rc : ℤ}
    (h : Refines db m) (found : FoundFor key data dbd)
    (absent : (dbFind db key).map Prod.fst = some false) (short : Short db dbd.idxlenA key data)
    (run : dbStoreEnd db dbd key data = some (rc, db')) :
    Refines db' ((DbAction.finish key data).onMap (some rc) m) := by
  obtain ⟨L, chain, sound, same⟩ := h
  have none : contents chain key = [] := by
    cases sound.find key with
    | absent b other result => exact contents_nil other
    | found l₁ e l₂ before b split eq other pred result =>
        rw [result] at absent
        cases absent
  have placed := sound.storeEnd found.chainoff found.state found.idxlen found.noNul found.limit short
  rw [run] at placed
  cases placed with
  | full free space => exact ⟨L, chain, sound, same⟩
  | placed db' L' chain' sound' holds covered =>
      rw [none, ← List.tail_nil, ← none] at holds
      exact ⟨L', chain', sound', refines_put same holds⟩

/-- The first section of a store. -/
theorem Refines.begin {db db' : Db} {m : KeyMap} {key data : List UInt8} {flag : DbFlag}
    {begun : Begun} (h : Refines db m) (noNul : 0 ∉ key) (limit : data.length ≤ datlenMax)
    (short : InsertShort db key data flag) (fits : flag = .replace → RewriteFits db key data)
    (run : dbStoreBegin db key data flag = some (begun, db')) :
    (∃ rc, begun = .returned rc ∧
      Refines db' ((DbAction.begin (.store key data flag)).onMap (some rc) m)) ∨
    (∃ dbd, begun = .longer dbd ∧ FoundFor key data dbd ∧ Refines db' m) := by
  obtain ⟨L, chain, sound, same⟩ := h
  have began := sound.storeBegin noNul limit flag short fits
  generalize dbStoreBegin db key data flag = out at began run
  cases began with
  | missing none =>
      cases run
      exact Or.inl ⟨-1, rfl, L, chain, sound, same⟩
  | present held =>
      cases run
      exact Or.inl ⟨1, rfl, L, chain, sound, same⟩
  | inserted none place out placed =>
      obtain ⟨p, ran, returned⟩ := Option.map_eq_some_iff.mp run
      cases returned
      rw [ran] at placed
      cases placed with
      | full free space => exact Or.inl ⟨2, rfl, L, chain, sound, same⟩
      | placed db' L' chain' sound' holds covered =>
          rw [none, ← List.tail_nil, ← none] at holds
          exact Or.inl ⟨0, rfl, L', chain', sound', refines_put same holds⟩
  | longer l₁ e l₂ before a split eq absent pred result grows =>
      cases run
      have held := sound.threads.held _ (head_dbChainOff key) e (mem_of_split split)
      have valid := sound.laid.valid _ _ held.record
      exact Or.inr ⟨_, rfl, ⟨noNul, limit, rfl, rfl, valid.short⟩, L, chain, sound, same⟩
  | rewritten held db' L' chain' sound' holds covered =>
      cases run
      exact Or.inl ⟨0, rfl, L', chain', sound', refines_put same holds⟩

theorem Consistent.step {T : List DbEvent} {s s' : DbServer} {ev : DbEvent} (h : Consistent T s)
    (meets : s.Undisturbed ev) (step : DbServerStep s ev s') : Consistent (ev :: T) s' := by
  cases step with
  | deleted idle run => exact ⟨h.refines.delete run, h.ready⟩
  | tooLong idle long => exact ⟨h.refines, h.ready⟩
  | returned idle limit run =>
      obtain ⟨noNul, short, fits⟩ := meets
      rcases h.refines.begin noNul limit short fits run with ⟨rc, same, refines⟩ | ⟨dbd, other, _⟩
      · cases same
        exact ⟨refines, h.ready⟩
      · cases other
  | longer idle limit run =>
      obtain ⟨noNul, short, fits⟩ := meets
      rcases h.refines.begin noNul limit short fits run with ⟨rc, other, _⟩ | ⟨dbd, same, found, refines⟩
      · cases other
      · cases same
        refine ⟨refines, ready_update h.ready ?_⟩
        intro c here
        cases here
        exact found
  | @cleared client key data dbd rc db waits run =>
      have found : FoundFor key data dbd := h.ready client _ waits
      refine ⟨h.refines.delete run, ready_update h.ready ?_⟩
      intro c here
      cases here
      exact found
  | @finished client key data dbd rc db waits run =>
      have found : FoundFor key data dbd := h.ready client _ waits
      unfold DbServer.Undisturbed at meets
      dsimp only at meets
      rw [waits] at meets
      refine ⟨h.refines.finish found meets.1 meets.2 run, ready_update h.ready ?_⟩
      intro c here
      cases here

/-- The record at an offset has a key. -/
def holdsKey (f : ByteFile) (key : List UInt8) (offset : ℕ) : Bool :=
  (dbReadidx f offset).any fun d => d.idxbuf = key

/-- A chain has at most one record of a key. -/
theorem Refines.live {db : Db} {m : KeyMap} (h : Refines db m) (key : List UInt8) :
    ∃ offsets, Walks db.idx (dbChainOff key) offsets ∧
      (offsets.filter (holdsKey db.idx key)).length ≤ 1 := by
  obtain ⟨L, chain, sound, same⟩ := h
  have head := head_dbChainOff key
  refine ⟨_, sound.walks head, ?_⟩
  have count : ((chain (dbChainOff key)).map Entry.offset).filter (holdsKey db.idx key) =
      ((chain (dbChainOff key)).filter fun e => e.record.key = key).map Entry.offset := by
    rw [List.filter_map]
    apply congrArg
    apply List.filter_congr
    intro e mem
    rw [Function.comp_apply, holdsKey, sound.readidx head mem]
    rfl
  have length : (contents chain key).length ≤ 1 := by
    rw [same key]
    cases m key
    · exact Nat.zero_le 1
    · exact Nat.le_refl 1
  rw [count, List.length_map]
  rw [contents, List.length_map] at length
  exact length

/-- As long as no record of the key is live when a longer replacement of it is written, each key has
at most one live record, and a replacement is found until a later request changes the key. -/
theorem one_live_record {T : List DbEvent} {s : DbServer}
    (run : Run (Guarded DbServer.Undisturbed DbServerStep) DbServer.start T s) :
    (∀ key, ∃ offsets, Walks s.db.idx (dbChainOff key) offsets ∧
      (offsets.filter (holdsKey s.db.idx key)).length ≤ 1) ∧
    (∀ key, dbFetch s.db key = some (written T key)) ∧
    ∀ later ev earlier key data, T = later ++ ev :: earlier → ev.Replaced key data →
      (∀ ev' ∈ later, ev'.action.key ≠ key) → dbFetch s.db key = some (some data) := by
  have consistent : Consistent T s := by
    apply run.history (I := Consistent)
    · refine ⟨Refines.fresh, ?_⟩
      intro client c waits
      cases waits
    · intro T s ev s' before step
      exact before.step step.1 step.2
  refine ⟨consistent.refines.live, consistent.refines.fetch, ?_⟩
  intro later ev earlier key data split replaced others
  rw [consistent.refines.fetch key, split, written_later replaced others]

/-- A record is replaced by a longer one while another client inserts one of the given key. -/
def crossing (key : List UInt8) : List DbEvent :=
  [⟨1, .finish [98] [2, 2], some 0⟩, ⟨2, .begin (.store key [3] .insert), some 0⟩,
    ⟨1, .delete [98], none⟩, ⟨1, .begin (.store [98] [2, 2] .replace), none⟩,
    ⟨0, .begin (.store [98] [1] .insert), some 0⟩]

/-- The other key is on the same chain. -/
theorem one_live_record_crossing : dbChainOff [96, 1] = dbChainOff [98] ∧
    ∃ s, Run (Guarded DbServer.Undisturbed DbServerStep) DbServer.start (crossing [96, 1]) s ∧
      dbFetch s.db [98] = some (some [2, 2]) ∧ dbFetch s.db [96, 1] = some (some [3]) := by
  have ends : (reach (fun s ev => if s.Undisturbed ev then s.take ev else none) DbServer.start
      (crossing [96, 1])).isSome = true := by decide +kernel
  obtain ⟨s, ends⟩ := Option.isSome_iff_exists.mp ends
  have run : Run (Guarded DbServer.Undisturbed DbServerStep) DbServer.start (crossing [96, 1]) s := by
    apply run_of_reach _ ends
    intro s ev s' h
    split_ifs at h with meets
    exact ⟨meets, s.take_sound ev s' h⟩
  obtain ⟨_, found, _⟩ := one_live_record run
  exact ⟨by decide +kernel, s, run, found [98], found [96, 1]⟩

/-- The key itself is inserted between the sections of the replacement. -/
theorem two_live_records : ¬ ∀ (T : List DbEvent) (s : DbServer),
    Run DbServerStep DbServer.start T s → ∀ key, ∃ offsets,
      Walks s.db.idx (dbChainOff key) offsets ∧
        (offsets.filter (holdsKey s.db.idx key)).length ≤ 1 := by
  intro claim
  have facts : (reach DbServer.take DbServer.start (crossing [98])).map (fun s =>
      (fileNext s.db.idx (dbChainOff [98]), fileNext s.db.idx (idxBase + 25),
        fileNext s.db.idx idxBase, holdsKey s.db.idx [98] (idxBase + 25),
        holdsKey s.db.idx [98] idxBase)) =
      some (some (some (idxBase + 25)), some (some idxBase), some none, true, true) := by
    decide +kernel
  obtain ⟨s, ends, facts⟩ := Option.map_eq_some_iff.mp facts
  simp only [Prod.mk.injEq] at facts
  obtain ⟨first, second, third, held, held'⟩ := facts
  obtain ⟨offsets, walks, few⟩ := claim _ s (run_of_reach DbServer.take_sound ends) [98]
  have both : Walks s.db.idx (dbChainOff [98]) [idxBase + 25, idxBase] :=
    .cons first (.cons second (.cons third .nil))
  have same := (List.cons.inj (walks.unique both)).2
  rw [same, List.filter_cons_of_pos held, List.filter_cons_of_pos held', List.filter_nil] at few
  exact absurd few (by decide)

end BloomServer
