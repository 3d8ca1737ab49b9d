import BloomServer.Library.Holders
import BloomServer.Library.LabelledRun

/-! `mylock`: a lock for every id, kept in one map of the ids held, with a mutex for all ids of one
remainder. A section under `map_rwlock_` is one step. -/
namespace BloomServer
open LabelledRun

abbrev LockId := UInt64

def myLockHashSize : UInt64 := 1024

def lockHash (id : LockId) : UInt64 := id % myLockHashSize

inductive LockCall
  | get
  | put
  deriving DecidableEq

/-- Where a thread is in its call. -/
inductive LockPc
  | idle
  | enter (call : LockCall) (id : LockId)  -- about to take the mutex
  | look (id : LockId)
  | claim (id : LockId)
  | erase (id : LockId)
  | leave (id : LockId) (locked : Bool)    -- about to give the mutex up
  deriving DecidableEq

/-- The id whose mutex the thread has taken. -/
def LockPc.inside : LockPc → Option LockId
  | .idle | .enter _ _ => none
  | .look id | .claim id | .erase id | .leave id _ => some id

/-- The lock with its callers, and who holds what: an id is held from the section that enters it
into `locks_` to the one that erases it. -/
structure MyLock (T : Type*) where
  mutexs : UInt64 → Option T
  locks : LockId → Option Int32
  pc : T → LockPc
  held : List (LockId × T)

namespace MyLock

variable {T : Type*} [DecidableEq T]

def start : MyLock T := ⟨fun _ => none, fun _ => none, fun _ => .idle, []⟩

def goto (s : MyLock T) (t : T) (pc : LockPc) : MyLock T :=
  { s with pc := Function.update s.pc t pc }

/-- `iter->second > 0` for the entry of an id. -/
def lockedNow (s : MyLock T) (id : LockId) : Bool :=
  match s.locks id with
  | some value => decide (0 < value)
  | none => false

/-- A thread takes a step; it puts only what it holds. -/
inductive Step : MyLock T → T → MyLock T → Prop
  | get {s t} (id : LockId) (here : s.pc t = .idle) : Step s t (s.goto t (.enter .get id))
  | put {s t} (id : LockId) (here : s.pc t = .idle) (mine : (id, t) ∈ s.held) :
      Step s t (s.goto t (.enter .put id))
  | lockGet {s t id} (here : s.pc t = .enter .get id) (free : s.mutexs (lockHash id) = none) :
      Step s t ({ s with mutexs := Function.update s.mutexs (lockHash id) (some t) }.goto t
        (.look id))
  | lockPut {s t id} (here : s.pc t = .enter .put id) (free : s.mutexs (lockHash id) = none) :
      Step s t ({ s with mutexs := Function.update s.mutexs (lockHash id) (some t) }.goto t
        (.erase id))
  | look {s t id} (here : s.pc t = .look id) :
      Step s t (s.goto t (if s.lockedNow id then .leave id true else .claim id))
  | claim {s t id} (here : s.pc t = .claim id) :
      Step s t ({ s with
        locks := Function.update s.locks id (some 1)
        held := (id, t) :: s.held }.goto t (.leave id false))
  | erase {s t id} (here : s.pc t = .erase id) :
      Step s t ({ s with
        locks := Function.update s.locks id none
        held := s.held.erase (id, t) }.goto t (.leave id false))
  | leave {s t id locked} (here : s.pc t = .leave id locked) :
      Step s t ({ s with mutexs := Function.update s.mutexs (lockHash id) none }.goto t
        (if locked then .enter .get id else .idle))

/-- The ids that some thread holds. -/
def heldIds (s : MyLock T) : List LockId := s.held.map Prod.fst

/-- The threads agree with the mutexes, and the map with what is held. -/
structure Consistent (s : MyLock T) : Prop where
  owner : ∀ t id, (s.pc t).inside = some id → s.mutexs (lockHash id) = some t
  clear : ∀ t id, s.pc t = .claim id → id ∉ s.heldIds
  mine : ∀ t id, s.pc t = .enter .put id ∨ s.pc t = .erase id → (id, t) ∈ s.held
  distinct : s.heldIds.Nodup
  entries : ∀ id, s.locks id = if id ∈ s.heldIds then some 1 else none

variable {s s' : MyLock T} {t u : T} {id : LockId} {pc : LockPc}

@[simp] theorem goto_pc_self (s : MyLock T) (t : T) (pc : LockPc) : (s.goto t pc).pc t = pc :=
  Function.update_self ..

theorem goto_pc_of_ne (other : u ≠ t) : (s.goto t pc).pc u = s.pc u :=
  Function.update_of_ne other ..

omit [DecidableEq T] in
theorem Consistent.start : Consistent (start : MyLock T) where
  owner := by
    intro t id inside
    cases inside
  clear := by
    intro t id here
    cases here
  mine := by
    rintro t id (here | here) <;> cases here
  distinct := List.nodup_nil
  entries := fun _ => rfl

omit [DecidableEq T] in
/-- Two threads are never inside the mutex of one id. -/
theorem Consistent.alone (held : s.Consistent) (here : (s.pc t).inside = some id)
    (there : (s.pc u).inside = some id) : u = t := by
  have first := held.owner t id here
  rw [held.owner u id there] at first
  exact Option.some.inj first

omit [DecidableEq T] in
/-- `get` finds an id locked exactly if it is held. -/
theorem Consistent.lockedNow_iff (held : s.Consistent) : s.lockedNow id = true ↔ id ∈ s.heldIds := by
  unfold lockedNow
  rw [held.entries id]
  by_cases mem : id ∈ s.heldIds
  · simp only [mem, if_true, iff_true]
    decide
  · simp only [mem, if_false, Bool.false_eq_true]

/-- A step that changes nothing but where its thread is. -/
theorem Consistent.goto (held : s.Consistent)
    (owner : ∀ id, pc.inside = some id → s.mutexs (lockHash id) = some t)
    (clear : ∀ id, pc = .claim id → id ∉ s.heldIds)
    (mine : ∀ id, pc = .enter .put id ∨ pc = .erase id → (id, t) ∈ s.held) :
    (s.goto t pc).Consistent where
  owner := by
    intro u id inside
    by_cases same : u = t
    · subst same
      rw [goto_pc_self] at inside
      exact owner id inside
    · rw [goto_pc_of_ne same] at inside
      exact held.owner u id inside
  clear := by
    intro u id here
    by_cases same : u = t
    · subst same
      rw [goto_pc_self] at here
      exact clear id here
    · rw [goto_pc_of_ne same] at here
      exact held.clear u id here
  mine := by
    intro u id here
    by_cases same : u = t
    · subst same
      rw [goto_pc_self] at here
      exact mine id here
    · rw [goto_pc_of_ne same] at here
      exact held.mine u id here
  distinct := held.distinct
  entries := held.entries

omit [DecidableEq T] in
/-- Taking a mutex nobody has. -/
theorem Consistent.lock (held : s.Consistent) (free : s.mutexs (lockHash id) = none) :
    Consistent { s with mutexs := Function.update s.mutexs (lockHash id) (some t) } where
  owner := by
    intro u id' inside
    have old := held.owner u id' inside
    have other : lockHash id' ≠ lockHash id := by
      intro same
      rw [same, free] at old
      cases old
    rw [← old]
    exact Function.update_of_ne other ..
  clear := held.clear
  mine := held.mine
  distinct := held.distinct
  entries := held.entries

omit [DecidableEq T] in
/-- Giving up the mutex of an id outside of its sections. -/
theorem Consistent.unlock (held : s.Consistent) (taken : s.mutexs (lockHash id) = some t)
    (out : (s.pc t).inside = none) :
    Consistent { s with mutexs := Function.update s.mutexs (lockHash id) none } where
  owner := by
    intro u id' inside
    have old := held.owner u id' inside
    have other : lockHash id' ≠ lockHash id := by
      intro same
      rw [same, taken] at old
      cases old
      rw [out] at inside
      cases inside
    rw [← old]
    exact Function.update_of_ne other ..
  clear := held.clear
  mine := held.mine
  distinct := held.distinct
  entries := held.entries

omit [DecidableEq T] in
/-- Entering an id that nobody holds, with its mutex. -/
theorem Consistent.claim (held : s.Consistent) (taken : s.mutexs (lockHash id) = some t)
    (here : s.pc t = .leave id false) (unheld : id ∉ s.heldIds) :
    Consistent { s with
      locks := Function.update s.locks id (some 1)
      held := (id, t) :: s.held } where
  owner := held.owner
  clear := by
    intro u id' there
    have inside : (s.pc u).inside = some id' := by rw [there]; rfl
    intro mem
    rcases List.mem_cons.mp mem with same | old
    · change id' = id at same
      subst same
      have first := held.owner u id' inside
      rw [taken] at first
      cases first
      rw [here] at there
      cases there
    · exact held.clear u id' there old
  mine := by
    intro u id' there
    exact List.mem_cons_of_mem _ (held.mine u id' there)
  distinct := List.nodup_cons.mpr ⟨unheld, held.distinct⟩
  entries := by
    intro id'
    by_cases same : id' = id
    · subst same
      simp [heldIds]
    · have old := held.entries id'
      simp only [heldIds, List.map_cons, List.mem_cons, same, false_or,
        Function.update_of_ne same]
      exact old

/-- Erasing an id of one's own, with its mutex. -/
theorem Consistent.erase (held : s.Consistent) (here : s.pc t = .leave id false)
    (mine : (id, t) ∈ s.held) :
    Consistent { s with
      locks := Function.update s.locks id none
      held := s.held.erase (id, t) } where
  owner := held.owner
  clear := by
    intro u id' there mem
    exact held.clear u id' there ((Holders.mem_keys_erase held.distinct mine).mp mem).2
  mine := by
    intro u id' there
    have other : (id', u) ≠ (id, t) := by
      intro same
      cases same
      change s.pc t = _ ∨ s.pc t = _ at there
      rw [here] at there
      rcases there with h | h <;> cases h
    exact (List.mem_erase_of_ne other).mpr (held.mine u id' there)
  distinct := Holders.nodup_keys_erase held.distinct
  entries := by
    intro id'
    have rest : id' ∈ (s.held.erase (id, t)).map Prod.fst ↔ id' ≠ id ∧ id' ∈ s.heldIds :=
      Holders.mem_keys_erase held.distinct mine
    by_cases same : id' = id
    · subst same
      have gone : id' ∉ (s.held.erase (id', t)).map Prod.fst := fun mem => (rest.mp mem).1 rfl
      simp only [heldIds, Function.update_self, gone, if_false]
    · have old := held.entries id'
      simp only [heldIds, rest, same, ne_eq, not_false_eq_true, true_and,
        Function.update_of_ne same]
      exact old

/-- A thread comes to the end of its section. -/
theorem Consistent.pass (held : s.Consistent) (inside : (s.pc t).inside = some id) (locked : Bool) :
    (s.goto t (.leave id locked)).Consistent := by
  apply held.goto
  · intro _ same
    cases same
    exact held.owner t id inside
  · intro _ same
    cases same
  · rintro _ (same | same) <;> cases same

theorem Consistent.step (held : s.Consistent) (step : Step s t s') : s'.Consistent := by
  cases step with
  | get id here =>
      apply held.goto
      · intro _ inside
        cases inside
      · intro _ same
        cases same
      · rintro _ (same | same) <;> cases same
  | put id here mine =>
      apply held.goto
      · intro _ inside
        cases inside
      · intro _ same
        cases same
      · rintro _ (same | same)
        · cases same
          exact mine
        · cases same
  | lockGet here free =>
      apply (held.lock free).goto
      · intro _ inside
        cases inside
        exact Function.update_self ..
      · intro _ same
        cases same
      · rintro _ (same | same) <;> cases same
  | lockPut here free =>
      apply (held.lock free).goto
      · intro _ inside
        cases inside
        exact Function.update_self ..
      · intro _ same
        cases same
      · rintro _ (same | same)
        · cases same
        · cases same
          exact held.mine t _ (.inl here)
  | @look id here =>
      have inside : (s.pc t).inside = some id := by rw [here]; rfl
      by_cases found : s.lockedNow id = true
      · rw [if_pos found]
        exact held.pass inside true
      · rw [if_neg found]
        apply held.goto
        · intro _ same
          cases same
          exact held.owner t id inside
        · intro _ same
          cases same
          exact fun mem => found (held.lockedNow_iff.mpr mem)
        · rintro _ (same | same) <;> cases same
  | @claim id here =>
      have inside : (s.pc t).inside = some id := by rw [here]; rfl
      exact (held.pass inside false).claim (held.owner t id inside) (goto_pc_self ..)
        (held.clear t id here)
  | @erase id here =>
      have inside : (s.pc t).inside = some id := by rw [here]; rfl
      exact (held.pass inside false).erase (goto_pc_self ..) (held.mine t id (.inr here))
  | @leave id locked here =>
      have out : (if locked then LockPc.enter .get id else .idle).inside = none := by
        cases locked <;> rfl
      have moved : (s.goto t (if locked then .enter .get id else .idle)).Consistent := by
        apply held.goto
        · intro _ inside
          rw [out] at inside
          cases inside
        · intro _ same
          cases locked <;> cases same
        · rintro _ (same | same) <;> cases locked <;> cases same
      exact moved.unlock (held.owner t id (by rw [here]; rfl)) (by rw [goto_pc_self]; exact out)

/-- Nobody else enters or erases an id while a thread is inside its mutex. -/
theorem Consistent.heldIds_step (held : s.Consistent) (inside : (s.pc t).inside = some id)
    (step : Step s u s') (other : u ≠ t) : id ∈ s'.heldIds ↔ id ∈ s.heldIds := by
  cases step with
  | @claim id' here =>
      have apart : id ≠ id' := by
        rintro rfl
        exact other (held.alone inside (by rw [here]; rfl))
      exact List.mem_cons.trans (or_iff_right apart)
  | @erase id' here =>
      have apart : id ≠ id' := by
        rintro rfl
        exact other (held.alone inside (by rw [here]; rfl))
      exact (Holders.mem_keys_erase held.distinct (held.mine u id' (.inr here))).trans
        (and_iff_right apart)
  | _ => rfl

/-- Another thread does not move this one. -/
theorem Step.pc_of_ne (step : Step s u s') (other : t ≠ u) : s'.pc t = s.pc t := by
  cases step <;> exact goto_pc_of_ne other

/-- How far an attempt to get an id has come since it took the mutex. -/
def Progress (t : T) (id : LockId) (s : MyLock T) : ℕ → Prop
  | 0 => s.pc t = .look id ∧ id ∉ s.heldIds
  | 1 => s.pc t = .claim id
  | 2 => s.pc t = .leave id false ∧ (id, t) ∈ s.held
  | _ => True

/-- An id is given up only by the thread that holds it. -/
theorem Step.kept (step : Step s u s') (other : u ≠ t) (mine : (id, t) ∈ s.held) :
    (id, t) ∈ s'.held := by
  cases step with
  | claim here => exact List.mem_cons_of_mem _ mine
  | @erase id' here =>
      have apart : (id, t) ≠ (id', u) := by
        intro same
        cases same
        exact other rfl
      exact (List.mem_erase_of_ne apart).mpr mine
  | _ => exact mine

theorem Progress.others {n : ℕ} (held : s.Consistent) (far : Progress t id s n) (step : Step s u s')
    (other : u ≠ t) : Progress t id s' n := by
  have stays : s'.pc t = s.pc t := step.pc_of_ne other.symm
  match n with
  | 0 =>
      have inside : (s.pc t).inside = some id := by rw [far.1]; rfl
      exact ⟨stays.trans far.1, fun mem => far.2 ((held.heldIds_step inside step other).mp mem)⟩
  | 1 => exact stays.trans far
  | 2 => exact ⟨stays.trans far.1, step.kept other far.2⟩
  | _ + 3 => trivial

theorem Progress.own {n : ℕ} (held : s.Consistent) (far : Progress t id s n) (step : Step s t s') :
    Progress t id s' (n + 1) := by
  match n with
  | 0 =>
      obtain ⟨here, unheld⟩ := far
      cases step with
      | look found =>
          rw [here] at found
          cases found
          have free : ¬ s.lockedNow id = true := fun yes => unheld (held.lockedNow_iff.mp yes)
          rw [if_neg free]
          exact goto_pc_self ..
      | _ => simp_all
  | 1 =>
      have here : s.pc t = .claim id := far
      cases step with
      | claim found =>
          rw [here] at found
          cases found
          exact ⟨goto_pc_self .., List.mem_cons_self⟩
      | _ => simp_all
  | _ + 2 => trivial

/-- What the callers of the lock rely on. -/
structure Exclusive (s : MyLock T) : Prop where
  once : s.heldIds.Nodup
  alone : ∀ id t u, (id, t) ∈ s.held → (id, u) ∈ s.held → t = u
  entries : ∀ id, s.locks id ≠ none ↔ ∃ t, (id, t) ∈ s.held
  -- an attempt that has the mutex takes two sections to get an id nobody holds
  next : ∀ t id, s.pc t = .look id → (∀ u, (id, u) ∉ s.held) →
    ∀ l s', Run Step s l s' → l.count t = 2 → (id, t) ∈ s'.held

theorem Consistent.gets {l : List T} (held : s.Consistent) (here : s.pc t = .look id)
    (unheld : id ∉ s.heldIds) (more : Run Step s l s') (turns : l.count t = 2) :
    (id, t) ∈ s'.held := by
  have far : s'.Consistent ∧ Progress t id s' (l.count t) := by
    apply more.history (I := fun l s => s.Consistent ∧ Progress t id s (l.count t))
    · exact ⟨held, here, unheld⟩
    · rintro l v u w ⟨held, far⟩ step
      refine ⟨held.step step, ?_⟩
      by_cases same : u = t
      · subst same
        rw [List.count_cons_self]
        exact far.own held step
      · rw [List.count_cons_of_ne same]
        exact far.others held step same
  have done := far.2
  rw [turns] at done
  exact done.2

theorem Consistent.exclusive (held : s.Consistent) : s.Exclusive where
  once := held.distinct
  alone := by
    intro id t u first second
    exact Holders.holder_unique held.distinct first second
  entries := by
    intro id
    rw [held.entries id, ← Holders.mem_keys]
    change _ ↔ id ∈ s.heldIds
    by_cases mem : id ∈ s.heldIds <;> simp [mem]
  next := by
    intro t id here unheld l s' more turns
    apply held.gets here _ more turns
    intro mem
    obtain ⟨u, there⟩ := Holders.mem_keys.mp mem
    exact unheld u there

end MyLock

/-- At most one thread holds an id, the map has an entry for exactly the ids held, and an attempt to
get an id nobody holds succeeds, whoever else comes in between. -/
theorem ids_locked_exclusively {T : Type*} [DecidableEq T] {l : List T} {s : MyLock T}
    (run : Run MyLock.Step MyLock.start l s) : s.Exclusive := by
  have held : s.Consistent := by
    apply run.invariant
    · exact .start
    · intro t u v held step
      exact held.step step
  exact held.exclusive

/-- One thread holds the id 5 while another one has the same mutex for the id 1029. -/
theorem ids_locked_exclusively_twice : ∃ s : MyLock (Fin 2),
    (5, 0) ∈ s.held ∧ s.pc 1 = .look 1029 ∧ s.Exclusive := by
  have get := MyLock.Step.get (s := MyLock.start) (t := (0 : Fin 2)) 5 rfl
  have lock := (Run.single get).snoc (.lockGet (t := 0) rfl rfl)
  have look := lock.snoc (.look (t := 0) rfl)
  have claim := look.snoc (.claim (t := 0) rfl)
  have leave := claim.snoc (.leave (t := 0) rfl)
  have other := leave.snoc (.get (t := 1) 1029 rfl)
  have taken := other.snoc (.lockGet (t := 1) rfl rfl)
  exact ⟨_, List.mem_cons_self, rfl, ids_locked_exclusively taken⟩

end BloomServer
