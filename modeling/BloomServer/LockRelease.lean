import BloomServer.LockedCalls

/-! Which locks an operation leaves held, over whole runs, and what an addition that fails
does to the store. -/
namespace BloomServer
open LabelledRun Act

/-- An operation that a thread has left, with the value it returned if it returned. -/
structure Leave where
  thread : Thread
  op : Operation
  value : Option Int

inductive Leaves (E : Env) (m : Machine) : Leave → Machine → Prop
  | returned {t op r m'} (run : op.exec E t m = .ok r m') : Leaves E m ⟨t, op, some r⟩ m'
  | thrown {t op m'} (run : op.exec E t m = .error .thrown m') : Leaves E m ⟨t, op, none⟩ m'

/-- The thread holds none of the three locks. -/
def Machine.HoldsNone (m : Machine) (t : Thread) : Prop := ∀ x, ¬ (m.locks x).HeldBy t

theorem quiet_holdsNone (σ : Store) (t : Thread) : (quiet σ).HoldsNone t :=
  fun _ => RwLock.not_heldBy_free t

theorem Throws.eq_badAlloc {E : Env} {σ : Store} {key : CString} {n : UInt64} {e : Float}
    {mem : Alloc} (throws : Throws E σ key n e mem) : bloomsAdd E mem key n e σ = .error .badAlloc := by
  obtain ⟨search, accepted, vector⟩ := throws
  rw [bloomsAdd_eq, search]
  simp only [bind, Except.bind, bloomInit_badAlloc accepted vector]

/-- What must hold for an operation to release its locks: no exception leaves it, and it is not
`blooms_dump1`. -/
def Graceful (E : Env) (σ : Store) : Operation → Prop
  | .add key n e mem => ¬ Throws E σ key n e mem
  | .set _ _ | .get _ _ | .delete _ => True
  | .dump1 _ => False
  | .load (.restored _ _) => True
  | .load .headerThrows | .load (.bodyThrows _) => False

/-- The locks while a thread has taken one of them for writing. -/
def writing (t : Thread) (x : LockName) : LockName → RwLock Thread :=
  Function.update (fun _ => .free) x ⟨some t, []⟩

theorem wrLock_quiet (t : Thread) (x : LockName) (σ : Store) :
    wrLock t x (quiet σ) = .ok () ⟨σ, writing t x⟩ := wrLock_of_free rfl

theorem graceful_of_vector {E : Env} {σ : Store} {key : CString} {n : UInt64} {e : Float}
    {mem : Alloc} (vector : mem.newVector = true) : Graceful E σ (.add key n e mem) := by
  rintro ⟨_, _, fails⟩
  cases vector.symm.trans fails

theorem lockedDump1_holds (t : Thread) (outcome : Writing) (σ : Store) :
    ∃ m, (m.locks .dump).HeldBy t ∧ (lockedDump1 t outcome (quiet σ) = .ok 0 m ∨
      lockedDump1 t outcome (quiet σ) = .error .thrown m) := by
  unfold lockedDump1
  rw [bind_ok (wrLock_quiet t .dump σ)]
  by_cases early : outcome = .headerThrows
  · subst early
    exact ⟨⟨σ, writing t .dump⟩, Or.inl rfl, Or.inr rfl⟩
  · have header : outcome.header ⟨σ, writing t .dump⟩ = .ok () ⟨σ, writing t .dump⟩ := by
      cases outcome with
      | headerThrows => exact absurd rfl early
      | written | bodyThrows => rfl
    have read : rdLock t .hash ⟨σ, writing t .dump⟩ =
      .ok () ⟨σ, Function.update (writing t .dump) .hash ⟨none, [t]⟩⟩ := rdLock_of_free rfl
    rw [bind_ok header, bind_ok read]
    cases outcome with
    | headerThrows => exact absurd rfl early
    | bodyThrows =>
        exact ⟨⟨σ, Function.update (writing t .dump) .hash ⟨none, [t]⟩⟩, Or.inl rfl, Or.inr rfl⟩
    | written =>
        have unlock : rwUnlock t .hash ⟨σ, Function.update (writing t .dump) .hash ⟨none, [t]⟩⟩ =
          .ok () ⟨σ, Function.update (Function.update (writing t .dump) .hash ⟨none, [t]⟩) .hash
            .free⟩ := rwUnlock_of_held (Or.inr rfl)
        have ends := bind_ok (f := fun _ => (pure 0 : Act Int)) unlock
        exact ⟨_, Or.inl rfl, Or.inl ends⟩

theorem rwInit_quiet (σ : Store) (x : LockName) : rwInit x (quiet σ) = .ok () (quiet σ) := by
  change EStateM.Result.ok () (⟨σ, Function.update (fun _ => .free) x .free⟩ : Machine) = _
  rw [Function.update_eq_self_iff.mpr rfl]
  rfl

theorem lockedLoad_restored (t : Thread) (archive : Archive) (junk : Nat → UInt64) (σ : Store) :
    lockedLoad t (.restored archive junk) (quiet σ) = .ok 0 (quiet (archive.load σ.heap junk)) := by
  have header : (Reading.restored archive junk).header ⟨σ, writing t .dump⟩ =
    .ok () ⟨σ, writing t .dump⟩ := rfl
  have both : wrLock t .hash ⟨σ, writing t .dump⟩ =
    .ok () ⟨σ, Function.update (writing t .dump) .hash ⟨some t, []⟩⟩ := wrLock_of_free rfl
  have body : (Reading.restored archive junk).body
      ⟨σ, Function.update (writing t .dump) .hash ⟨some t, []⟩⟩ =
    .ok () ⟨archive.load σ.heap junk, Function.update (writing t .dump) .hash ⟨some t, []⟩⟩ := rfl
  unfold lockedLoad
  rw [bind_ok (rwInit_quiet σ .dump), bind_ok (wrLock_quiet t .dump σ), bind_ok header,
    bind_ok both, bind_ok body, bind_ok (rwUnlock_of_held (Or.inl rfl)),
    bind_ok (rwUnlock_of_held (Or.inl rfl))]
  change EStateM.Result.ok _ _ = _
  congr 2
  funext x
  cases x <;> rfl

theorem lockedLoad_throws (t : Thread) {outcome : Reading}
    (broken : outcome = .headerThrows ∨ ∃ left, outcome = .bodyThrows left) (σ : Store) :
    ∃ m, (m.locks .dump).HeldBy t ∧ lockedLoad t outcome (quiet σ) = .error .thrown m := by
  unfold lockedLoad
  rw [bind_ok (rwInit_quiet σ .dump), bind_ok (wrLock_quiet t .dump σ)]
  rcases broken with rfl | ⟨left, rfl⟩
  · exact ⟨⟨σ, writing t .dump⟩, Or.inl rfl, rfl⟩
  · have header : (Reading.bodyThrows left).header ⟨σ, writing t .dump⟩ =
      .ok () ⟨σ, writing t .dump⟩ := rfl
    have both : wrLock t .hash ⟨σ, writing t .dump⟩ =
      .ok () ⟨σ, Function.update (writing t .dump) .hash ⟨some t, []⟩⟩ := wrLock_of_free rfl
    rw [bind_ok header, bind_ok both]
    exact ⟨⟨left, Function.update (writing t .dump) .hash ⟨some t, []⟩⟩, Or.inl rfl, rfl⟩

/-- How any operation ends when it starts on free locks. -/
inductive QuietEnd (E : Env) (t : Thread) (σ : Store) (op : Operation) :
    EStateM.Result Failure Machine Int → Prop
  | clean {r τ} (graceful : Graceful E σ op) : QuietEnd E t σ op (.ok r (quiet τ))
  | crashed {s m} : QuietEnd E t σ op (.error (.crashed s) m)
  | stuck {res m x} (rough : ¬ Graceful E σ op) (held : (m.locks x).HeldBy t)
      (left : (∃ r, res = .ok r m) ∨ res = .error .thrown m) : QuietEnd E t σ op res

theorem Ends.quietEnd {E : Env} {t : Thread} {σ : Store} {op : Operation}
    {run : Except Stop (Int × Store)} {res : EStateM.Result Failure Machine Int}
    (ends : Ends (fun _ => False) run res) (graceful : Graceful E σ op) :
    QuietEnd E t σ op res := by
  cases ends with
  | returned => exact .clean graceful
  | thrown left => exact left.elim
  | crashed => exact .crashed

/-- The step lemma, one case for each operation. -/
theorem Operation.exec_quiet (E : Env) (t : Thread) (σ : Store) (op : Operation) :
    QuietEnd E t σ op (op.exec E t (quiet σ)) := by
  cases op with
  | add key n e mem =>
      have ends := lockedAdd_ends E t mem key n e σ
      change QuietEnd E t σ _ (lockedAdd E t mem key n e (quiet σ))
      generalize same : bloomsAdd E mem key n e σ = run at ends
      generalize lockedAdd E t mem key n e (quiet σ) = res at ends
      cases ends with
      | returned =>
          apply QuietEnd.clean
          intro throws
          cases throws.eq_badAlloc.symm.trans same
      | thrown left =>
          obtain ⟨throws, _, held⟩ := left
          exact .stuck (fun graceful => graceful throws) held (Or.inr rfl)
      | crashed => exact .crashed
  | set key subkey => exact (lockedSet_ends E t key subkey σ).quietEnd trivial
  | get key subkey => exact (lockedGet_ends E t key subkey σ).quietEnd trivial
  | delete key => exact (lockedDelete_ends t key σ).quietEnd trivial
  | dump1 outcome =>
      obtain ⟨m, held, left⟩ := lockedDump1_holds t outcome σ
      exact .stuck not_false held (left.imp (fun run => ⟨0, run⟩) id)
  | load outcome =>
      cases outcome with
      | restored archive junk =>
          change QuietEnd E t σ _ (lockedLoad t _ (quiet σ))
          rw [lockedLoad_restored]
          exact .clean trivial
      | headerThrows =>
          obtain ⟨m, held, run⟩ := lockedLoad_throws t (Or.inl rfl) σ
          exact .stuck not_false held (Or.inr run)
      | bodyThrows left =>
          obtain ⟨m, held, run⟩ := lockedLoad_throws t (Or.inr ⟨left, rfl⟩) σ
          exact .stuck not_false held (Or.inr run)

theorem Leaves.of_quiet {E : Env} {σ : Store} {l : Leave} {m : Machine}
    (left : Leaves E (quiet σ) l m) :
    (Graceful E σ l.op ∧ ∃ τ, m = quiet τ) ∨
      (¬ Graceful E σ l.op ∧ ¬ m.HoldsNone l.thread) := by
  cases left with
  | @returned t op r _ run =>
      have ends := op.exec_quiet E t σ
      rw [run] at ends
      cases ends with
      | clean graceful => exact Or.inl ⟨graceful, _, rfl⟩
      | stuck rough held left =>
          rcases left with ⟨_, same⟩ | same
          · cases same
            exact Or.inr ⟨rough, fun none => none _ held⟩
          · cases same
  | @thrown t op _ run =>
      have ends := op.exec_quiet E t σ
      rw [run] at ends
      cases ends with
      | stuck rough held left =>
          rcases left with ⟨_, same⟩ | same
          · cases same
          · cases same
            exact Or.inr ⟨rough, fun none => none _ held⟩

theorem Leaves.deterministic {E : Env} {m m₁ m₂ : Machine} {l : Leave} (h : Leaves E m l m₁)
    (k : Leaves E m l m₂) : m₁ = m₂ := by
  cases h with
  | returned run =>
      cases k with
      | returned run' => cases run.symm.trans run'; rfl
  | thrown run =>
      cases k with
      | thrown run' => cases run.symm.trans run'; rfl

/-! ### An addition that fails changes nothing, whatever the locks -/

/-- Unless the operation returns 0 the store is still `σ`. -/
def Spares (σ : Store) : EStateM.Result Failure Machine Int → Prop
  | .ok r m => r ≠ 0 → m.store = σ
  | .error .thrown m => m.store = σ
  | .error _ _ => True

namespace Spares

variable {σ : Store} {α : Type} {t : Thread} {x : LockName} {m : Machine}

theorem wrLock {g : Unit → Act Int} (next : ∀ L, Spares σ (g () ⟨m.store, L⟩)) :
    Spares σ ((Act.wrLock t x >>= g) m) := by
  change Spares σ (EStateM.bind (Act.wrLock t x) g m)
  unfold EStateM.bind Act.wrLock
  cases (m.locks x).wrLock t with
  | none => exact trivial
  | some l => exact next _

theorem rwUnlock {g : Unit → Act Int} (next : ∀ L, Spares σ (g () ⟨m.store, L⟩)) :
    Spares σ ((Act.rwUnlock t x >>= g) m) := next _

theorem read {h : Store → Except Stop α} {g : α → Act Int} (next : ∀ a, Spares σ (g a m)) :
    Spares σ ((Act.read h >>= g) m) := by
  change Spares σ (EStateM.bind (Act.read h) g m)
  unfold EStateM.bind Act.read
  cases h m.store with
  | error s => exact trivial
  | ok a => exact next a

theorem write {h : Store → Except Stop Store} {g : Unit → Act Int}
    (next : ∀ m, Spares σ (g () m)) : Spares σ ((Act.write h >>= g) m) := by
  change Spares σ (EStateM.bind (Act.write h) g m)
  unfold EStateM.bind Act.write
  cases h m.store with
  | error s => exact trivial
  | ok τ => exact next _

theorem init {E : Env} {mem : Alloc} {key : CString} {n : UInt64} {e : Float}
    {g : Option Bloom → Act Int} (same : m.store = σ) (next : ∀ b, Spares σ (g b m)) :
    Spares σ ((Act.init E mem key n e >>= g) m) := by
  change Spares σ (EStateM.bind (Act.init E mem key n e) g m)
  unfold EStateM.bind
  rcases init_cases E mem key n e m.store m.locks with ⟨b, _, run⟩ | ⟨_, run⟩ | ⟨s, _, run⟩
  · rw [run]
    exact next b
  · rw [run]
    exact same
  · rw [run]
    exact trivial

theorem unchanged {r : Int} (same : m.store = σ) : Spares σ ((pure r : Act Int) m) := fun _ => same

theorem success : Spares σ ((pure 0 : Act Int) m) := fun nonzero => absurd rfl nonzero

end Spares

theorem lockedAdd_spares (E : Env) (t : Thread) (mem : Alloc) (key : CString) (n : UInt64)
    (e : Float) (m : Machine) : Spares m.store (lockedAdd E t mem key n e m) := by
  unfold lockedAdd
  apply Spares.wrLock
  intro L
  apply Spares.read
  intro hit
  cases hit with
  | some p =>
      apply Spares.rwUnlock
      intro L
      exact Spares.unchanged rfl
  | none =>
      apply Spares.init rfl
      intro b
      cases b with
      | none =>
          apply Spares.rwUnlock
          intro L
          exact Spares.unchanged rfl
      | some b =>
          apply Spares.read
          intro p
          apply Spares.write
          intro m
          apply Spares.rwUnlock
          intro L
          apply Spares.write
          intro m
          apply Spares.write
          intro m
          apply Spares.wrLock
          intro L
          apply Spares.rwUnlock
          intro L
          exact Spares.success

/-! ### Runs -/

/-- Every operation of the run has left its thread without locks. -/
def Released (E : Env) (m₀ : Machine) (T : List Leave) : Prop :=
  ∀ T₁ T₂ l m, T = T₂ ++ l :: T₁ → Run (Leaves E) m₀ (l :: T₁) m → m.HoldsNone l.thread

/-- A run whose operations are all graceful. -/
abbrev GracefulRun (E : Env) : Machine → List Leave → Machine → Prop :=
  Run (Guarded (fun m l => Graceful E m.store l.op) (Leaves E))

theorem quiet_of_run {E : Env} {σ : Store} {T : List Leave} {m : Machine}
    (run : GracefulRun E (quiet σ) T m) : ∃ τ, m = quiet τ := by
  refine run.invariant (I := fun m => ∃ τ, m = quiet τ) ⟨σ, rfl⟩ ?_
  rintro _ l m ⟨τ, rfl⟩ ⟨graceful, left⟩
  rcases left.of_quiet with ⟨_, quiet⟩ | ⟨rough, _⟩
  · exact quiet
  · exact absurd graceful rough

theorem released_iff {E : Env} {σ : Store} {T : List Leave} {m : Machine}
    (run : Run (Leaves E) (quiet σ) T m) :
    Released E (quiet σ) T ↔ GracefulRun E (quiet σ) T m := by
  constructor
  · intro released
    induction run with
    | nil => exact .nil
    | @snoc T m₁ m l before last ih =>
        have first := ih fun T₁ T₂ k m' cut => released T₁ (l :: T₂) k m' (by rw [cut]; rfl)
        obtain ⟨τ, rfl⟩ := quiet_of_run first
        rcases last.of_quiet with ⟨graceful, _⟩ | ⟨_, held⟩
        · exact first.snoc ⟨graceful, last⟩
        · exact absurd (released T [] l m rfl (before.snoc last)) held
  · rintro graceful T₁ T₂ l m' rfl upto
    obtain ⟨m₁, first, _⟩ := graceful.split
    have plain : Run (Leaves E) (quiet σ) (l :: T₁) m₁ := first.mono fun _ _ _ step => step.2
    have same := Run.deterministic (R := Leaves E) (fun _ _ _ _ => Leaves.deterministic) upto plain
    obtain ⟨τ, rfl⟩ := quiet_of_run first
    rw [same]
    exact quiet_holdsNone τ l.thread

/-- Every operation of a run releases its locks exactly if all of them are graceful. Then no
operation that follows waits; and an addition that does not return 0 never changes the store. -/
theorem locks_released {E : Env} {σ : Store} {T : List Leave} {m : Machine}
    (run : Run (Leaves E) (quiet σ) T m) :
    (Released E (quiet σ) T ↔ GracefulRun E (quiet σ) T m) ∧
    (GracefulRun E (quiet σ) T m → ∀ t op m', Operation.exec E t op m ≠ .error .blocked m') ∧
    ∀ t key n e mem v m', Leaves E m ⟨t, .add key n e mem, v⟩ m' → v ≠ some 0 →
      m'.store = m.store := by
  refine ⟨released_iff run, ?_, ?_⟩
  · intro graceful t op m' blocked
    obtain ⟨τ, rfl⟩ := quiet_of_run graceful
    have ends := op.exec_quiet E t τ
    rw [blocked] at ends
    cases ends with
    | stuck _ _ left => rcases left with ⟨_, same⟩ | same <;> cases same
  · intro t key n e mem v m' left nonzero
    have spares := lockedAdd_spares E t mem key n e m
    cases left with
    | returned run =>
        change lockedAdd E t mem key n e m = _ at run
        rw [run] at spares
        exact spares fun zero => nonzero (congrArg some zero)
    | thrown run =>
        change lockedAdd E t mem key n e m = _ at run
        rw [run] at spares
        exact spares

/-- An addition, and one that is refused its node. -/
theorem locks_released_refused :
    ∃ m, Run (Leaves (serverEnv Libm.oneHalf)) (quiet (bloomsInit 1000 []))
        [⟨2, .add [98] 1 0.5 ⟨false, true⟩, some 2⟩, ⟨1, .add [97] 32 0.5 ⟨true, true⟩, some 0⟩] m ∧
      Released (serverEnv Libm.oneHalf) (quiet (bloomsInit 1000 []))
        [⟨2, .add [98] 1 0.5 ⟨false, true⟩, some 2⟩,
          ⟨1, .add [97] 32 0.5 ⟨true, true⟩, some 0⟩] := by
  have first : Guarded (fun m l => Graceful (serverEnv Libm.oneHalf) m.store l.op)
    (Leaves (serverEnv Libm.oneHalf)) (quiet (bloomsInit 1000 []))
    ⟨1, .add [97] 32 0.5 ⟨true, true⟩, some 0⟩ _ := ⟨graceful_of_vector rfl, .returned rfl⟩
  have graceful : GracefulRun (serverEnv Libm.oneHalf) _ _ _ := (Run.single first).snoc
    (show Guarded _ _ _ ⟨2, .add [98] 1 0.5 ⟨false, true⟩, some 2⟩ _ from
      ⟨graceful_of_vector rfl, .returned rfl⟩)
  have run := graceful.mono fun _ _ _ step => step.2
  exact ⟨_, run, (locks_released run).1.mpr graceful⟩

/-- After an addition without memory for its vector, and after `blooms_dump1`, the next thread
waits for a lock whose holder has left. -/
theorem locks_left_held :
    (∃ m m', Leaves (serverEnv Libm.oneHalf) (quiet (bloomsInit 1000 []))
        ⟨1, .add [97] 32 0.5 ⟨true, false⟩, none⟩ m ∧ (m.locks .hash).HeldBy 1 ∧
      (Operation.get [97] [120]).exec (serverEnv Libm.oneHalf) 2 m = .error .blocked m') ∧
    ∃ m m', Leaves (serverEnv Libm.oneHalf) (quiet (bloomsInit 1000 []))
        ⟨1, .dump1 .written, some 0⟩ m ∧ (m.locks .dump).HeldBy 1 ∧
      (Operation.dump1 .written).exec (serverEnv Libm.oneHalf) 2 m = .error .blocked m' := by
  constructor
  · have left : Leaves (serverEnv Libm.oneHalf) (quiet (bloomsInit 1000 []))
      ⟨1, .add [97] 32 0.5 ⟨true, false⟩, none⟩ _ := .thrown rfl
    exact ⟨_, _, left, Or.inl rfl, rfl⟩
  · have left : Leaves (serverEnv Libm.oneHalf) (quiet (bloomsInit 1000 []))
      ⟨1, .dump1 .written, some 0⟩ _ := .returned rfl
    exact ⟨_, _, left, Or.inl rfl, rfl⟩

end BloomServer
