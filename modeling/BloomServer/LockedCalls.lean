import BloomServer.Archive
import BloomServer.Library.RwLock

/-! The six operations with their locks, and every way they end: by a return, by an
exception, by waiting for ever, or with the process. Operations run one after the other. -/
namespace BloomServer

abbrev Thread := Nat

inductive LockName
  | hash   -- `bloom_hash_lock`
  | dlist  -- `bloom_dlist_lock`
  | dump   -- `dump_file_lock`
  deriving DecidableEq

structure Machine where
  store : Store
  locks : LockName → RwLock Thread

/-- Why an operation does not return. -/
inductive Failure
  | thrown             -- an exception leaves it
  | blocked            -- it waits for a lock
  | crashed (s : Stop) -- the process ends

/-- A stretch of code; a failure keeps the state in which it happens. -/
abbrev Act := EStateM Failure Machine

namespace Act

def wrLock (t : Thread) (x : LockName) : Act Unit := fun m =>
  match (m.locks x).wrLock t with
  | some l => .ok () { m with locks := Function.update m.locks x l }
  | none => .error .blocked m

def rdLock (t : Thread) (x : LockName) : Act Unit := fun m =>
  match (m.locks x).rdLock t with
  | some l => .ok () { m with locks := Function.update m.locks x l }
  | none => .error .blocked m

def rwUnlock (t : Thread) (x : LockName) : Act Unit := fun m =>
  .ok () { m with locks := Function.update m.locks x ((m.locks x).unlock t) }

/-- `pthread_rwlock_init`. -/
def rwInit (x : LockName) : Act Unit := fun m =>
  .ok () { m with locks := Function.update m.locks x .free }

/-- An exception leaves the operation. -/
def throw : Act Unit := fun m => .error .thrown m

/-- Code that reads the store. -/
def read {α : Type} (f : Store → Except Stop α) : Act α := fun m =>
  match f m.store with
  | .ok a => .ok a m
  | .error s => .error (.crashed s) m

/-- Code that changes the store. -/
def write (f : Store → Except Stop Store) : Act Unit := fun m =>
  match f m.store with
  | .ok σ => .ok () { m with store := σ }
  | .error s => .error (.crashed s) m

/-- `bloom_init`, whose `new` may throw. -/
def init (E : Env) (mem : Alloc) (key : CString) (n : UInt64) (e : Float) : Act (Option Bloom) :=
  fun m =>
    match bloomInit E mem m.store.blooms key n e with
    | .ok b => .ok b m
    | .error .badAlloc => .error .thrown m
    | .error s => .error (.crashed s) m

end Act

open Act

def lockedAdd (E : Env) (t : Thread) (mem : Alloc) (key : CString) (n : UInt64) (e : Float) :
    Act Int := do
  wrLock t .hash
  match ← read (bloomsSearch key) with
  | some _ =>
      rwUnlock t .hash
      return 1
  | none =>
      match ← init E mem key n e with
      | none =>
          rwUnlock t .hash
          return 2
      | some b =>
          let p ← read fun σ => .ok σ.heap.length
          write fun σ => .ok (σ.pushNode (σ.bucket key) b)
          rwUnlock t .hash
          write fun σ => .ok σ.bumpCount
          write fun σ => σ.addBytes p
          wrLock t .dlist
          rwUnlock t .dlist
          return 0

def lockedSet (E : Env) (t : Thread) (key subkey : CString) : Act Int := do
  wrLock t .hash
  match ← read (bloomsSearch key) with
  | none =>
      rwUnlock t .hash
      return 1
  | some p =>
      let nd ← read fun σ => readNode σ.heap p
      let b ← read fun _ => bloomSet E nd.bloom subkey
      write fun σ => .ok (σ.setBloom p b).bumpSet
      rwUnlock t .hash
      return 0

def lockedGet (E : Env) (t : Thread) (key subkey : CString) : Act Int := do
  rdLock t .hash
  match ← read (bloomsSearch key) with
  | none =>
      rwUnlock t .hash
      return -1
  | some p =>
      let nd ← read fun σ => readNode σ.heap p
      let (result, b) ← read fun _ => bloomGet E nd.bloom subkey
      write fun σ => .ok ((σ.setBloom p b).bumpGet result)
      rwUnlock t .hash
      return result

def lockedDelete (t : Thread) (key : CString) : Act Int := do
  wrLock t .hash
  wrLock t .dlist
  match ← read fun σ => .ok (σ.blooms.hashtable (σ.bucket key)) with
  | none =>
      rwUnlock t .hash
      rwUnlock t .dlist
      return 1
  | some bloom =>
      let nd ← read fun σ => readNode σ.heap bloom
      if nd.bloom.key = key then
        write fun σ => .ok (σ.setHead (σ.bucket key) nd.hashNext)
        write (bloomDelete bloom)
        rwUnlock t .hash
        rwUnlock t .dlist
        return 0
      else
        match ← read fun σ => unlinkLoop σ.heap key σ.heap.length bloom nd.hashNext with
        | none =>
            rwUnlock t .hash
            rwUnlock t .dlist
            return 1
        | some (prev, next) =>
            let nx ← read fun σ => readNode σ.heap next
            write fun σ => .ok (σ.setNext prev nx.hashNext)
            write (bloomDelete next)
            rwUnlock t .hash
            rwUnlock t .dlist
            return 0

/-- How writing the archive turns out: its constructor writes a header, `oa << blooms` the rest. -/
inductive Writing
  | written
  | headerThrows
  | bodyThrows

def Writing.header : Writing → Act Unit
  | .headerThrows => throw
  | .written | .bodyThrows => pure ()

def Writing.body : Writing → Act Unit
  | .bodyThrows => throw
  | .written | .headerThrows => pure ()

/-- `blooms_dump1`; the value stands for `void`. The file itself is left to `DumpFile`. -/
def lockedDump1 (t : Thread) (outcome : Writing) : Act Int := do
  wrLock t .dump
  outcome.header
  rdLock t .hash
  outcome.body
  rwUnlock t .hash
  -- the release of `dump_file_lock` is commented out here
  return 0

/-- How reading the archive turns out; what a broken one leaves of the store is anything. -/
inductive Reading
  | restored (archive : Archive) (junk : Nat → UInt64)
  | headerThrows
  | bodyThrows (left : Store)

def Reading.header : Reading → Act Unit
  | .headerThrows => throw
  | .restored _ _ | .bodyThrows _ => pure ()

def Reading.body : Reading → Act Unit
  | .restored archive junk => write fun σ => .ok (archive.load σ.heap junk)
  | .bodyThrows left => fun m => .error .thrown { m with store := left }
  | .headerThrows => pure ()

def lockedLoad (t : Thread) (outcome : Reading) : Act Int := do
  rwInit .dump
  wrLock t .dump
  outcome.header
  wrLock t .hash
  outcome.body
  rwUnlock t .hash
  rwUnlock t .dump
  return 0

/-- The operations with the outcomes of their fallible steps. -/
inductive Operation
  | add (key : CString) (n : UInt64) (e : Float) (mem : Alloc)
  | set (key subkey : CString)
  | get (key subkey : CString)
  | delete (key : CString)
  | dump1 (outcome : Writing)
  | load (outcome : Reading)

def Operation.exec (E : Env) (t : Thread) : Operation → Act Int
  | .add key n e mem => lockedAdd E t mem key n e
  | .set key subkey => lockedSet E t key subkey
  | .get key subkey => lockedGet E t key subkey
  | .delete key => lockedDelete t key
  | .dump1 outcome => lockedDump1 t outcome
  | .load outcome => lockedLoad t outcome

/-- A store no operation is working on. -/
def quiet (σ : Store) : Machine := ⟨σ, fun _ => .free⟩

/-! ### One statement at a time -/

namespace Act

variable {α β : Type} {t : Thread} {x : LockName} {σ : Store} {L : LockName → RwLock Thread}
  {m m' : Machine}

theorem bind_ok {a : α} {act : Act α} {f : α → Act β} (h : act m = .ok a m') :
    (act >>= f) m = f a m' := by
  change EStateM.bind act f m = _
  unfold EStateM.bind
  rw [h]

theorem bind_error {e : Failure} {act : Act α} {f : α → Act β} (h : act m = .error e m') :
    (act >>= f) m = .error e m' := by
  change EStateM.bind act f m = _
  unfold EStateM.bind
  rw [h]

theorem wrLock_of_free (h : L x = .free) :
    wrLock t x ⟨σ, L⟩ = .ok () ⟨σ, Function.update L x ⟨some t, []⟩⟩ := by
  unfold wrLock
  dsimp only
  rw [h, RwLock.wrLock_free]

theorem rdLock_of_free (h : L x = .free) :
    rdLock t x ⟨σ, L⟩ = .ok () ⟨σ, Function.update L x ⟨none, [t]⟩⟩ := by
  unfold rdLock
  dsimp only
  rw [h, RwLock.rdLock_free]

/-- A lock the thread has taken, for writing or as the only reader, is free again. -/
theorem rwUnlock_of_held (held : L x = ⟨some t, []⟩ ∨ L x = ⟨none, [t]⟩) :
    rwUnlock t x ⟨σ, L⟩ = .ok () ⟨σ, Function.update L x .free⟩ := by
  unfold rwUnlock
  dsimp only
  rcases held with writer | reader
  · rw [writer, RwLock.unlock_writer]
  · rw [reader, RwLock.unlock_reader]

theorem read_ok {f : Store → Except Stop α} {a : α} (h : f σ = .ok a) :
    read f ⟨σ, L⟩ = .ok a ⟨σ, L⟩ := by
  unfold read
  dsimp only
  rw [h]

theorem read_error {f : Store → Except Stop α} {s : Stop} (h : f σ = .error s) :
    read f ⟨σ, L⟩ = .error (.crashed s) ⟨σ, L⟩ := by
  unfold read
  dsimp only
  rw [h]

theorem write_ok {f : Store → Except Stop Store} {τ : Store} (h : f σ = .ok τ) :
    write f ⟨σ, L⟩ = .ok () ⟨τ, L⟩ := by
  unfold write
  dsimp only
  rw [h]

theorem write_error {f : Store → Except Stop Store} {s : Stop} (h : f σ = .error s) :
    write f ⟨σ, L⟩ = .error (.crashed s) ⟨σ, L⟩ := by
  unfold write
  dsimp only
  rw [h]

/-- `bloom_init` is the one place an exception can come from. -/
theorem init_cases (E : Env) (mem : Alloc) (key : CString) (n : UInt64) (e : Float) (σ : Store)
    (L : LockName → RwLock Thread) :
    (∃ b, bloomInit E mem σ.blooms key n e = .ok b ∧ init E mem key n e ⟨σ, L⟩ = .ok b ⟨σ, L⟩) ∨
    (bloomInit E mem σ.blooms key n e = .error .badAlloc ∧
      init E mem key n e ⟨σ, L⟩ = .error .thrown ⟨σ, L⟩) ∨
    ∃ s, bloomInit E mem σ.blooms key n e = .error s ∧
      init E mem key n e ⟨σ, L⟩ = .error (.crashed s) ⟨σ, L⟩ := by
  unfold init
  dsimp only
  cases bloomInit E mem σ.blooms key n e with
  | ok b => exact Or.inl ⟨b, rfl, rfl⟩
  | error s =>
      cases s with
      | badAlloc => exact Or.inr (Or.inl ⟨rfl, rfl⟩)
      | _ => exact Or.inr (Or.inr ⟨_, rfl, rfl⟩)

end Act

/-- How an operation ends on free locks, next to the call of one thread: a returning one leaves
the locks free, and only `new` makes it throw, in a machine that satisfies `P`. -/
inductive Ends (P : Machine → Prop) :
    Except Stop (Int × Store) → EStateM.Result Failure Machine Int → Prop
  | returned {r σ} : Ends P (.ok (r, σ)) (.ok r (quiet σ))
  | thrown {m} (left : P m) : Ends P (.error .badAlloc) (.error .thrown m)
  | crashed {s m} : Ends P (.error s) (.error (.crashed s) m)

namespace Ends

variable {P : Machine → Prop} {α : Type} {t : Thread} {x : LockName} {σ : Store}
  {L : LockName → RwLock Thread} {run : Except Stop (Int × Store)}

theorem wrLock {g : Unit → Act Int} (free : L x = .free)
    (next : Ends P run (g () ⟨σ, Function.update L x ⟨some t, []⟩⟩)) :
    Ends P run ((Act.wrLock t x >>= g) ⟨σ, L⟩) := by
  rwa [bind_ok (wrLock_of_free free)]

theorem rdLock {g : Unit → Act Int} (free : L x = .free)
    (next : Ends P run (g () ⟨σ, Function.update L x ⟨none, [t]⟩⟩)) :
    Ends P run ((Act.rdLock t x >>= g) ⟨σ, L⟩) := by
  rwa [bind_ok (rdLock_of_free free)]

theorem rwUnlock {g : Unit → Act Int} (held : L x = ⟨some t, []⟩ ∨ L x = ⟨none, [t]⟩)
    (next : Ends P run (g () ⟨σ, Function.update L x .free⟩)) :
    Ends P run ((Act.rwUnlock t x >>= g) ⟨σ, L⟩) := by
  rwa [bind_ok (rwUnlock_of_held held)]

theorem read {h : Store → Except Stop α} {r : Except Stop α} {f : α → Except Stop (Int × Store)}
    {g : α → Act Int} (same : h σ = r) (next : ∀ a, r = .ok a → Ends P (f a) (g a ⟨σ, L⟩)) :
    Ends P (r >>= f) ((Act.read h >>= g) ⟨σ, L⟩) := by
  cases r with
  | error s =>
      rw [bind_error (read_error same)]
      exact .crashed
  | ok a =>
      rw [bind_ok (read_ok same)]
      exact next a rfl

theorem write {h : Store → Except Stop Store} {r : Except Stop Store}
    {f : Store → Except Stop (Int × Store)} {g : Unit → Act Int} (same : h σ = r)
    (next : ∀ τ, Ends P (f τ) (g () ⟨τ, L⟩)) :
    Ends P (r >>= f) ((Act.write h >>= g) ⟨σ, L⟩) := by
  cases r with
  | error s =>
      rw [bind_error (write_error same)]
      exact .crashed
  | ok τ =>
      rw [bind_ok (write_ok same)]
      exact next τ

theorem peek {h : Store → α} {g : α → Act Int} (next : Ends P run (g (h σ) ⟨σ, L⟩)) :
    Ends P run ((Act.read (fun σ => .ok (h σ)) >>= g) ⟨σ, L⟩) := next

theorem store {h : Store → Store} {g : Unit → Act Int} (next : Ends P run (g () ⟨h σ, L⟩)) :
    Ends P run ((Act.write (fun σ => .ok (h σ)) >>= g) ⟨σ, L⟩) := next

theorem init {E : Env} {mem : Alloc} {key : CString} {n : UInt64} {e : Float}
    {f : Option Bloom → Except Stop (Int × Store)} {g : Option Bloom → Act Int}
    (throws : bloomInit E mem σ.blooms key n e = .error .badAlloc → P ⟨σ, L⟩)
    (next : ∀ b, Ends P (f b) (g b ⟨σ, L⟩)) :
    Ends P (bloomInit E mem σ.blooms key n e >>= f) ((Act.init E mem key n e >>= g) ⟨σ, L⟩) := by
  rcases init_cases E mem key n e σ L with ⟨b, got, run⟩ | ⟨got, run⟩ | ⟨s, got, run⟩
  · rw [got, bind_ok run]
    exact next b
  · rw [bind_error run]
    have left := throws got
    rw [got]
    exact .thrown left
  · rw [got, bind_error run]
    exact .crashed

theorem done {r : Int} (free : L = fun _ => .free) :
    Ends P (.ok (r, σ)) ((pure r : Act Int) ⟨σ, L⟩) := by
  subst free
  exact .returned

/-- The last statements of a path that has taken one lock. -/
theorem leave {r : Int} {l : RwLock Thread} (held : l = ⟨some t, []⟩ ∨ l = ⟨none, [t]⟩) :
    Ends P (.ok (r, σ)) ((Act.rwUnlock t x >>= fun _ => (pure r : Act Int))
      ⟨σ, Function.update (fun _ => .free) x l⟩) := by
  apply Ends.rwUnlock
  · rwa [Function.update_self]
  · apply Ends.done
    rw [Function.update_idem, Function.update_eq_self_iff]

end Ends

/-- The request is refused memory for its vector. -/
def Throws (E : Env) (σ : Store) (key : CString) (n : UInt64) (e : Float) (mem : Alloc) : Prop :=
  bloomsSearch key σ = .ok none ∧ ¬ Rejects E mem σ.blooms n e ∧ mem.newVector = false

theorem bloomsAdd_eq (E : Env) (mem : Alloc) (key : CString) (n : UInt64) (e : Float) (σ : Store) :
    bloomsAdd E mem key n e σ = bloomsSearch key σ >>= fun hit =>
      match hit with
      | some _ => .ok ((1 : Int), σ)
      | none => bloomInit E mem σ.blooms key n e >>= fun b =>
          match b with
          | none => .ok ((2 : Int), σ)
          | some b => (σ.pushNode (σ.bucket key) b).bumpCount.addBytes σ.heap.length >>=
              fun σ => .ok ((0 : Int), σ) := by
  unfold bloomsAdd addSection
  cases bloomsSearch key σ with
  | error s => rfl
  | ok hit =>
      cases hit with
      | some p => rfl
      | none =>
          cases bloomInit E mem σ.blooms key n e with
          | error s => rfl
          | ok b => cases b <;> rfl

theorem lockedAdd_ends (E : Env) (t : Thread) (mem : Alloc) (key : CString) (n : UInt64) (e : Float)
    (σ : Store) :
    Ends (fun m => Throws E σ key n e mem ∧ m.store = σ ∧ (m.locks .hash).HeldBy t)
      (bloomsAdd E mem key n e σ) (lockedAdd E t mem key n e (quiet σ)) := by
  rw [bloomsAdd_eq]
  unfold lockedAdd
  apply Ends.wrLock rfl
  refine Ends.read rfl ?_
  intro hit search
  cases hit with
  | some p =>
      dsimp only
      exact Ends.leave (Or.inl rfl)
  | none =>
      dsimp only
      apply Ends.init
      · intro throws
        exact ⟨⟨search, bloomInit_eq_badAlloc throws⟩, rfl, Or.inl rfl⟩
      · intro b
        cases b with
        | none =>
            dsimp only
            exact Ends.leave (Or.inl rfl)
        | some b =>
            dsimp only
            apply Ends.peek
            apply Ends.store
            apply Ends.rwUnlock (Or.inl (Function.update_self ..))
            apply Ends.store
            refine Ends.write rfl ?_
            intro τ
            apply Ends.wrLock (by rw [Function.update_idem, Function.update_eq_self_iff.mpr rfl])
            apply Ends.rwUnlock (Or.inl (Function.update_self ..))
            apply Ends.done
            funext x
            cases x <;> rfl

theorem lockedSet_ends (E : Env) (t : Thread) (key subkey : CString) (σ : Store) :
    Ends (fun _ => False) (bloomsSet E key subkey σ) (lockedSet E t key subkey (quiet σ)) := by
  unfold lockedSet bloomsSet
  apply Ends.wrLock rfl
  refine Ends.read rfl ?_
  intro hit _
  cases hit with
  | none =>
      dsimp only
      exact Ends.leave (Or.inl rfl)
  | some p =>
      dsimp only
      refine Ends.read rfl ?_
      intro nd _
      refine Ends.read rfl ?_
      intro b _
      apply Ends.store
      exact Ends.leave (Or.inl rfl)

theorem lockedGet_ends (E : Env) (t : Thread) (key subkey : CString) (σ : Store) :
    Ends (fun _ => False) (bloomsGet E key subkey σ) (lockedGet E t key subkey (quiet σ)) := by
  unfold lockedGet bloomsGet
  apply Ends.rdLock rfl
  refine Ends.read rfl ?_
  intro hit _
  cases hit with
  | none =>
      dsimp only
      exact Ends.leave (Or.inr rfl)
  | some p =>
      dsimp only
      refine Ends.read rfl ?_
      intro nd _
      refine Ends.read rfl ?_
      intro got _
      apply Ends.store
      exact Ends.leave (Or.inr rfl)

theorem both_released (l l' : RwLock Thread) :
    Function.update (Function.update (Function.update (Function.update
      (fun _ : LockName => RwLock.free) .hash l) .dlist l') .hash .free) .dlist .free =
      fun _ => .free := by
  funext x
  cases x <;> rfl

theorem lockedDelete_ends (t : Thread) (key : CString) (σ : Store) :
    Ends (fun _ => False) (bloomsDelete key σ) (lockedDelete t key (quiet σ)) := by
  unfold lockedDelete bloomsDelete
  apply Ends.wrLock rfl
  apply Ends.wrLock rfl
  apply Ends.peek
  have released : ∀ (r : Int) (τ : Store), Ends (fun _ => False) (.ok (r, τ))
      ((rwUnlock t .hash >>= fun _ => rwUnlock t .dlist >>= fun _ => pure r) ⟨τ,
        Function.update (Function.update (fun _ => RwLock.free) .hash ⟨some t, []⟩) .dlist
          ⟨some t, []⟩⟩) := by
    intro r τ
    apply Ends.rwUnlock (Or.inl rfl)
    apply Ends.rwUnlock (Or.inl rfl)
    exact Ends.done (both_released _ _)
  cases σ.blooms.hashtable (σ.bucket key) with
  | none => exact released 1 σ
  | some bloom =>
      dsimp only
      refine Ends.read rfl ?_
      intro nd _
      by_cases here : nd.bloom.key = key
      · rw [if_pos here, if_pos here]
        apply Ends.store
        refine Ends.write rfl ?_
        intro τ
        exact released 0 τ
      · rw [if_neg here, if_neg here]
        refine Ends.read rfl ?_
        intro found _
        cases found with
        | none => exact released 1 σ
        | some pair =>
            dsimp only
            refine Ends.read rfl ?_
            intro nx _
            apply Ends.store
            refine Ends.write rfl ?_
            intro τ
            exact released 0 τ

end BloomServer
