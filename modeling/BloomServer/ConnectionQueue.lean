import BloomServer.Library.LabelledRun
import BloomServer.Library.RingBuffer
import Mathlib.Data.List.Perm.Basic

/-! The sockets that the external server has accepted, in the array `clifd`, and the threads of
`thread_main` that serve them. A section under `clifd_mutex` is one step. -/
namespace BloomServer
open LabelledRun RingBuffer

/-- `EXTERNAL_MAXNCLI` -/
def externalMaxncli : ℕ := 200

abbrev Socket := Int

inductive ServeThread
  | idle             -- about to take the mutex
  | asleep           -- in `pthread_cond_wait`
  | serves (connfd : Socket)
  | gone
  deriving DecidableEq

/-- The array with its two indexes, `running()` and the threads. -/
structure ExternalServer (W : Type*) where
  clifd : Ring Socket externalMaxncli
  running : Bool
  threads : W → ServeThread

/-- What the acceptor or one of the threads does. -/
inductive SocketEvent (W : Type*)
  | queued (cs : Socket)
  | closed (cs : Socket)
  | taken (w : W) (connfd : Socket)
  | slept (w : W)
  | left (w : W)
  | served (w : W)
  | stopped

namespace ExternalServer

variable {W : Type*} [DecidableEq W]

/-- What `clifd` holds at the start is never read. -/
def start (clifd : ℕ → Socket) : ExternalServer W :=
  ⟨Ring.empty clifd (by decide), true, fun _ => .idle⟩

/-- A thread that has found nothing waits, and checks again whoever wakes it. -/
inductive Step : ExternalServer W → SocketEvent W → ExternalServer W → Prop
  | queued {s cs ring} (room : s.clifd.enqueue cs = some ring) :
      Step s (.queued cs) { s with clifd := ring }
  | closed {s cs} (full : s.clifd.enqueue cs = none) : Step s (.closed cs) s
  | taken {s w connfd ring}
      (awake : s.threads w = .idle ∨ s.threads w = .asleep ∧ s.running = true)
      (some : s.clifd.dequeue = some (connfd, ring)) :
      Step s (.taken w connfd)
        { s with clifd := ring, threads := Function.update s.threads w (.serves connfd) }
  | slept {s w} (awake : s.threads w = .idle ∨ s.threads w = .asleep ∧ s.running = true)
      (none : s.clifd.dequeue = none) :
      Step s (.slept w) { s with threads := Function.update s.threads w .asleep }
  | left {s w} (woken : s.threads w = .asleep) (ends : s.running = false) :
      Step s (.left w) { s with threads := Function.update s.threads w .gone }
  | served {s w connfd} (busy : s.threads w = .serves connfd) :
      Step s (.served w) { s with threads := Function.update s.threads w .idle }
  | stopped {s} : Step s .stopped { s with running := false }

/-! ### What a history did with the sockets, oldest first -/

def accepted : List (SocketEvent W) → List Socket
  | [] => []
  | .queued cs :: l => accepted l ++ [cs]
  | .closed cs :: l => accepted l ++ [cs]
  | _ :: l => accepted l

def queued : List (SocketEvent W) → List Socket
  | [] => []
  | .queued cs :: l => queued l ++ [cs]
  | _ :: l => queued l

def closed : List (SocketEvent W) → List Socket
  | [] => []
  | .closed cs :: l => closed l ++ [cs]
  | _ :: l => closed l

def taken : List (SocketEvent W) → List Socket
  | [] => []
  | .taken _ connfd :: l => taken l ++ [connfd]
  | _ :: l => taken l

/-- Every accepted socket is in one place, and those not closed leave in the order they came. -/
structure Conserved (l : List (SocketEvent W)) (s : ExternalServer W) : Prop where
  places : (accepted l).Perm (closed l ++ (taken l ++ s.clifd.waiting))
  order : queued l = taken l ++ s.clifd.waiting

/-- A step touches the waiting sockets only as its event says. -/
structure Careful (s : ExternalServer W) (a : SocketEvent W) (t : ExternalServer W) : Prop where
  queued : ∀ cs, a = .queued cs → t.clifd.waiting = s.clifd.waiting ++ [cs] ∧
    ∀ i ∈ s.clifd.slots, t.clifd.slot i = s.clifd.slot i
  closed : ∀ cs, a = .closed cs → s.clifd.waiting.length + 1 = externalMaxncli
  taken : ∀ w connfd, a = .taken w connfd → s.clifd.waiting = connfd :: t.clifd.waiting ∧
    s.clifd.slots = s.clifd.iget :: t.clifd.slots ∧ t.threads w = .serves connfd
  others : (∀ cs, a ≠ .queued cs) → (∀ w connfd, a ≠ .taken w connfd) → t.clifd = s.clifd

variable {s t : ExternalServer W} {a : SocketEvent W} {l : List (SocketEvent W)}

theorem Step.careful (step : Step s a t) : Careful s a t := by
  cases step with
  | queued room =>
      refine ⟨?_, ?_, ?_, ?_⟩
      · intro cs same
        cases same
        exact ⟨Ring.waiting_enqueue room, fun i mem => Ring.slot_enqueue room mem⟩
      · intro cs same
        cases same
      · intro w connfd same
        cases same
      · intro other
        exact absurd rfl (other _)
  | closed full =>
      refine ⟨?_, ?_, ?_, ?_⟩
      · intro cs same
        cases same
      · intro cs same
        cases same
        exact Ring.enqueue_eq_none.mp full
      · intro w connfd same
        cases same
      · intros
        rfl
  | taken awake some =>
      refine ⟨?_, ?_, ?_, ?_⟩
      · intro cs same
        cases same
      · intro cs same
        cases same
      · intro w connfd same
        cases same
        exact ⟨Ring.waiting_dequeue some, Ring.slots_dequeue some, Function.update_self ..⟩
      · intro _ other
        exact absurd rfl (other _ _)
  | _ => constructor <;> intros <;> first | rfl | contradiction

theorem Conserved.step (held : Conserved l s) (step : Step s a t) : Conserved (a :: l) t := by
  have careful := step.careful
  obtain ⟨places, order⟩ := held
  cases step with
  | @queued cs _ room =>
      have more := (careful.queued cs rfl).1
      constructor
      · have last := places.append_right [cs]
        simp only [accepted, closed, taken, more]
        rwa [List.append_assoc, List.append_assoc] at last
      · simp only [queued, taken, more, order, List.append_assoc]
  | @closed cs full =>
      constructor
      · have last := places.append_right [cs]
        simp only [accepted, closed, taken]
        apply last.trans
        have turn : (taken l ++ s.clifd.waiting ++ [cs]).Perm ([cs] ++ (taken l ++ s.clifd.waiting)) :=
          List.perm_append_comm
        simpa only [List.append_assoc] using turn.append_left (closed l)
      · exact order
  | @taken w connfd ring awake some =>
      have first := (careful.taken w connfd rfl).1
      rw [first] at places order
      constructor
      · simpa only [accepted, closed, taken, List.append_assoc, List.singleton_append] using places
      · simpa only [queued, taken, List.append_assoc, List.singleton_append] using order
  | _ => exact ⟨places, order⟩

end ExternalServer

/-- However the acceptor and the threads take turns, every socket the acceptor took is closed,
was taken by one thread, or waits; no waiting one is overwritten, and a thread takes the first. -/
theorem accepted_sockets_conserved {W : Type*} [DecidableEq W] {clifd : ℕ → Socket}
    {l : List (SocketEvent W)} {s : ExternalServer W}
    (run : Run ExternalServer.Step (ExternalServer.start clifd) l s) :
    ExternalServer.Conserved l s ∧
      ∀ a t, ExternalServer.Step s a t → ExternalServer.Careful s a t := by
  constructor
  · apply run.history
    · exact ⟨.nil, rfl⟩
    · intro l t a u held step
      exact held.step step
  · intro a t step
    exact step.careful

/-- A thread woken by the first socket takes it, and a second one waits. -/
theorem accepted_sockets_conserved_twice : ∃ s : ExternalServer (Fin 2),
    ExternalServer.Conserved [.queued 9, .taken 1 7, .queued 7, .slept 1] s ∧
      ∀ a t, ExternalServer.Step s a t → ExternalServer.Careful s a t := by
  have slept := ExternalServer.Step.slept (W := Fin 2)
    (s := ExternalServer.start fun _ => 0) (w := 1) (.inl rfl) rfl
  have queued := (Run.single slept).snoc (a := .queued 7) (.queued rfl)
  have taken := queued.snoc (.taken (w := 1) (.inr ⟨rfl, rfl⟩) rfl)
  exact ⟨_, accepted_sockets_conserved (taken.snoc (a := .queued 9) (.queued rfl))⟩

end BloomServer
