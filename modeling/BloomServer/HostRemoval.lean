import BloomServer.Library.PriorityQueue
import Mathlib.Data.UInt

/-! `UrlAnalyseManager::removeNodeFromPriorityQueue`: the loop over the heap of the hosts. -/
namespace BloomServer

/-- What the heap and the loop read of a `HostNode`. -/
structure HeapHost where
  id : Int32
  nexttime : UInt64
  deriving DecidableEq

/-- A pointer to a node. -/
abbrev HostPtr := ℕ

/-- The order of `HostsLesser` puts the node with the earliest time on top. -/
def nextTime (memory : HostPtr → HeapHost) (p : HostPtr) : ℕ := (memory p).nexttime.toNat

/-- The heap at the end of a call, if the call comes to one. -/
inductive HostRemoval
  | running
  | threw
  | returned (hosts : Array HostPtr)
  deriving DecidableEq

def pushHosts (memory : HostPtr → HeapHost) (hosts : Array HostPtr) (tmphosts : List HostPtr) :
    Array HostPtr :=
  tmphosts.foldl (PriorityQueue.push (nextTime memory)) hosts

/-- The loop with this many rounds left. The vector has room for a number of elements and throws when
there are more. -/
def removeHosts (memory : HostPtr → HeapHost) (room : ℕ) (id : Int32) (hosts : Array HostPtr) :
    ℕ → List HostPtr → HostRemoval
  | 0, _ => .running
  | rounds + 1, tmphosts =>
      match hosts[0]? with
      | none => .returned (pushHosts memory hosts tmphosts)
      | some t =>
          if (memory t).id ≠ id then
            if tmphosts.length < room then removeHosts memory room id hosts rounds (tmphosts ++ [t])
            else .threw
          else removeHosts memory room id hosts rounds tmphosts

def removeNodeFromPriorityQueue (memory : HostPtr → HeapHost) (room : ℕ) (id : Int32)
    (hosts : Array HostPtr) (rounds : ℕ) : HostRemoval :=
  removeHosts memory room id hosts rounds []

/-- After some number of rounds the call returns, with a heap of the other nodes. -/
def RemovesHost (memory : HostPtr → HeapHost) (room : ℕ) (id : Int32) (hosts : Array HostPtr) : Prop :=
  ∃ rounds hosts', removeNodeFromPriorityQueue memory room id hosts rounds = .returned hosts' ∧
    hosts'.toList.Perm (hosts.toList.filter fun p => (memory p).id ≠ id) ∧
    PriorityQueue.IsHeap (nextTime memory) hosts'

variable {memory : HostPtr → HeapHost} {room : ℕ} {id : Int32} {hosts : Array HostPtr}

/-- No round takes anything off the heap, so the loop is not left. -/
theorem removeHosts_ne_returned {t : HostPtr} (top : hosts[0]? = some t) (rounds : ℕ)
    (tmphosts : List HostPtr) (hosts' : Array HostPtr) :
    removeHosts memory room id hosts rounds tmphosts ≠ .returned hosts' := by
  induction rounds generalizing tmphosts with
  | zero => exact HostRemoval.noConfusion
  | succ rounds ih =>
      rw [removeHosts, top]
      dsimp only
      split_ifs with other fits
      · exact ih (tmphosts ++ [t])
      · exact HostRemoval.noConfusion
      · exact ih tmphosts

/-- A node with the id on top keeps the loop going for ever. -/
theorem removeHosts_running {t : HostPtr} (top : hosts[0]? = some t) (named : (memory t).id = id)
    (rounds : ℕ) (tmphosts : List HostPtr) :
    removeHosts memory room id hosts rounds tmphosts = .running := by
  induction rounds with
  | zero => rfl
  | succ rounds ih =>
      rw [removeHosts, top]
      simp only [named, ne_eq, not_true_eq_false, if_false]
      exact ih

/-- A node is removed from an empty heap only. -/
theorem host_removed_iff (memory : HostPtr → HeapHost) (room : ℕ) (id : Int32)
    (hosts : Array HostPtr) : RemovesHost memory room id hosts ↔ hosts = #[] := by
  constructor
  · rintro ⟨rounds, hosts', returned, _, _⟩
    cases top : hosts[0]? with
    | none =>
        exact Array.eq_empty_of_size_eq_zero (Nat.le_zero.mp (Array.getElem?_eq_none_iff.mp top))
    | some t => exact absurd returned (removeHosts_ne_returned top rounds [] hosts')
  · intro empty
    subst empty
    exact ⟨1, #[], rfl, List.Perm.refl _, PriorityQueue.heap_empty⟩

/-- A heap of one node, and its id. -/
theorem not_host_removed : PriorityQueue.IsHeap (nextTime fun _ => ⟨7, 1000⟩) #[0] ∧
    (∀ rounds, removeNodeFromPriorityQueue (fun _ => ⟨7, 1000⟩) 100 7 #[0] rounds = .running) ∧
    ¬ RemovesHost (fun _ => ⟨7, 1000⟩) 100 7 #[0] := by
  refine ⟨PriorityQueue.push_heap PriorityQueue.heap_empty 0, ?_, ?_⟩
  · intro rounds
    exact removeHosts_running rfl rfl rounds []
  · rintro ⟨rounds, hosts', returned, _, _⟩
    exact removeHosts_ne_returned rfl rounds [] hosts' returned

end BloomServer
