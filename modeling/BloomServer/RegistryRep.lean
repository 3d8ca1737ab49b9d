import BloomServer.Registry
import BloomServer.Library.LinkedChain

/-! The chains of the hash table: what the pointers of a reachable store look
like, and how pushing and unlinking a node change them. -/
namespace BloomServer
open LinkedChain

/-- The nodes of every bucket in chain order. -/
abbrev Buckets := Nat → List Addr

namespace Store

/-- The node can be reached from the hash table. -/
def Linked (σ : Store) (p : Addr) : Prop := ∃ hv, Reaches σ.link (σ.blooms.hashtable hv) p

/-- A linked node `p` carries the filter `b` of the key. -/
def Holds (σ : Store) (key : CString) (p : Addr) (b : Bloom) : Prop :=
  σ.Linked p ∧ σ.bloomAt p = some b ∧ b.key = key

/-- The key is in the table. -/
def Present (σ : Store) (key : CString) : Prop := ∃ p b, σ.Holds key p b

end Store

/-- The chains of the hash table are `B`: each is null-terminated, and no node is in two. -/
structure Threaded (σ : Store) (B : Buckets) : Prop where
  power : σ.blooms.power = hashPower
  chain : ∀ hv, Chain σ.link (σ.blooms.hashtable hv) (B hv)
  apart : ∀ hv hv' p, p ∈ B hv → p ∈ B hv' → hv = hv'

namespace Threaded

variable {σ : Store} {B : Buckets} {hv : Nat} {p : Addr}

theorem lt_length (thr : Threaded σ B) (mem : p ∈ B hv) : p < σ.heap.length := by
  obtain ⟨q, link⟩ := (thr.chain hv).exists_cell mem
  exact σ.lt_of_link p link

theorem length_le (thr : Threaded σ B) (hv : Nat) : (B hv).length ≤ σ.heap.length :=
  (thr.chain hv).length_le fun p _ link => σ.lt_of_link p link

/-- Every node of a chain is there with its filter. -/
theorem exists_bloomAt (thr : Threaded σ B) (mem : p ∈ B hv) : ∃ b, σ.bloomAt p = some b :=
  ⟨_, congrArg _ (List.getElem?_eq_getElem (thr.lt_length mem))⟩

end Threaded

/-- The store is a hash table with the chains `B`: each is null-terminated, holds live
filters of its own bucket, and no two filters of a chain have the same key. -/
structure Represents (σ : Store) (B : Buckets) : Prop where
  power : σ.blooms.power = hashPower
  chain : ∀ hv, Chain σ.link (σ.blooms.hashtable hv) (B hv)
  placed : ∀ hv, ∀ p ∈ B hv, ∃ b, σ.bloomAt p = some b ∧ bucketOf hashPower b.key = hv
  live : ∀ hv, ∀ p ∈ B hv, ∀ b, σ.bloomAt p = some b → b.vHash.isSome
  distinct : ∀ hv, ∀ p ∈ B hv, ∀ q ∈ B hv, ∀ b c,
    σ.bloomAt p = some b → σ.bloomAt q = some c → b.key = c.key → p = q

namespace Represents

variable {σ σ' : Store} {B : Buckets} {key : CString} {p q : Addr} {b c : Bloom} {hv : Nat}

theorem bucket_eq (rep : Represents σ B) (key : CString) : σ.bucket key = bucketOf hashPower key := by
  rw [Store.bucket, rep.power]

theorem reaches_iff (rep : Represents σ B) : Reaches σ.link (σ.blooms.hashtable hv) p ↔ p ∈ B hv :=
  (rep.chain hv).reaches_iff

theorem linked_iff (rep : Represents σ B) : σ.Linked p ↔ ∃ hv, p ∈ B hv := by
  simp only [Store.Linked, rep.reaches_iff]

/-- A linked node sits in the chain of the bucket of its own key, and in no other. -/
theorem mem_bucket (rep : Represents σ B) (mem : p ∈ B hv) (read : σ.bloomAt p = some b) :
    hv = bucketOf hashPower b.key := by
  obtain ⟨b', read', place⟩ := rep.placed hv p mem
  have same := Option.some.inj (read.symm.trans read')
  rw [same, place]

theorem same_bucket (rep : Represents σ B) {hv' : Nat} (mem : p ∈ B hv) (mem' : p ∈ B hv') :
    hv = hv' := by
  obtain ⟨b, read, _⟩ := rep.placed hv p mem
  rw [rep.mem_bucket mem read, rep.mem_bucket mem' read]

theorem holds_iff (rep : Represents σ B) :
    σ.Holds key p b ↔ p ∈ B (bucketOf hashPower key) ∧ σ.bloomAt p = some b ∧ b.key = key := by
  unfold Store.Holds
  rw [rep.linked_iff]
  constructor
  · rintro ⟨⟨hv, mem⟩, read, rfl⟩
    rw [rep.mem_bucket mem read] at mem
    exact ⟨mem, read, rfl⟩
  · rintro ⟨mem, read, same⟩
    exact ⟨⟨_, mem⟩, read, same⟩

/-- Every key occurs in at most one node. -/
theorem holds_unique (rep : Represents σ B) (h : σ.Holds key p b) (k : σ.Holds key q c) :
    p = q ∧ b = c := by
  obtain ⟨memp, readp, keyp⟩ := rep.holds_iff.mp h
  obtain ⟨memq, readq, keyq⟩ := rep.holds_iff.mp k
  have same := rep.distinct _ p memp q memq b c readp readq (keyp.trans keyq.symm)
  subst same
  exact ⟨rfl, Option.some.inj (readp.symm.trans readq)⟩

theorem threaded (rep : Represents σ B) : Threaded σ B :=
  ⟨rep.power, rep.chain, fun _ _ _ => rep.same_bucket⟩

theorem lt_length (rep : Represents σ B) (mem : p ∈ B hv) : p < σ.heap.length :=
  rep.threaded.lt_length mem

theorem length_le (rep : Represents σ B) (hv : Nat) : (B hv).length ≤ σ.heap.length :=
  rep.threaded.length_le hv

theorem vector (rep : Represents σ B) (h : σ.Holds key p b) : ∃ map, b.vHash = some map := by
  obtain ⟨mem, read, _⟩ := rep.holds_iff.mp h
  exact Option.isSome_iff_exists.mp (rep.live _ p mem b read)

end Represents

/-! ### The walk along a chain -/

theorem readNode_eq {heap : List Node} {p : Addr} {nd : Node} (h : heap[p]? = some nd) :
    readNode heap p = .ok nd := by
  simp only [readNode, h]

/-- The first node of a list whose filter has the key. -/
def findKey (σ : Store) (key : CString) (l : List Addr) : Option Addr :=
  l.find? fun p => decide ((σ.bloomAt p).map Bloom.key = some key)

theorem findKey_eq_some {σ : Store} {key : CString} {l : List Addr} {p : Addr}
    (h : findKey σ key l = some p) : p ∈ l ∧ ∃ b, σ.bloomAt p = some b ∧ b.key = key := by
  have test := List.find?_some h
  simp only [decide_eq_true_eq, Option.map_eq_some_iff] at test
  exact ⟨List.mem_of_find?_eq_some h, test⟩

theorem findKey_eq_none {σ : Store} {key : CString} {l : List Addr} (h : findKey σ key l = none)
    {p : Addr} {b : Bloom} (mem : p ∈ l) (read : σ.bloomAt p = some b) : b.key ≠ key := by
  intro same
  have fails := List.find?_eq_none.mp h p mem
  simp [read, same] at fails

theorem searchLoop_spec {σ : Store} {key : CString} {head : Option Addr} {l : List Addr}
    (chain : Chain σ.link head l) (live : ∀ p ∈ l, ∃ b, σ.bloomAt p = some b) {fuel : Nat}
    (enough : l.length ≤ fuel) :
    searchLoop σ.heap key fuel head = .ok (findKey σ key l) := by
  induction chain generalizing fuel with
  | nil => cases fuel <;> rfl
  | @cons p q l link _ ih =>
      obtain ⟨b, read⟩ := live p List.mem_cons_self
      cases fuel with
      | zero => simp only [List.length_cons] at enough; omega
      | succ fuel =>
          have step : searchLoop σ.heap key (fuel + 1) (some p) =
              if b.key = key then .ok (some p) else searchLoop σ.heap key fuel q := by
            simp only [searchLoop, readNode_eq (σ.getElem?_heap p read link)]
            rfl
          rw [step]
          by_cases same : b.key = key
          · rw [if_pos same, findKey, List.find?_cons_of_pos (by simp [read, same])]
          · rw [if_neg same, ih (fun r mem => live r (List.mem_cons_of_mem p mem))
              (by simpa only [List.length_cons, Nat.add_le_add_iff_right] using enough)]
            rw [findKey, findKey, List.find?_cons_of_neg (by simp [read, same])]

/-- A search ends at a node with the key, or there is none in its chain. -/
theorem Threaded.search_cases {σ : Store} {B : Buckets} (thr : Threaded σ B) (key : CString) :
    (∃ p b, bloomsSearch key σ = .ok (some p) ∧
      p ∈ B (bucketOf hashPower key) ∧ σ.bloomAt p = some b ∧ b.key = key) ∨
    (bloomsSearch key σ = .ok none ∧
      ∀ p ∈ B (bucketOf hashPower key), ∀ b, σ.bloomAt p = some b → b.key ≠ key) := by
  have walk : bloomsSearch key σ = .ok (findKey σ key (B (bucketOf hashPower key))) := by
    rw [bloomsSearch, Store.bucket, thr.power]
    exact searchLoop_spec (thr.chain _) (fun p mem => thr.exists_bloomAt mem) (thr.length_le _)
  cases found : findKey σ key (B (bucketOf hashPower key)) with
  | some p =>
      obtain ⟨mem, b, read, same⟩ := findKey_eq_some found
      exact Or.inl ⟨p, b, by rw [walk, found], mem, read, same⟩
  | none => exact Or.inr ⟨by rw [walk, found], fun p mem b read => findKey_eq_none found mem read⟩

namespace Represents

variable {σ : Store} {B : Buckets}

/-- The search always ends; it finds the node of the key, or there is none. -/
theorem search_cases (rep : Represents σ B) (key : CString) :
    (∃ p b, bloomsSearch key σ = .ok (some p) ∧ σ.Holds key p b) ∨
    (bloomsSearch key σ = .ok none ∧ ¬ σ.Present key) := by
  rcases rep.threaded.search_cases key with ⟨p, b, found, held⟩ | ⟨none, absent⟩
  · exact Or.inl ⟨p, b, found, rep.holds_iff.mpr held⟩
  · refine Or.inr ⟨none, ?_⟩
    rintro ⟨p, b, held⟩
    obtain ⟨mem, read, same⟩ := rep.holds_iff.mp held
    exact absent p mem b read same

end Represents

theorem bloomsInit_represents (max : UInt64) (heap : List Node) :
    Represents (bloomsInit max heap) (fun _ => []) where
  power := rfl
  chain := fun _ => .nil
  placed := fun _ _ mem => absurd mem (List.not_mem_nil)
  live := fun _ _ mem => absurd mem (List.not_mem_nil)
  distinct := fun _ _ mem => absurd mem (List.not_mem_nil)

end BloomServer
