import BloomServer.Murmur
import Mathlib.Data.List.Basic
import Mathlib.Tactic.Common

/-! The process memory of `bloom_filter.cpp`: the `bloom_t` nodes and the global
`blooms`. The two `list_head` members are left out, as no operation modelled here
reads or writes them. -/
namespace BloomServer

/-- Nodes are named by the order in which `malloc` returned them. They are never freed. -/
abbrev Addr := Nat

/-- A 32-bit `int` of the bit vector. -/
abbrev Word := BitVec 32

/-- The ways a call ends without returning a value. -/
inductive Stop
  | badAlloc     -- `std::bad_alloc` leaves the call
  | badPointer   -- a null or stray node pointer is followed
  | keyOverflow  -- `strcpy` writes past `key[MAX_KEY_LEN]`
  | deadVector   -- a deleted `v_hash` is used
  | divByZero    -- `% m` with `m = 0`
  | outOfBounds  -- a word outside `v_hash` is accessed
  | endless      -- a chain walk meets no null link
  deriving DecidableEq, Repr

def maxKeyLen : Nat := 32
def hashPower : Nat := 20
def bloomsLen : Nat := 1048576
def saltConstant : UInt32 := 0x97c29b3a
def sizeofBloom : UInt64 := 136

/-- The payload of a `bloom_t`. `vHash` is `none` once the vector has been deleted. -/
structure Bloom where
  bytes : UInt64
  key : CString
  n : UInt64
  m : UInt64
  getCount : UInt64
  setCount : UInt64
  getMissCount : UInt64
  e : Float
  e2 : Float
  k : Int32
  vHash : Option (List Word)
  deriving DecidableEq

/-- A `bloom_t`: the chain link and the payload. -/
structure Node where
  hashNext : Option Addr
  bloom : Bloom
  deriving DecidableEq

/-- `blooms_t`. Only the entries of `hashtable` below `bloomsLen` are ever used. -/
structure Blooms where
  bytes : UInt64
  maxBytes : UInt64
  count : Int32
  power : Nat
  getCount : UInt64
  setCount : UInt64
  getMissCount : UInt64
  hashtable : Nat → Option Addr

structure Store where
  heap : List Node
  blooms : Blooms

/-- `dictGenHashFunction`: `hash * 33 + c` over the bytes of the key. -/
def dictGenHashFunction (key : CString) : UInt32 :=
  key.foldl (fun hash c => ((hash <<< 5) + hash) + c.toUInt32) 5381

def hashmask (power : Nat) : UInt32 := (1 <<< UInt32.ofNat power) - 1

/-- The bucket `hv` of a key. -/
def bucketOf (power : Nat) (key : CString) : Nat :=
  (dictGenHashFunction key &&& hashmask power).toNat

theorem bucketOf_lt (key : CString) : bucketOf hashPower key < bloomsLen := by
  have mask : (hashmask hashPower).toNat = bloomsLen - 1 := by decide
  have small : (dictGenHashFunction key &&& hashmask hashPower).toNat ≤ bloomsLen - 1 := by
    rw [UInt32.toNat_and, mask]
    exact Nat.and_le_right
  exact Nat.lt_of_le_of_lt small (by decide)

/-- `blooms_init` with a successful `malloc`; `heap` is what earlier tables left behind. -/
def bloomsInit (max : UInt64) (heap : List Node) : Store where
  heap := heap
  blooms :=
    { bytes := 0, maxBytes := max, count := 0, power := hashPower
      getCount := 0, setCount := 0, getMissCount := 0, hashtable := fun _ => none }

namespace Store

/-- The link of a node, as the chain library reads it. -/
def link (σ : Store) (p : Addr) : Option (Option Addr) := σ.heap[p]?.map Node.hashNext

def bloomAt (σ : Store) (p : Addr) : Option Bloom := σ.heap[p]?.map Node.bloom

def setBloom (σ : Store) (p : Addr) (b : Bloom) : Store :=
  { σ with heap := σ.heap.modify p fun nd => { nd with bloom := b } }

def setNext (σ : Store) (p : Addr) (q : Option Addr) : Store :=
  { σ with heap := σ.heap.modify p fun nd => { nd with hashNext := q } }

def setHead (σ : Store) (hv : Nat) (q : Option Addr) : Store :=
  { σ with blooms := { σ.blooms with hashtable := Function.update σ.blooms.hashtable hv q } }

variable (σ : Store) (p q : Addr) (b : Bloom) (hd : Option Addr) (hv : Nat)

@[simp] theorem setBloom_blooms : (σ.setBloom p b).blooms = σ.blooms := rfl
@[simp] theorem setNext_blooms : (σ.setNext p hd).blooms = σ.blooms := rfl
@[simp] theorem setHead_link : (σ.setHead hv hd).link = σ.link := rfl

@[simp] theorem setBloom_link : (σ.setBloom p b).link = σ.link := by
  funext q
  simp only [link, setBloom, List.getElem?_modify]
  cases σ.heap[q]? with
  | none => rfl
  | some nd => by_cases same : p = q <;> simp [same]

@[simp] theorem setNext_bloomAt : (σ.setNext p hd).bloomAt = σ.bloomAt := by
  funext q
  simp only [bloomAt, setNext, List.getElem?_modify]
  cases σ.heap[q]? with
  | none => rfl
  | some nd => by_cases same : p = q <;> simp [same]

theorem setBloom_bloomAt_self (there : p < σ.heap.length) :
    (σ.setBloom p b).bloomAt p = some b := by
  simp [bloomAt, setBloom, List.getElem?_modify_eq, List.getElem?_eq_getElem there]

theorem setBloom_bloomAt_of_ne (differ : p ≠ q) : (σ.setBloom p b).bloomAt q = σ.bloomAt q := by
  simp only [bloomAt, setBloom, List.getElem?_modify_ne _ _ differ]

theorem setNext_link_self (there : p < σ.heap.length) :
    (σ.setNext p hd).link p = some hd := by
  simp [link, setNext, List.getElem?_modify_eq, List.getElem?_eq_getElem there]

theorem setNext_link_of_ne (differ : p ≠ q) : (σ.setNext p hd).link q = σ.link q := by
  simp only [link, setNext, List.getElem?_modify_ne _ _ differ]

theorem lt_of_bloomAt {b : Bloom} (there : σ.bloomAt p = some b) : p < σ.heap.length := by
  by_contra out
  rw [bloomAt, List.getElem?_eq_none (Nat.le_of_not_lt out)] at there
  cases there

theorem lt_of_link {hd : Option Addr} (there : σ.link p = some hd) : p < σ.heap.length := by
  by_contra out
  rw [link, List.getElem?_eq_none (Nat.le_of_not_lt out)] at there
  cases there

/-- A node is read when both its link and its payload are. -/
theorem getElem?_heap {b : Bloom} {hd : Option Addr} (hb : σ.bloomAt p = some b)
    (hl : σ.link p = some hd) : σ.heap[p]? = some ⟨hd, b⟩ := by
  unfold bloomAt at hb
  unfold link at hl
  cases read : σ.heap[p]? with
  | none => rw [read] at hb; cases hb
  | some nd =>
      rw [read] at hb hl
      cases nd
      simp only [Option.map_some, Option.some.injEq] at hb hl
      rw [hb, hl]

end Store
end BloomServer
