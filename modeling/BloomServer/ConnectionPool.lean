import Mathlib.Data.List.Basic
import Mathlib.Data.UInt
import Mathlib.Tactic.Common

/-! `BloomfilterConnectionPool`: the clients of a filter server, and which of them are in use. -/
namespace BloomServer

/-- The address of a `ServClient`. -/
abbrev Client := ℕ

structure PooledConnection where
  connection : Client
  busy : Bool
  deriving DecidableEq

structure ConnectionPool where
  initialConnections : UInt16
  maxConnections : UInt16
  connections : List PooledConnection
  deriving DecidableEq

/-- How a `newConnection` ends. -/
inductive Connecting
  | opened (connection : Client)
  | null
  | threw
  deriving DecidableEq

namespace ConnectionPool

/-- The constructor. -/
def new (initialConnections : UInt16) : ConnectionPool := ⟨initialConnections, 60000, []⟩

def push (p : ConnectionPool) (connection : Client) : ConnectionPool :=
  { p with connections := p.connections ++ [⟨connection, false⟩] }

/-- `maxConnections > 0 && connections.size() >= maxConnections` -/
def full (p : ConnectionPool) : Bool :=
  decide (0 < p.maxConnections) && decide (p.maxConnections.toNat ≤ p.connections.length)

/-- The loop of `createConnections` from position `i` on; it may end in an exception. -/
def createConnections (newConnection : ℕ → Connecting) :
    ℕ → ℕ → ConnectionPool → Bool × ConnectionPool
  | 0, _, p => (false, p)
  | left + 1, i, p =>
      if p.full then (false, p)
      else
        match newConnection i with
        | .opened connection => createConnections newConnection left (i + 1) (p.push connection)
        | .null => createConnections newConnection left (i + 1) p
        | .threw => (true, p)

/-- The result is unsigned, and `-1` for an exception. -/
def createPool (newConnection : ℕ → Connecting) (p : ConnectionPool) : UInt16 × ConnectionPool :=
  if p.connections.isEmpty then
    let (threw, p) := createConnections newConnection p.initialConnections.toNat 0 p
    if threw then (-1, p) else (0, p)
  else (0, p)

/-- The first entry that is not busy becomes busy. -/
def findFree : List PooledConnection → Option (Client × List PooledConnection)
  | [] => none
  | e :: rest =>
      if e.busy then (findFree rest).map fun (connection, rest) => (connection, e :: rest)
      else some (e.connection, ⟨e.connection, true⟩ :: rest)

def getFreeConnection (p : ConnectionPool) : Option (Client × ConnectionPool) :=
  (findFree p.connections).map fun (connection, connections) => (connection, { p with connections })

/-- The first entry of a client is no longer busy. -/
def giveBack (connection : Client) : List PooledConnection → List PooledConnection
  | [] => []
  | e :: rest =>
      if connection = e.connection then ⟨e.connection, false⟩ :: rest
      else e :: giveBack connection rest

def returnConnection (connection : Client) (p : ConnectionPool) : ConnectionPool :=
  if p.connections.isEmpty then p
  else { p with connections := giveBack connection p.connections }

/-- The clients that `closeConnectionPool` deletes; those in use lose only their entry. -/
def idle (p : ConnectionPool) : List Client :=
  (p.connections.filter fun e => !e.busy).map (·.connection)

def closeConnectionPool (p : ConnectionPool) : ConnectionPool := { p with connections := [] }

/-! ### Creating a pool -/

/-- How many connections come up before the first exception, from position `i` on. -/
def openings (newConnection : ℕ → Connecting) : ℕ → ℕ → ℕ
  | 0, _ => 0
  | left + 1, i =>
      match newConnection i with
      | .opened _ => openings newConnection left (i + 1) + 1
      | .null => openings newConnection left (i + 1)
      | .threw => 0

def throws (newConnection : ℕ → Connecting) : ℕ → ℕ → Bool
  | 0, _ => false
  | left + 1, i =>
      match newConnection i with
      | .opened _ | .null => throws newConnection left (i + 1)
      | .threw => true

variable {f : ℕ → Connecting} {p : ConnectionPool} {left i : ℕ}

theorem openings_le (f : ℕ → Connecting) (left i : ℕ) : openings f left i ≤ left := by
  induction left generalizing i with
  | zero => exact le_refl 0
  | succ left ih =>
      have rest := ih (i + 1)
      unfold openings
      split <;> omega

/-- With every connection up there is no exception. -/
theorem throws_of_all (all : openings f left i = left) : throws f left i = false := by
  induction left generalizing i with
  | zero => rfl
  | succ left ih =>
      have rest := openings_le f left (i + 1)
      unfold openings at all
      unfold throws
      split at all
      · exact ih (by omega)
      · omega
      · omega

@[simp] theorem push_max (p : ConnectionPool) (c : Client) :
    (p.push c).maxConnections = p.maxConnections := rfl

@[simp] theorem length_push (p : ConnectionPool) (c : Client) :
    (p.push c).connections.length = p.connections.length + 1 := by
  simp [push]

/-- Without a limit every connection that comes up is kept. -/
theorem createConnections_unlimited (unlimited : p.maxConnections = 0) :
    (createConnections f left i p).1 = throws f left i ∧
      (createConnections f left i p).2.connections.length =
        p.connections.length + openings f left i := by
  induction left generalizing i p with
  | zero => exact ⟨rfl, rfl⟩
  | succ left ih =>
      have room : p.full = false := by simp [full, unlimited]
      unfold createConnections throws openings
      rw [room]
      simp only [Bool.false_eq_true, if_false]
      cases f i with
      | opened c =>
          have rest := ih (i := i + 1) (p := p.push c) unlimited
          rw [length_push] at rest
          dsimp only
          exact ⟨rest.1, by omega⟩
      | null => exact ih unlimited
      | threw => exact ⟨rfl, rfl⟩

/-- With a limit the loop ends quietly when it is reached. -/
theorem createConnections_limited (limited : 0 < p.maxConnections)
    (room : p.connections.length ≤ p.maxConnections.toNat) :
    if p.maxConnections.toNat ≤ p.connections.length + openings f left i then
      (createConnections f left i p).1 = false ∧
        (createConnections f left i p).2.connections.length = p.maxConnections.toNat
    else
      (createConnections f left i p).1 = throws f left i ∧
        (createConnections f left i p).2.connections.length =
          p.connections.length + openings f left i := by
  induction left generalizing i p with
  | zero =>
      unfold createConnections throws openings
      split_ifs with reached
      · have reaches : p.connections.length = p.maxConnections.toNat := by omega
        exact ⟨rfl, reaches⟩
      · exact ⟨rfl, rfl⟩
  | succ left ih =>
      by_cases full : p.maxConnections.toNat ≤ p.connections.length
      · have stop : p.full = true := by simp [ConnectionPool.full, full, limited]
        rw [if_pos (by omega)]
        unfold createConnections
        rw [stop]
        have reaches : p.connections.length = p.maxConnections.toNat := by omega
        exact ⟨rfl, reaches⟩
      · have more : p.full = false := by simp [ConnectionPool.full, full]
        unfold createConnections throws openings
        rw [more]
        simp only [Bool.false_eq_true, if_false]
        cases f i with
        | opened c =>
            have next : (p.push c).connections.length ≤ p.maxConnections.toNat := by
              rw [length_push]
              omega
            have rest := ih (i := i + 1) (p := p.push c) limited next
            rw [length_push, push_max] at rest
            dsimp only
            have shift : p.connections.length + 1 + openings f left (i + 1) =
                p.connections.length + (openings f left (i + 1) + 1) := by omega
            rwa [shift] at rest
        | null => exact ih limited room
        | threw =>
            rw [if_neg (by dsimp only; omega)]
            exact ⟨rfl, rfl⟩

/-- Neither the limit nor the number asked for changes. -/
theorem createConnections_settings (f : ℕ → Connecting) (left i : ℕ) (p : ConnectionPool) :
    (createConnections f left i p).2.initialConnections = p.initialConnections ∧
      (createConnections f left i p).2.maxConnections = p.maxConnections := by
  induction left generalizing i p with
  | zero => exact ⟨rfl, rfl⟩
  | succ left ih =>
      unfold createConnections
      split_ifs
      · exact ⟨rfl, rfl⟩
      · cases f i with
        | opened c => exact ih (i + 1) (p.push c)
        | null => exact ih (i + 1) p
        | threw => exact ⟨rfl, rfl⟩

/-- A loop that keeps nothing changes nothing. -/
theorem createConnections_eq_self (f : ℕ → Connecting) (left i : ℕ) (p : ConnectionPool)
    (same : (createConnections f left i p).2.connections = p.connections) :
    (createConnections f left i p).2 = p := by
  obtain ⟨initial, max⟩ := createConnections_settings f left i p
  cases result : (createConnections f left i p).2
  rw [result] at same initial max
  cases p
  cases same
  cases initial
  cases max
  rfl

/-- The connections that a pool is to hold. -/
def wanted (p : ConnectionPool) : ℕ := min p.initialConnections.toNat p.maxConnections.toNat

/-- A failing `createPool` changes nothing, and a successful one has all the connections. -/
def AllOrNothing (f : ℕ → Connecting) (p : ConnectionPool) : Prop :=
  ((createPool f p).1 ≠ 0 → (createPool f p).2 = p) ∧
    ((createPool f p).1 = 0 → (createPool f p).2.connections.length = p.wanted)

/-- Either nothing comes up and that is an exception, or enough comes up before one. -/
def Enough (f : ℕ → Connecting) (p : ConnectionPool) : Prop :=
  if openings f p.initialConnections.toNat 0 = 0 then
    throws f p.initialConnections.toNat 0 = true ∨ p.wanted = 0
  else 0 < p.maxConnections ∧ p.wanted ≤ openings f p.initialConnections.toNat 0

theorem createPool_of_empty (empty : p.connections = []) :
    createPool f p = (if (createConnections f p.initialConnections.toNat 0 p).1 then -1 else 0,
      (createConnections f p.initialConnections.toNat 0 p).2) := by
  unfold createPool
  rw [empty]
  simp only [List.isEmpty_nil, if_true]
  split_ifs <;> rfl

theorem createPool_of_nonempty (some : p.connections ≠ []) : createPool f p = (0, p) := by
  unfold createPool
  rw [if_neg (by simpa using some)]

/-- On an empty pool only the number of entries counts. -/
theorem allOrNothing_of_empty (empty : p.connections = []) : AllOrNothing f p ↔
    ((createConnections f p.initialConnections.toNat 0 p).1 = true →
      (createConnections f p.initialConnections.toNat 0 p).2.connections.length = 0) ∧
    ((createConnections f p.initialConnections.toNat 0 p).1 = false →
      (createConnections f p.initialConnections.toNat 0 p).2.connections.length = p.wanted) := by
  have same := createConnections_eq_self f p.initialConnections.toNat 0 p
  unfold AllOrNothing
  rw [createPool_of_empty empty]
  dsimp only
  have kept : (createConnections f p.initialConnections.toNat 0 p).2 = p ↔
      (createConnections f p.initialConnections.toNat 0 p).2.connections.length = 0 := by
    constructor
    · intro unchanged
      rw [unchanged, empty]
      rfl
    · intro none
      exact same ((List.length_eq_zero_iff.mp none).trans empty.symm)
  rw [kept]
  cases (createConnections f p.initialConnections.toNat 0 p).1 <;> simp

/-- What one attempt on an empty pool comes to. -/
theorem allOrNothing_iff (empty : p.connections = []) : AllOrNothing f p ↔ Enough f p := by
  have few := openings_le f p.initialConnections.toNat 0
  have all := @throws_of_all f p.initialConnections.toNat 0
  rw [allOrNothing_of_empty empty]
  unfold Enough wanted
  rcases Nat.eq_zero_or_pos p.maxConnections.toNat with none | some
  · have unlimited : p.maxConnections = 0 := UInt16.toNat_inj.mp none
    obtain ⟨threw, length⟩ := @createConnections_unlimited f p p.initialConnections.toNat 0 unlimited
    rw [threw, length, empty, none, unlimited]
    simp only [List.length_nil, Nat.zero_add, Nat.min_zero, or_true]
    by_cases nothing : openings f p.initialConnections.toNat 0 = 0
    · simp [nothing]
    · simp only [nothing, if_false]
      cases throws f p.initialConnections.toNat 0 <;> simp
  · have limited : 0 < p.maxConnections := UInt16.lt_iff_toNat_lt.mpr some
    have result := @createConnections_limited f p p.initialConnections.toNat 0 limited
      (by rw [empty]; exact Nat.zero_le _)
    rw [empty, List.length_nil, Nat.zero_add] at result
    split_ifs at result with reached
    · rw [result.1, result.2, if_neg (by omega)]
      simp only [limited, Bool.false_eq_true, false_implies, true_and, true_implies]
      omega
    · rw [result.1, result.2]
      simp only [limited, true_and]
      cases h : throws f p.initialConnections.toNat 0 with
      | true =>
          have fails : openings f p.initialConnections.toNat 0 ≠ p.initialConnections.toNat := by
            intro same
            rw [all same] at h
            cases h
          simp only [true_implies, true_or, Bool.true_eq_false, false_implies, and_true]
          split_ifs with nothing
          · exact iff_true_intro nothing
          · omega
      | false =>
          simp only [Bool.false_eq_true, false_implies, true_and, true_implies, false_or]
          rcases le_total p.initialConnections.toNat p.maxConnections.toNat with fits | excess
          · rw [min_eq_left fits]
            split_ifs <;> omega
          · rw [min_eq_right excess]
            split_ifs <;> omega

/-- Every attempt of a history keeps what `createPool` promises. -/
def AllRight : ConnectionPool → List (ℕ → Connecting) → Prop
  | _, [] => True
  | p, f :: rest => AllOrNothing f p ∧ AllRight (createPool f p).2 rest

/-- Up to the first attempt that opens anything, every one is as it has to be; a pool that is
there already has its connections. -/
def EnoughEach (p : ConnectionPool) : List (ℕ → Connecting) → Prop
  | [] => True
  | f :: rest =>
      if p.connections = [] then
        Enough f p ∧ (openings f p.initialConnections.toNat 0 = 0 → EnoughEach p rest)
      else p.connections.length = p.wanted

/-- A pool that has its connections keeps them. -/
theorem allRight_of_nonempty (some : p.connections ≠ []) (all : p.connections.length = p.wanted)
    (history : List (ℕ → Connecting)) : AllRight p history := by
  induction history with
  | nil => trivial
  | cons f rest ih =>
      unfold AllRight AllOrNothing
      rw [createPool_of_nonempty some]
      exact ⟨⟨fun _ => rfl, fun _ => all⟩, ih⟩

/-- The connections that come up are the ones the pool gets, as far as the limit goes. -/
theorem createPool_length (empty : p.connections = []) (f : ℕ → Connecting) :
    (createPool f p).2.connections.length =
      if 0 < p.maxConnections then
        min p.maxConnections.toNat (openings f p.initialConnections.toNat 0)
      else openings f p.initialConnections.toNat 0 := by
  rw [createPool_of_empty empty]
  dsimp only
  split_ifs with limited
  · have result := @createConnections_limited f p p.initialConnections.toNat 0 limited
      (by rw [empty]; exact Nat.zero_le _)
    rw [empty, List.length_nil, Nat.zero_add] at result
    split_ifs at result <;> omega
  · have unlimited : p.maxConnections = 0 := by
      apply UInt16.toNat_inj.mp
      rw [UInt16.lt_iff_toNat_lt] at limited
      exact Nat.eq_zero_of_not_pos limited
    have result := @createConnections_unlimited f p p.initialConnections.toNat 0 unlimited
    rw [empty, List.length_nil, Nat.zero_add] at result
    exact result.2

theorem wanted_createPool (f : ℕ → Connecting) (p : ConnectionPool) :
    (createPool f p).2.wanted = p.wanted := by
  by_cases empty : p.connections = []
  · obtain ⟨initial, max⟩ := createConnections_settings f p.initialConnections.toNat 0 p
    rw [createPool_of_empty empty]
    unfold wanted
    rw [initial, max]
  · rw [createPool_of_nonempty empty]

/-! ### The entries -/

/-- The loop only appends, and what it appends is free. -/
theorem createConnections_append (f : ℕ → Connecting) (left i : ℕ) (p : ConnectionPool) :
    ∃ more, (createConnections f left i p).2.connections = p.connections ++ more ∧
      ∀ e ∈ more, e.busy = false := by
  have nothing : ∃ more, p.connections = p.connections ++ more ∧
      ∀ e ∈ more, e.busy = false := ⟨[], (List.append_nil _).symm, by simp⟩
  induction left generalizing i p with
  | zero => exact nothing
  | succ left ih =>
      unfold createConnections
      split_ifs
      · exact nothing
      · cases f i with
        | opened c =>
            obtain ⟨more, same, free⟩ := ih (i + 1) (p.push c) ⟨[], (List.append_nil _).symm, by simp⟩
            refine ⟨⟨c, false⟩ :: more, ?_, ?_⟩
            · dsimp only
              rw [same, push, List.append_assoc]
              rfl
            · intro e mem
              rcases List.mem_cons.mp mem with rfl | later
              · rfl
              · exact free e later
        | null => exact ih (i + 1) p nothing
        | threw => exact nothing

theorem createPool_append (f : ℕ → Connecting) (p : ConnectionPool) :
    ∃ more, (createPool f p).2.connections = p.connections ++ more ∧
      ∀ e ∈ more, e.busy = false := by
  by_cases empty : p.connections = []
  · rw [createPool_of_empty empty]
    exact createConnections_append f p.initialConnections.toNat 0 p
  · rw [createPool_of_nonempty empty]
    exact ⟨[], (List.append_nil _).symm, by simp⟩

variable {entries entries' : List PooledConnection} {c : Client}

theorem findFree_eq_some (found : findFree entries = some (c, entries')) :
    ∃ l₁ l₂, entries = l₁ ++ ⟨c, false⟩ :: l₂ ∧ entries' = l₁ ++ ⟨c, true⟩ :: l₂ := by
  induction entries generalizing entries' with
  | nil => cases found
  | cons e rest ih =>
      unfold findFree at found
      split_ifs at found with busy
      · obtain ⟨⟨c', rest'⟩, later, same⟩ := Option.map_eq_some_iff.mp found
        cases same
        obtain ⟨l₁, l₂, before, after⟩ := ih later
        exact ⟨e :: l₁, l₂, by rw [before]; rfl, by rw [after]; rfl⟩
      · cases found
        obtain ⟨c, marked⟩ := e
        cases marked with
        | false => exact ⟨[], rest, rfl, rfl⟩
        | true => exact absurd rfl busy

theorem giveBack_clients (c : Client) (entries : List PooledConnection) :
    (giveBack c entries).map (·.connection) = entries.map (·.connection) := by
  induction entries with
  | nil => rfl
  | cons e rest ih =>
      unfold giveBack
      split_ifs
      · rfl
      · rw [List.map_cons, ih, List.map_cons]

theorem mem_giveBack {e : PooledConnection} (mem : e ∈ giveBack c entries) :
    e ∈ entries ∨ e.connection = c := by
  induction entries with
  | nil => cases mem
  | cons e' rest ih =>
      unfold giveBack at mem
      split_ifs at mem with same
      · rcases List.mem_cons.mp mem with rfl | later
        · exact Or.inr same.symm
        · exact Or.inl (List.mem_cons_of_mem _ later)
      · rcases List.mem_cons.mp mem with rfl | later
        · exact Or.inl List.mem_cons_self
        · exact (ih later).imp_left (List.mem_cons_of_mem _)

theorem returnConnection_connections (c : Client) (p : ConnectionPool) :
    (p.returnConnection c).connections = giveBack c p.connections := by
  unfold returnConnection
  split_ifs with empty
  · rw [List.isEmpty_iff.mp empty]
    rfl
  · rfl

end ConnectionPool

/-- A history of attempts to create a pool keeps what `createPool` promises exactly if the first
attempt that opens anything opens enough, and those before it fail or have nothing to open. -/
theorem createPool_all_right_iff (p : ConnectionPool) (history : List (ℕ → Connecting)) :
    p.AllRight history ↔ p.EnoughEach history := by
  induction history generalizing p with
  | nil => exact Iff.rfl
  | cons f rest ih =>
      unfold ConnectionPool.AllRight ConnectionPool.EnoughEach
      by_cases empty : p.connections = []
      swap
      · rw [if_neg empty]
        constructor
        · intro right
          have all := right.1.2
          rw [ConnectionPool.createPool_of_nonempty empty] at all
          exact all rfl
        · intro all
          exact ConnectionPool.allRight_of_nonempty empty all (f :: rest)
      rw [if_pos empty, ConnectionPool.allOrNothing_iff empty]
      apply and_congr_right
      intro enough
      have length := ConnectionPool.createPool_length empty f
      unfold ConnectionPool.Enough at enough
      by_cases nothing : ConnectionPool.openings f p.initialConnections.toNat 0 = 0
      · -- the pool is still empty
        have unchanged : (ConnectionPool.createPool f p).2 = p := by
          rw [nothing, Nat.min_zero, ite_self] at length
          rw [ConnectionPool.createPool_of_empty empty]
          apply ConnectionPool.createConnections_eq_self
          rw [ConnectionPool.createPool_of_empty empty] at length
          exact (List.length_eq_zero_iff.mp length).trans empty.symm
        rw [unchanged, ih p]
        constructor
        · intro each _
          exact each
        · intro each
          exact each nothing
      · rw [if_neg nothing] at enough
        rw [if_pos enough.1] at length
        have few := ConnectionPool.openings_le f p.initialConnections.toNat 0
        have limited : 0 < p.maxConnections.toNat := UInt16.lt_iff_toNat_lt.mp enough.1
        have wanted := enough.2
        unfold ConnectionPool.wanted at wanted
        have some : (ConnectionPool.createPool f p).2.connections ≠ [] := by
          rw [← List.length_pos_iff, length]
          omega
        have all : (ConnectionPool.createPool f p).2.connections.length =
            (ConnectionPool.createPool f p).2.wanted := by
          rw [length, ConnectionPool.wanted_createPool, ConnectionPool.wanted]
          omega
        have right := ConnectionPool.allRight_of_nonempty some all rest
        exact iff_of_true right fun none => absurd none nothing

/-- The second of three connections fails; the retry is content with the first one. -/
def failsOnce : List (ℕ → Connecting) :=
  [fun i => if i = 1 then .threw else .opened i, fun i => .opened (i + 3)]

theorem createPool_not_all_right :
    ¬ ∀ (p : ConnectionPool) (history : List (ℕ → Connecting)), p.connections = [] →
      p.AllRight history := by
  intro all
  have promised := (all (ConnectionPool.new 3) failsOnce rfl).2.1.2
  revert promised
  decide

end BloomServer
