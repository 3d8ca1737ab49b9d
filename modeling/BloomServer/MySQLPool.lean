import BloomServer.Library.LabelledRun
import Mathlib.Data.List.Nodup
import Mathlib.Data.List.Perm.Basic
import Mathlib.Data.UInt

/-! `MySQLConnectionPool`: which connections to the database the pool closes, and what it still does
with them afterwards. How the calls of `newConnection` and `testConnection` end is given by the number
of the call. -/
namespace BloomServer
open LabelledRun

/-- A connection is named by the call of `newConnection` that has made it. -/
abbrev MySQLConnection := ℕ

/-- A pointer that is `none` is NULL. -/
structure MySQLPooledConnection where
  connection : Option MySQLConnection
  busy : Bool
  deriving DecidableEq

/-- What happens to connections and entries. A `closeConnection` closes and deletes. -/
inductive ConnectionUse
  | tested (connection : Option MySQLConnection)
  | handedOut (connection : MySQLConnection)
  /-- `getConnection` answers NULL when there is no pool yet. -/
  | noPool
  | closed (connection : MySQLConnection)
  /-- `delete pConn` -/
  | dropped (entry : MySQLPooledConnection)
  deriving DecidableEq

/-- The members; besides how often connections were made and tested, the calls that wait for a free
connection, and what has happened, newest first. -/
structure MySQLConnectionPool where
  initialConnections : Int32
  incrementalConnections : Int32
  maxConnections : Int32
  connections : List MySQLPooledConnection
  connects : ℕ
  tests : ℕ
  waiting : ℕ
  log : List ConnectionUse
  deriving DecidableEq

namespace MySQLConnectionPool

/-- The constructor. -/
def new (initialConnections incrementalConnections maxConnections : Int32) : MySQLConnectionPool :=
  ⟨initialConnections, incrementalConnections, maxConnections, [], 0, 0, 0, []⟩

def record (s : MySQLConnectionPool) (use : ConnectionUse) : MySQLConnectionPool :=
  { s with log := use :: s.log }

/-- NULL is not closed, and deleting it does nothing. -/
def closeConnection (s : MySQLConnectionPool) : Option MySQLConnection → MySQLConnectionPool
  | none => s
  | some c => s.record (.closed c)

variable (test connect : ℕ → Bool)

def newConnection (s : MySQLConnectionPool) : Option MySQLConnection × MySQLConnectionPool :=
  (if connect s.connects then some s.connects else none, { s with connects := s.connects + 1 })

def tested (s : MySQLConnectionPool) (conn : Option MySQLConnection) : MySQLConnectionPool :=
  { s with tests := s.tests + 1, log := .tested conn :: s.log }

/-- A connection that does not answer is closed. -/
def testConnection (s : MySQLConnectionPool) (conn : Option MySQLConnection) :
    Bool × MySQLConnectionPool :=
  if test s.tests then (true, s.tested conn) else (false, (s.tested conn).closeConnection conn)

/-- The entries before the first one that is not busy, and those from it on. -/
def firstFree (s : MySQLConnectionPool) : List MySQLPooledConnection :=
  s.connections.dropWhile (·.busy)

/-- The first entry that is not busy gets this connection and is busy from now on. -/
def occupy (s : MySQLConnectionPool) (front rest : List MySQLPooledConnection)
    (conn : Option MySQLConnection) : MySQLConnectionPool :=
  { s with connections := front ++ ⟨conn, true⟩ :: rest }

def findFreeConnection (s : MySQLConnectionPool) : Option MySQLConnection × MySQLConnectionPool :=
  match s.firstFree with
  | [] => (none, s)
  | e :: rest =>
      let front := s.connections.takeWhile (·.busy)
      match s.testConnection test e.connection with
      | (true, s) => (e.connection, s.occupy front rest e.connection)
      | (false, s) =>
          match s.newConnection connect with
          | (some c, s) => (some c, s.occupy front rest (some c))
          | (none, s) => (none, s)

/-- `maxConnections > 0 && connections.size() >= maxConnections` -/
def full (s : MySQLConnectionPool) : Bool :=
  decide (0 < s.maxConnections) && decide (s.maxConnections.toInt ≤ s.connections.length)

/-- The loop of `createConnections`, with as many rounds as its first argument says. -/
def createLoop : ℕ → MySQLConnectionPool → MySQLConnectionPool
  | 0, s => s
  | left + 1, s =>
      if s.full then s
      else
        match s.newConnection connect with
        | (some c, s) => createLoop left { s with connections := s.connections ++ [⟨some c, false⟩] }
        | (none, s) => createLoop left s

def createConnections (s : MySQLConnectionPool) (numConnections : Int32) : MySQLConnectionPool :=
  createLoop connect numConnections.toInt.toNat s

def getFreeConnection (s : MySQLConnectionPool) : Option MySQLConnection × MySQLConnectionPool :=
  match s.findFreeConnection test connect with
  | (some c, s) => (some c, s)
  | (none, s) => (s.createConnections connect s.incrementalConnections).findFreeConnection test connect

/-- One attempt of a `getConnection`: it returns or has to wait. -/
def attempt (s : MySQLConnectionPool) : MySQLConnectionPool :=
  match s.getFreeConnection test connect with
  | (some c, s) => s.record (.handedOut c)
  | (none, s) => { s with waiting := s.waiting + 1 }

/-- `getConnection` up to the end of its first section under the mutex. -/
def getConnection (s : MySQLConnectionPool) : MySQLConnectionPool :=
  if s.connections.isEmpty then s.record .noPool else s.attempt test connect

/-- A later section of a `getConnection` that waits. -/
def retry (s : MySQLConnectionPool) : Option MySQLConnectionPool :=
  if 0 < s.waiting then
    let s := s.attempt test connect
    some { s with waiting := s.waiting - 1 }
  else none

/-- The first entry of a connection is no longer busy. -/
def giveBack (conn : Option MySQLConnection) : List MySQLPooledConnection → List MySQLPooledConnection
  | [] => []
  | e :: rest => if conn = e.connection then ⟨e.connection, false⟩ :: rest else e :: giveBack conn rest

def returnConnection (s : MySQLConnectionPool) (conn : Option MySQLConnection) : MySQLConnectionPool :=
  if s.connections.isEmpty then s else { s with connections := giveBack conn s.connections }

/-- The loop of `refreshConnections`, busy or not. -/
def refreshLoop : List MySQLPooledConnection → MySQLConnectionPool →
    List MySQLPooledConnection × MySQLConnectionPool
  | [], s => ([], s)
  | e :: rest, s =>
      let (conn, s) := (s.closeConnection e.connection).newConnection connect
      let (rest, s) := refreshLoop rest s
      (⟨conn, false⟩ :: rest, s)

def refreshConnections (s : MySQLConnectionPool) : MySQLConnectionPool :=
  let (connections, s) := refreshLoop connect s.connections s
  { s with connections }

/-- The loop of `closeConnectionPool`, which erases the entry at its index and goes on to the next
index. -/
def closeLoop (i : ℕ) (s : MySQLConnectionPool) : MySQLConnectionPool :=
  if inside : i < s.connections.length then
    let e := s.connections[i]
    closeLoop (i + 1)
      { (s.closeConnection e.connection).record (.dropped e) with
        connections := s.connections.eraseIdx i }
  else s
termination_by s.connections.length - i
decreasing_by
  rw [List.length_eraseIdx_of_lt inside]
  omega

def closeConnectionPool (s : MySQLConnectionPool) : MySQLConnectionPool :=
  if s.connections.isEmpty then s else { closeLoop 0 s with connections := [] }

/-- `Destroy` -/
def destroy (s : MySQLConnectionPool) : MySQLConnectionPool :=
  { s.connections.foldl (fun s e => s.closeConnection e.connection) s with connections := [] }

end MySQLConnectionPool

/-- The operations. A connection is returned by anybody, who need not have it. -/
inductive PoolCall
  | createPool
  | getConnection
  | retry
  | returnConnection (conn : Option MySQLConnection)
  | refreshConnections
  | closeConnectionPool
  | destroy

open MySQLConnectionPool

section Pool

variable (test connect : ℕ → Bool)

def MySQLConnectionPool.perform (s : MySQLConnectionPool) : PoolCall → Option MySQLConnectionPool
  | .createPool => some (s.createConnections connect s.initialConnections)
  | .getConnection => some (s.getConnection test connect)
  | .retry => s.retry test connect
  | .returnConnection conn => some (s.returnConnection conn)
  | .refreshConnections => some (s.refreshConnections connect)
  | .closeConnectionPool => some s.closeConnectionPool
  | .destroy => some s.destroy

/-- One operation, or one section of a `getConnection`. -/
def Pools (s : MySQLConnectionPool) (call : PoolCall) (s' : MySQLConnectionPool) : Prop :=
  s.perform test connect call = some s'

/-- No deleted connection and no NULL was tested, no deleted connection handed out, and none closed
and deleted twice. -/
def ProperUse : List ConnectionUse → Prop
  | [] => True
  | .tested conn :: log => (∃ c, conn = some c ∧ .closed c ∉ log) ∧ ProperUse log
  | .handedOut c :: log | .closed c :: log => .closed c ∉ log ∧ ProperUse log
  | .noPool :: log | .dropped _ :: log => ProperUse log

structure NeverDead (s : MySQLConnectionPool) : Prop where
  entries : ∀ e ∈ s.connections, ∀ c, e.connection = some c → .closed c ∉ s.log
  uses : ProperUse s.log

/-- The first entry that is not busy has a connection, and if that does not answer, there is a new
one. -/
def Replaces (s : MySQLConnectionPool) : Prop :=
  ∀ e rest, s.firstFree = e :: rest →
    e.connection ≠ none ∧ (test s.tests = false → connect s.connects = true)

/-- The same when all the entries are busy and more are made. -/
def ReplacesBoth (s : MySQLConnectionPool) : Prop :=
  Replaces test connect s ∧ (s.firstFree = [] →
    Replaces test connect (s.createConnections connect s.incrementalConnections))

/-- The calls that may test a connection. -/
def ReplacesFailed (s : MySQLConnectionPool) : PoolCall → Prop
  | .getConnection => s.connections ≠ [] → ReplacesBoth test connect s
  | .retry => ReplacesBoth test connect s
  | _ => True

end Pool

/-! ### The connections of the entries -/

def held (entries : List MySQLPooledConnection) : List MySQLConnection :=
  entries.filterMap (·.connection)

/-- These connections are the ones that may still be closed. -/
structure Accounts (l : List MySQLConnection) (s : MySQLConnectionPool) : Prop where
  distinct : l.Nodup
  alive : ∀ c ∈ l, c < s.connects ∧ .closed c ∉ s.log
  made : ∀ c, .closed c ∈ s.log → c < s.connects
  uses : ProperUse s.log

section Accounts

variable {test connect : ℕ → Bool} {s s' : MySQLConnectionPool} {l l₁ l₂ : List MySQLConnection}
  {e : MySQLPooledConnection} {conn : Option MySQLConnection} {c : MySQLConnection}
  {front rest entries : List MySQLPooledConnection}

theorem held_append : held (front ++ rest) = held front ++ held rest := List.filterMap_append

theorem held_cons : held (e :: rest) = e.connection.toList ++ held rest := by
  unfold held
  rw [List.filterMap_cons]
  cases e.connection <;> rfl

theorem mem_held : c ∈ held entries ↔ ∃ e ∈ entries, e.connection = some c := List.mem_filterMap

theorem Accounts.neverDead (accounts : Accounts (held s.connections) s) : NeverDead s where
  entries e mem c same := (accounts.alive c (mem_held.mpr ⟨e, mem, same⟩)).2
  uses := accounts.uses

/-- Only the counter and the history matter. -/
theorem Accounts.congr (accounts : Accounts l s) (connects : s'.connects = s.connects)
    (log : s'.log = s.log) : Accounts l s' := by
  constructor
  · exact accounts.distinct
  · rw [connects, log]
    exact accounts.alive
  · rw [connects, log]
    exact accounts.made
  · rw [log]
    exact accounts.uses

theorem Accounts.sub (accounts : Accounts l s) (sub : l₁.Sublist l) : Accounts l₁ s where
  distinct := accounts.distinct.sublist sub
  alive c mem := accounts.alive c (sub.subset mem)
  made := accounts.made
  uses := accounts.uses

/-- A connection that is closed is taken out of the account. -/
theorem Accounts.close (accounts : Accounts (l₁ ++ (conn.toList ++ l₂)) s) :
    Accounts (l₁ ++ l₂) (s.closeConnection conn) := by
  cases conn with
  | none => exact accounts
  | some c =>
      have apart : (c :: (l₁ ++ l₂)).Nodup := List.perm_middle.nodup_iff.mp accounts.distinct
      have closing := accounts.alive c (List.mem_append_right l₁ List.mem_cons_self)
      constructor
      · exact (List.nodup_cons.mp apart).2
      · intro d mem
        have other : d ≠ c := fun same => (List.nodup_cons.mp apart).1 (same ▸ mem)
        obtain ⟨below, alive⟩ := accounts.alive d
          (List.perm_middle.mem_iff.mpr (List.mem_cons_of_mem c mem))
        refine ⟨below, fun also => ?_⟩
        rcases List.mem_cons.mp also with same | before
        · exact other (ConnectionUse.closed.inj same)
        · exact alive before
      · intro d also
        rcases List.mem_cons.mp also with same | before
        · cases same
          exact closing.1
        · exact accounts.made d before
      · exact ⟨closing.2, accounts.uses⟩

theorem newConnection_of_true (made : connect s.connects = true) :
    s.newConnection connect = (some s.connects, { s with connects := s.connects + 1 }) := by
  rw [newConnection, made]
  rfl

theorem newConnection_of_false (failed : connect s.connects = false) :
    s.newConnection connect = (none, { s with connects := s.connects + 1 }) := by
  rw [newConnection, failed]
  rfl

/-- A connection that is made is new. -/
theorem Accounts.opened (connect : ℕ → Bool) (accounts : Accounts (l₁ ++ l₂) s) :
    Accounts (l₁ ++ ((s.newConnection connect).1.toList ++ l₂)) (s.newConnection connect).2 := by
  have later : Accounts (l₁ ++ l₂) { s with connects := s.connects + 1 } := by
    refine ⟨accounts.distinct, fun c mem => ?_, fun c also => ?_, accounts.uses⟩
    · exact ⟨Nat.lt_succ_of_lt (accounts.alive c mem).1, (accounts.alive c mem).2⟩
    · exact Nat.lt_succ_of_lt (accounts.made c also)
  cases made : connect s.connects with
  | false =>
      rw [newConnection_of_false made]
      exact later
  | true =>
      rw [newConnection_of_true made]
      constructor
      · apply List.perm_middle.nodup_iff.mpr
        exact List.nodup_cons.mpr
          ⟨fun mem => Nat.lt_irrefl _ (accounts.alive _ mem).1, accounts.distinct⟩
      · intro c mem
        rcases List.mem_cons.mp (List.perm_middle.mem_iff.mp mem) with same | old
        · subst same
          exact ⟨Nat.lt_succ_self _, fun also => Nat.lt_irrefl _ (accounts.made _ also)⟩
        · exact later.alive c old
      · exact later.made
      · exact later.uses

/-- Every use but a closing leaves the account as it is. -/
theorem Accounts.record {use : ConnectionUse} (accounts : Accounts l s)
    (other : ∀ c, use ≠ .closed c) (proper : ProperUse (use :: s.log)) : Accounts l (s.record use) := by
  have before {d : MySQLConnection} (closed : .closed d ∈ (s.record use).log) : .closed d ∈ s.log := by
    rcases List.mem_cons.mp closed with same | before
    · exact absurd same.symm (other d)
    · exact before
  constructor
  · exact accounts.distinct
  · exact fun d mem => ⟨(accounts.alive d mem).1, fun closed => (accounts.alive d mem).2 (before closed)⟩
  · exact fun d closed => accounts.made d (before closed)
  · exact proper

theorem Accounts.tested (accounts : Accounts l s) (mem : c ∈ l) :
    Accounts l (s.tested (some c)) := by
  have proper : ProperUse (.tested (some c) :: s.log) :=
    ⟨⟨c, rfl, (accounts.alive c mem).2⟩, accounts.uses⟩
  exact (accounts.record (fun _ => ConnectionUse.noConfusion) proper).congr rfl rfl

theorem Accounts.handedOut (accounts : Accounts l s) (mem : c ∈ l) :
    Accounts l (s.record (.handedOut c)) :=
  accounts.record (fun _ => ConnectionUse.noConfusion) ⟨(accounts.alive c mem).2, accounts.uses⟩

theorem Accounts.dropped (accounts : Accounts l s) (e : MySQLPooledConnection) :
    Accounts l (s.record (.dropped e)) :=
  accounts.record (fun _ => ConnectionUse.noConfusion) accounts.uses

/-! ### What the operations do -/

/-- The account is kept by every change of the entries that only marks them. -/
theorem held_giveBack : held (giveBack conn entries) = held entries := by
  induction entries with
  | nil => rfl
  | cons e entries ih =>
      rw [giveBack]
      split_ifs
      · rw [held_cons, held_cons]
      · rw [held_cons, held_cons, ih]

theorem entries_eq (free : s.firstFree = e :: rest) :
    s.connections = s.connections.takeWhile (·.busy) ++ e :: rest := by
  have whole := List.takeWhile_append_dropWhile (p := (·.busy)) (l := s.connections)
  rw [show s.connections.dropWhile (·.busy) = e :: rest from free] at whole
  exact whole.symm

theorem Accounts.occupy (accounts : Accounts (held front ++ (conn.toList ++ held rest)) s) :
    Accounts (held (s.occupy front rest conn).connections) (s.occupy front rest conn) := by
  have entries : held (s.occupy front rest conn).connections =
      held front ++ (conn.toList ++ held rest) := by
    change held (front ++ ⟨conn, true⟩ :: rest) = _
    rw [held_append, held_cons]
  rw [entries]
  exact accounts.congr rfl rfl

theorem mem_occupy : c ∈ held (s.occupy front rest (some c)).connections :=
  mem_held.mpr ⟨⟨some c, true⟩, List.mem_append_right front List.mem_cons_self, rfl⟩

/-- Either nothing is free and nothing happens, or an entry answers or is replaced. -/
theorem findFreeConnection_accounts (accounts : Accounts (held s.connections) s)
    (replaces : Replaces test connect s) :
    (s.firstFree = [] ∧ s.findFreeConnection test connect = (none, s)) ∨
      ∃ c s', s.findFreeConnection test connect = (some c, s') ∧ c ∈ held s'.connections ∧
        Accounts (held s'.connections) s' := by
  unfold findFreeConnection
  cases free : s.firstFree with
  | nil => exact Or.inl ⟨rfl, rfl⟩
  | cons e rest =>
      obtain ⟨pointer, recovers⟩ := replaces e rest free
      obtain ⟨c, named⟩ := Option.ne_none_iff_exists'.mp pointer
      have split : held s.connections =
          held (s.connections.takeWhile (·.busy)) ++ ((some c).toList ++ held rest) := by
        conv_lhs => rw [entries_eq free]
        rw [held_append, held_cons, named]
      have mem : c ∈ held s.connections := by
        rw [split]
        exact List.mem_append_right _ List.mem_cons_self
      have tested := accounts.tested mem
      rw [split] at tested
      right
      dsimp only
      rw [named]
      cases answers : test s.tests with
      | true =>
          refine ⟨c, _, ?_, mem_occupy, tested.occupy⟩
          simp only [testConnection, answers, if_true]
      | false =>
          have made : ((s.tested (some c)).closeConnection (some c)).newConnection connect =
              (some s.connects, { (s.tested (some c)).closeConnection (some c) with
                connects := s.connects + 1 }) :=
            newConnection_of_true (recovers answers)
          have opened := tested.close.opened connect
          rw [made] at opened
          refine ⟨s.connects, _, ?_, mem_occupy, opened.occupy⟩
          simp only [testConnection, answers, Bool.false_eq_true, if_false, made]

theorem createLoop_accounts {left : ℕ} (accounts : Accounts (held s.connections) s) :
    Accounts (held (createLoop connect left s).connections) (createLoop connect left s) := by
  induction left generalizing s with
  | zero => exact accounts
  | succ left ih =>
      rw [createLoop]
      split_ifs
      · exact accounts
      · have opened : Accounts (held s.connections ++ ((s.newConnection connect).1.toList ++ []))
            (s.newConnection connect).2 :=
          Accounts.opened connect (by rwa [List.append_nil])
        cases made : connect s.connects with
        | false =>
            rw [newConnection_of_false made] at opened ⊢
            apply ih
            rw [Option.toList_none, List.append_nil, List.append_nil] at opened
            exact opened
        | true =>
            rw [newConnection_of_true made] at opened ⊢
            apply ih
            have pushed : held (s.connections ++ [⟨some s.connects, false⟩]) =
                held s.connections ++ ((some s.connects).toList ++ []) := by
              rw [held_append, held_cons]
              rfl
            change Accounts (held (s.connections ++ [⟨some s.connects, false⟩])) _
            rw [pushed]
            exact opened.congr rfl rfl

theorem attempt_accounts (accounts : Accounts (held s.connections) s)
    (replaces : ReplacesBoth test connect s) :
    Accounts (held (s.attempt test connect).connections) (s.attempt test connect) := by
  have answered {c : MySQLConnection} {s' : MySQLConnectionPool} (mem : c ∈ held s'.connections)
      (accounts : Accounts (held s'.connections) s') :
      Accounts (held (s'.record (.handedOut c)).connections) (s'.record (.handedOut c)) :=
    accounts.handedOut mem
  unfold attempt getFreeConnection
  rcases findFreeConnection_accounts accounts replaces.1 with
    ⟨busy, found⟩ | ⟨c, s', found, mem, later⟩
  · have created : Accounts (held (s.createConnections connect s.incrementalConnections).connections)
        (s.createConnections connect s.incrementalConnections) := createLoop_accounts accounts
    rw [found]
    dsimp only
    rcases findFreeConnection_accounts created (replaces.2 busy) with
      ⟨_, again⟩ | ⟨c, s', again, mem, later⟩
    · rw [again]
      exact created.congr rfl rfl
    · rw [again]
      exact answered mem later
  · rw [found]
    exact answered mem later

theorem refreshLoop_accounts (accounts : Accounts (l ++ held entries) s) :
    Accounts (l ++ held (refreshLoop connect entries s).1) (refreshLoop connect entries s).2 := by
  induction entries generalizing l s with
  | nil => exact accounts
  | cons e entries ih =>
      rw [held_cons] at accounts
      have opened := accounts.close.opened connect
      rw [← List.append_assoc] at opened
      have rest := ih opened
      rw [List.append_assoc] at rest
      simp only [refreshLoop]
      rw [held_cons]
      exact rest

theorem closeLoop_accounts {i : ℕ} (accounts : Accounts (held s.connections) s) :
    Accounts (held (closeLoop i s).connections) (closeLoop i s) := by
  fun_induction closeLoop i s with
  | case1 i s inside e ih =>
      have whole : s.connections = s.connections.take i ++ e :: s.connections.drop (i + 1) := by
        rw [← List.drop_eq_getElem_cons inside, List.take_append_drop]
      rw [whole, held_append, held_cons] at accounts
      apply ih
      change Accounts (held (s.connections.eraseIdx i)) _
      rw [List.eraseIdx_eq_take_drop_succ, held_append]
      have closed := accounts.close
      exact (closed.dropped e).congr
        rfl rfl
  | case2 => exact accounts

theorem destroyed_accounts (accounts : Accounts (held entries) s) :
    Accounts [] (entries.foldl (fun s e => s.closeConnection e.connection) s) := by
  induction entries generalizing s with
  | nil => exact accounts
  | cons e entries ih =>
      rw [held_cons] at accounts
      have closed : Accounts ([] ++ held entries) (s.closeConnection e.connection) :=
        Accounts.close accounts
      exact ih closed

/-- One operation. -/
theorem Pools.accounts {call : PoolCall} (step : Pools test connect s call s')
    (replaces : ReplacesFailed test connect s call) (accounts : Accounts (held s.connections) s) :
    Accounts (held s'.connections) s' := by
  cases call with
  | createPool =>
      cases step
      exact createLoop_accounts accounts
  | getConnection =>
      cases step
      unfold getConnection
      split_ifs with empty
      · exact accounts.record (fun _ => ConnectionUse.noConfusion) accounts.uses
      · exact attempt_accounts accounts (replaces fun none => empty (List.isEmpty_iff.mpr none))
  | retry =>
      simp only [Pools, perform, retry] at step
      split_ifs at step
      cases step
      exact (attempt_accounts accounts replaces).congr rfl rfl
  | returnConnection conn =>
      cases step
      unfold returnConnection
      split_ifs
      · exact accounts
      · change Accounts (held (giveBack conn s.connections)) _
        rw [held_giveBack]
        exact accounts.congr rfl rfl
  | refreshConnections =>
      cases step
      exact (refreshLoop_accounts (l := []) accounts).congr rfl rfl
  | closeConnectionPool =>
      cases step
      unfold closeConnectionPool
      split_ifs
      · exact accounts
      · exact ((closeLoop_accounts accounts).sub (List.nil_sublist _)).congr rfl rfl
  | destroy =>
      cases step
      exact (destroyed_accounts accounts).congr rfl rfl

/-- In a run in which every failed test of a connection is followed by a new connection, and no NULL
entry comes to be tested, nothing refers to a deleted connection. -/
theorem connections_never_dead {initialConnections incrementalConnections maxConnections : Int32}
    {calls : List PoolCall} (run : Run (Guarded (ReplacesFailed test connect) (Pools test connect))
      (.new initialConnections incrementalConnections maxConnections) calls s) : NeverDead s := by
  have accounts : Accounts (held s.connections) s := by
    apply run.invariant
    · refine ⟨List.nodup_nil, fun c impossible => ?_, fun c impossible => ?_, trivial⟩
      · cases impossible
      · cases impossible
    · exact fun t call u kept step => step.2.accounts step.1 kept
  exact accounts.neverDead

end Accounts

theorem pools_of_reach {test connect : ℕ → Bool} {s t : MySQLConnectionPool} {calls : List PoolCall}
    (h : reach (perform test connect) s calls = some t) : Run (Pools test connect) s calls t :=
  run_of_reach (fun _ _ _ step => step) h

/-- One connection is made, and is asked for. -/
def firstRequest : List PoolCall := [.getConnection, .createPool]

/-- The first test fails, and connection 1 comes in place of connection 0. -/
theorem connections_never_dead_replaced : ∃ s,
    Run (Pools (fun n => decide (n ≠ 0)) fun _ => true) (.new 1 1 10) firstRequest s ∧
      s.log = [.handedOut 1, .closed 0, .tested (some 0)] ∧ NeverDead s := by
  have first : Pools (fun n => decide (n ≠ 0)) (fun _ => true) (.new 1 1 10) .createPool
      ⟨1, 1, 10, [⟨some 0, false⟩], 1, 0, 0, []⟩ := by
    unfold Pools
    decide
  have second : Pools (fun n => decide (n ≠ 0)) (fun _ => true)
      ⟨1, 1, 10, [⟨some 0, false⟩], 1, 0, 0, []⟩ .getConnection
      ⟨1, 1, 10, [⟨some 1, true⟩], 2, 1, 0, [.handedOut 1, .closed 0, .tested (some 0)]⟩ := by
    unfold Pools
    decide
  have replaces : ReplacesFailed (fun n => decide (n ≠ 0)) (fun _ => true)
      ⟨1, 1, 10, [⟨some 0, false⟩], 1, 0, 0, []⟩ .getConnection := by
    refine fun _ => ⟨fun e rest free => ?_, fun none => ?_⟩
    · cases free
      exact ⟨Option.some_ne_none 0, fun _ => rfl⟩
    · cases none
  have created : ReplacesFailed (fun n => decide (n ≠ 0)) (fun _ => true) (.new 1 1 10)
      .createPool := trivial
  exact ⟨_, .snoc (.snoc .nil first) second, rfl,
    connections_never_dead ((Run.single ⟨created, first⟩).snoc ⟨replaces, second⟩)⟩

/-- The first test fails and so does the second call of `newConnection`. The connection is deleted, is
tested again, and is handed out. -/
theorem not_connections_never_dead : ∃ s,
    Run (Pools (fun n => decide (n ≠ 0)) fun n => decide (n ≠ 1)) (.new 1 1 10) firstRequest s ∧
      s.log = [.handedOut 0, .tested (some 0), .closed 0, .tested (some 0)] ∧
      s.connections = [⟨some 0, true⟩, ⟨some 2, false⟩] ∧ ¬ NeverDead s := by
  have reached : reach (perform (fun n => decide (n ≠ 0)) fun n => decide (n ≠ 1)) (.new 1 1 10)
      firstRequest = some ⟨1, 1, 10, [⟨some 0, true⟩, ⟨some 2, false⟩], 3, 2, 0,
        [.handedOut 0, .tested (some 0), .closed 0, .tested (some 0)]⟩ := by
    decide
  refine ⟨_, pools_of_reach reached, rfl, rfl, fun never => ?_⟩
  exact never.entries ⟨some 0, true⟩ List.mem_cons_self 0 rfl (by decide)

/-! ### Closing the pool -/

def ConnectionUse.closed? : ConnectionUse → Option MySQLConnection
  | .closed c => some c
  | _ => none

def ConnectionUse.dropped? : ConnectionUse → Option MySQLPooledConnection
  | .dropped e => some e
  | _ => none

/-- Every entry is closed and deleted once, and the pool is empty. -/
def ClosesEachOnce (s : MySQLConnectionPool) : Prop :=
  s.closeConnectionPool.connections = [] ∧ ∃ uses, s.closeConnectionPool.log = uses ++ s.log ∧
    (uses.filterMap (·.closed?)).Perm (held s.connections) ∧
    (uses.filterMap (·.dropped?)).Perm s.connections

/-- What is left of a list when the loop goes on after the place of an erased element. -/
def everyOther {α : Type*} : List α → List α
  | [] => []
  | [e] => [e]
  | e :: _ :: rest => e :: everyOther rest

theorem length_everyOther {α : Type*} (l : List α) : (everyOther l).length = (l.length + 1) / 2 := by
  induction l using everyOther.induct with
  | case1 => simp [everyOther]
  | case2 e => simp [everyOther]
  | case3 e f rest ih =>
      rw [everyOther, List.length_cons, ih, List.length_cons, List.length_cons]
      omega

/-- What closing one entry adds to the history. -/
def closings (e : MySQLPooledConnection) : List ConnectionUse :=
  .dropped e :: (e.connection.toList.map .closed)

theorem closeConnection_log (s : MySQLConnectionPool) (conn : Option MySQLConnection) :
    (s.closeConnection conn).log = conn.toList.map .closed ++ s.log := by
  cases conn <;> rfl

theorem closeLoop_done {i : ℕ} {s : MySQLConnectionPool} (done : s.connections.length ≤ i) :
    closeLoop i s = s := by
  rw [closeLoop, dif_neg (Nat.not_lt.mpr done)]

/-- One round: the entry at the index goes, and the index goes on. -/
theorem closeLoop_round {kept rest : List MySQLPooledConnection} {e : MySQLPooledConnection}
    {s : MySQLConnectionPool} (whole : s.connections = kept ++ e :: rest) :
    closeLoop kept.length s = closeLoop (kept.length + 1)
      { (s.closeConnection e.connection).record (.dropped e) with connections := kept ++ rest } := by
  have inside : kept.length < s.connections.length := by
    rw [whole, List.length_append, List.length_cons]
    omega
  have here : s.connections[kept.length] = e := by
    rw [List.getElem_of_eq whole, List.getElem_append_right (Nat.le_refl _)]
    simp
  have erased : s.connections.eraseIdx kept.length = kept ++ rest := by
    rw [whole, List.eraseIdx_append_of_length_le (Nat.le_refl _), Nat.sub_self]
    rfl
  rw [closeLoop, dif_pos inside]
  dsimp only
  rw [here, erased]

/-- Every other entry is closed. -/
theorem closeLoop_log (kept : List MySQLPooledConnection) {rest : List MySQLPooledConnection}
    {s : MySQLConnectionPool} (whole : s.connections = kept ++ rest) :
    (closeLoop kept.length s).log = (everyOther rest).reverse.flatMap closings ++ s.log := by
  induction rest using everyOther.induct generalizing kept s with
  | case1 =>
      rw [closeLoop_done (by rw [whole, List.append_nil])]
      rfl
  | case2 e =>
      rw [closeLoop_round whole, closeLoop_done (by simp)]
      simp [record, closeConnection_log, everyOther, closings]
  | case3 e f rest ih =>
      have next := ih (kept ++ [f]) (s := { (s.closeConnection e.connection).record (.dropped e) with
        connections := kept ++ f :: rest }) (by simp)
      rw [List.length_append, List.length_singleton] at next
      rw [closeLoop_round whole, next]
      simp [record, closeConnection_log, everyOther, closings]

theorem dropped_closings (l : List MySQLPooledConnection) :
    (l.flatMap closings).filterMap (·.dropped?) = l := by
  induction l with
  | nil => rfl
  | cons e l ih =>
      rw [List.flatMap_cons, List.filterMap_append, ih]
      cases here : e.connection <;> simp [closings, here, ConnectionUse.dropped?]

theorem closed_closings (l : List MySQLPooledConnection) :
    (l.flatMap closings).filterMap (·.closed?) = held l := by
  induction l with
  | nil => rfl
  | cons e l ih =>
      rw [List.flatMap_cons, List.filterMap_append, ih, held_cons]
      cases here : e.connection <;> simp [closings, here, ConnectionUse.closed?]

/-- What a whole call adds to the history. -/
theorem closeConnectionPool_log (s : MySQLConnectionPool) :
    s.closeConnectionPool.log = (everyOther s.connections).reverse.flatMap closings ++ s.log := by
  unfold closeConnectionPool
  split_ifs with empty
  · rw [List.isEmpty_iff.mp empty]
    rfl
  · exact closeLoop_log [] rfl

theorem closeConnectionPool_connections (s : MySQLConnectionPool) :
    s.closeConnectionPool.connections = [] := by
  unfold closeConnectionPool
  split_ifs with empty
  · exact List.isEmpty_iff.mp empty
  · rfl

/-- Only a pool of at most one entry is closed as it should be. -/
theorem closes_each_once_iff (s : MySQLConnectionPool) :
    ClosesEachOnce s ↔ s.connections.length ≤ 1 := by
  constructor
  · rintro ⟨_, uses, log, _, dropped⟩
    rw [closeConnectionPool_log, List.append_cancel_right_eq] at log
    rw [← log, dropped_closings] at dropped
    have length := dropped.length_eq
    rw [List.length_reverse, length_everyOther] at length
    omega
  · intro few
    have all : (everyOther s.connections).reverse = s.connections := by
      match whole : s.connections, few with
      | [], _ => rfl
      | [e], _ => rfl
    refine ⟨closeConnectionPool_connections s, _, closeConnectionPool_log s, ?_, ?_⟩
    · rw [closed_closings, all]
    · rw [dropped_closings, all]

/-- Of two connections the second is not closed. -/
theorem not_closes_each_once : ¬ ClosesEachOnce
    ⟨2, 1, 10, [⟨some 0, false⟩, ⟨some 1, false⟩], 2, 0, 0, []⟩ ∧
    (closeConnectionPool ⟨2, 1, 10, [⟨some 0, false⟩, ⟨some 1, false⟩], 2, 0, 0, []⟩).log =
      [.dropped ⟨some 0, false⟩, .closed 0] := by
  have log := closeConnectionPool_log ⟨2, 1, 10, [⟨some 0, false⟩, ⟨some 1, false⟩], 2, 0, 0, []⟩
  refine ⟨?_, log⟩
  rintro ⟨_, uses, same, _, dropped⟩
  rw [log, List.append_cancel_right_eq] at same
  rw [← same] at dropped
  exact absurd dropped.length_eq (by decide)

end BloomServer
