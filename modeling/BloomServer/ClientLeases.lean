import BloomServer.ConnectionPool
import BloomServer.Library.Holders
import BloomServer.Library.LabelledRun

/-! Callers that take clients out of a pool and give them back, while others create and close it.
A section under `mutex_connectionpool` is one step. -/
namespace BloomServer
open LabelledRun

/-- A pool with the clients allocated and not deleted, and its callers: who has which client, and
who waits in `getConnection` for one. -/
structure PoolServer (T : Type*) where
  pool : ConnectionPool
  live : List Client
  held : List (Client × T)
  waits : T → Bool

inductive PoolEvent (T : Type*)
  | created (t : T) (made : List Client)
  | refused (t : T)
  | waited (t : T)
  | leased (t : T) (connection : Client)
  | returned (t : T) (connection : Client)
  | closed (t : T) (deleted : List Client)

namespace PoolServer

variable {T : Type*} [DecidableEq T]

def start (initialConnections : UInt16) : PoolServer T :=
  ⟨ConnectionPool.new initialConnections, [], [], fun _ => false⟩

/-- The clients that a `createPool` has put into the pool. -/
def made (before after : ConnectionPool) : List Client :=
  (after.connections.drop before.connections.length).map (·.connection)

/-- A new client gets an address nobody has; a caller gives back a client it has, and once. -/
inductive Step : PoolServer T → PoolEvent T → PoolServer T → Prop
  | created {s t newConnection ret pool} (out : s.waits t = false)
      (run : s.pool.createPool newConnection = (ret, pool))
      (distinct : (made s.pool pool).Nodup) (new : ∀ c ∈ made s.pool pool, c ∉ s.live) :
      Step s (.created t (made s.pool pool)) { s with pool, live := made s.pool pool ++ s.live }
  | refused {s t} (out : s.waits t = false) (none : s.pool.connections = []) : Step s (.refused t) s
  | waited {s t} (asks : s.waits t = true ∨ s.pool.connections ≠ [])
      (busy : s.pool.getFreeConnection = none) :
      Step s (.waited t) { s with waits := Function.update s.waits t true }
  | leased {s t connection pool} (asks : s.waits t = true ∨ s.pool.connections ≠ [])
      (found : s.pool.getFreeConnection = some (connection, pool)) :
      Step s (.leased t connection)
        { s with
          pool
          held := (connection, t) :: s.held
          waits := Function.update s.waits t false }
  | returned {s t connection} (out : s.waits t = false) (mine : (connection, t) ∈ s.held) :
      Step s (.returned t connection)
        { s with
          pool := s.pool.returnConnection connection
          held := s.held.erase (connection, t) }
  | closed {s t} (out : s.waits t = false) :
      Step s (.closed t s.pool.idle)
        { s with pool := s.pool.closeConnectionPool, live := s.live.diff s.pool.idle }

/-- The clients made and those deleted in a history. -/
def created : List (PoolEvent T) → List Client
  | [] => []
  | .created _ made :: l => made ++ created l
  | _ :: l => created l

def deleted : List (PoolEvent T) → List Client
  | [] => []
  | .closed _ deleted :: l => deleted ++ PoolServer.deleted l
  | _ :: l => deleted l

def heldClients (s : PoolServer T) : List Client := s.held.map Prod.fst

/-- Every client is leased to one caller at most, a leased one is not marked free, and what a
closing would delete is there to be deleted. -/
structure Exclusive (l : List (PoolEvent T)) (s : PoolServer T) : Prop where
  once : s.heldClients.Nodup
  alone : ∀ c t u, (c, t) ∈ s.held → (c, u) ∈ s.held → t = u
  marked : ∀ e ∈ s.pool.connections, e.busy = false → ∀ t, (e.connection, t) ∉ s.held
  idle : s.pool.idle.Nodup ∧ ∀ c ∈ s.pool.idle, c ∈ s.live
  -- each client made is deleted at most once
  deletes : (created l).Perm (deleted l ++ s.live)

/-- What the callers and the list of the pool keep up together. -/
structure Sound (l : List (PoolEvent T)) (s : PoolServer T) : Prop where
  distinct : (s.pool.connections.map (·.connection)).Nodup
  alive : ∀ e ∈ s.pool.connections, e.connection ∈ s.live
  heldAlive : ∀ c ∈ s.heldClients, c ∈ s.live
  liveDistinct : s.live.Nodup
  once : s.heldClients.Nodup
  marked : ∀ e ∈ s.pool.connections, e.connection ∈ s.heldClients → e.busy = true
  deletes : (created l).Perm (deleted l ++ s.live)

variable {s s' : PoolServer T} {l : List (PoolEvent T)} {a : PoolEvent T} {t : T} {c : Client}

omit [DecidableEq T] in
theorem mem_idle {p : ConnectionPool} :
    c ∈ p.idle ↔ ∃ e ∈ p.connections, e.busy = false ∧ e.connection = c := by
  simp [ConnectionPool.idle, and_assoc]

omit [DecidableEq T] in
theorem Sound.idle_nodup (sound : Sound l s) : s.pool.idle.Nodup :=
  sound.distinct.sublist (List.filter_sublist.map _)

omit [DecidableEq T] in
theorem Sound.idle_live (sound : Sound l s) (mem : c ∈ s.pool.idle) : c ∈ s.live := by
  obtain ⟨e, here, -, rfl⟩ := mem_idle.mp mem
  exact sound.alive e here

omit [DecidableEq T] in
theorem Sound.exclusive (sound : Sound l s) : Exclusive l s where
  once := sound.once
  alone := fun _ _ _ first second => Holders.holder_unique sound.once first second
  marked := by
    intro e here free t mine
    have busy := sound.marked e here (Holders.mem_keys.mpr ⟨t, mine⟩)
    rw [free] at busy
    cases busy
  idle := ⟨sound.idle_nodup, fun _ mem => sound.idle_live mem⟩
  deletes := sound.deletes

omit [DecidableEq T] in
theorem Sound.start (n : UInt16) : Sound [] (start n : PoolServer T) where
  distinct := List.nodup_nil
  alive := by
    intro e mem
    cases mem
  heldAlive := by
    intro c mem
    cases mem
  liveDistinct := List.nodup_nil
  once := List.nodup_nil
  marked := by
    intro e mem
    cases mem
  deletes := .nil

omit [DecidableEq T] in
theorem Sound.created {ret : UInt16} {pool : ConnectionPool} {f : ℕ → Connecting} (sound : Sound l s)
    (run : s.pool.createPool f = (ret, pool)) (distinct : (made s.pool pool).Nodup)
    (new : ∀ c ∈ made s.pool pool, c ∉ s.live) :
    Sound (.created t (made s.pool pool) :: l)
      { s with pool, live := made s.pool pool ++ s.live } := by
  obtain ⟨more, same, free⟩ := ConnectionPool.createPool_append f s.pool
  rw [run] at same
  have clients : made s.pool pool = more.map (·.connection) := by
    unfold made
    rw [same, List.drop_left]
  rw [clients] at distinct new ⊢
  refine ⟨?_, ?_, ?_, ?_, sound.once, ?_, ?_⟩
  · dsimp only
    rw [same, List.map_append]
    apply sound.distinct.append distinct
    intro c old added
    obtain ⟨e, here, rfl⟩ := List.mem_map.mp old
    exact new _ added (sound.alive e here)
  · intro e mem
    dsimp only at mem
    rw [same] at mem
    rcases List.mem_append.mp mem with old | added
    · exact List.mem_append_right _ (sound.alive e old)
    · exact List.mem_append_left _ (List.mem_map_of_mem added)
  · intro c mem
    exact List.mem_append_right _ (sound.heldAlive c mem)
  · apply distinct.append sound.liveDistinct
    intro c added old
    exact new c added old
  · intro e mem held
    dsimp only at mem
    rw [same] at mem
    rcases List.mem_append.mp mem with old | added
    · exact sound.marked e old held
    · exact absurd (sound.heldAlive _ held) (new _ (List.mem_map_of_mem added))
  · have last := sound.deletes.append_left (more.map (·.connection))
    apply last.trans
    rw [← List.append_assoc, ← List.append_assoc]
    exact List.perm_append_comm.append_right _

omit [DecidableEq T] in
theorem Sound.leased {pool : ConnectionPool} {waits : T → Bool} (sound : Sound l s)
    (found : s.pool.getFreeConnection = some (c, pool)) :
    Sound (.leased t c :: l) { s with pool, held := (c, t) :: s.held, waits } := by
  obtain ⟨⟨c', entries⟩, free, same⟩ := Option.map_eq_some_iff.mp found
  cases same
  obtain ⟨l₁, l₂, before, after⟩ := ConnectionPool.findFree_eq_some free
  subst after
  have clients : (l₁ ++ ⟨c, true⟩ :: l₂).map (·.connection) =
      s.pool.connections.map (·.connection) := by
    rw [before]
    simp
  have here : (⟨c, false⟩ : PooledConnection) ∈ s.pool.connections := by
    rw [before]
    simp
  refine ⟨?_, ?_, ?_, sound.liveDistinct, ?_, ?_, sound.deletes⟩
  · dsimp only
    rw [clients]
    exact sound.distinct
  · intro e mem
    have old : e.connection ∈ s.pool.connections.map (·.connection) := by
      rw [← clients]
      exact List.mem_map_of_mem mem
    obtain ⟨e', there, same⟩ := List.mem_map.mp old
    rw [← same]
    exact sound.alive e' there
  · intro c' mem
    rcases List.mem_cons.mp mem with rfl | old
    · exact sound.alive _ here
    · exact sound.heldAlive c' old
  · apply List.nodup_cons.mpr
    refine ⟨?_, sound.once⟩
    intro held
    cases sound.marked _ here held
  · intro e mem held
    have apart := sound.distinct
    rw [before, List.map_append, List.map_cons] at apart
    have outside := (List.nodup_middle.mp apart).notMem
    rcases List.mem_append.mp mem with first | second
    · refine sound.marked e (by rw [before]; exact List.mem_append_left _ first) ?_
      rcases List.mem_cons.mp held with same | old
      · exfalso
        apply outside
        rw [← List.map_append]
        exact List.mem_map.mpr ⟨e, List.mem_append_left _ first, same⟩
      · exact old
    · rcases List.mem_cons.mp second with rfl | later
      · rfl
      · refine sound.marked e
          (by rw [before]; exact List.mem_append_right _ (List.mem_cons_of_mem _ later)) ?_
        rcases List.mem_cons.mp held with same | old
        · exfalso
          apply outside
          rw [← List.map_append]
          exact List.mem_map.mpr ⟨e, List.mem_append_right _ later, same⟩
        · exact old

theorem Sound.returned (sound : Sound l s) (mine : (c, t) ∈ s.held) :
    Sound (.returned t c :: l)
      { s with pool := s.pool.returnConnection c, held := s.held.erase (c, t) } := by
  have rest : ∀ c', c' ∈ (s.held.erase (c, t)).map Prod.fst ↔ c' ≠ c ∧ c' ∈ s.heldClients :=
    fun c' => Holders.mem_keys_erase sound.once mine
  have clients : (s.pool.returnConnection c).connections.map (·.connection) =
      s.pool.connections.map (·.connection) := by
    rw [ConnectionPool.returnConnection_connections, ConnectionPool.giveBack_clients]
  refine ⟨?_, ?_, ?_, sound.liveDistinct, ?_, ?_, sound.deletes⟩
  · dsimp only
    rw [clients]
    exact sound.distinct
  · intro e mem
    have old : e.connection ∈ s.pool.connections.map (·.connection) := by
      rw [← clients]
      exact List.mem_map_of_mem mem
    obtain ⟨e', there, same⟩ := List.mem_map.mp old
    rw [← same]
    exact sound.alive e' there
  · intro c' mem
    exact sound.heldAlive c' ((rest c').mp mem).2
  · exact Holders.nodup_keys_erase sound.once
  · intro e mem held
    obtain ⟨other, old⟩ := (rest _).mp held
    dsimp only at mem
    rw [ConnectionPool.returnConnection_connections] at mem
    rcases ConnectionPool.mem_giveBack mem with here | same
    · exact sound.marked e here old
    · exact absurd same other

omit [DecidableEq T] in
theorem Sound.closed (sound : Sound l s) :
    Sound (.closed t s.pool.idle :: l)
      { s with pool := s.pool.closeConnectionPool, live := s.live.diff s.pool.idle } := by
  have split : (s.pool.idle ++ s.live.diff s.pool.idle).Perm s.live := by
    apply List.subperm_append_diff_self_of_count_le
    intro c mem
    rw [List.count_eq_one_of_mem sound.idle_nodup mem,
      List.count_eq_one_of_mem sound.liveDistinct (sound.idle_live mem)]
  refine ⟨List.nodup_nil, ?_, ?_, ?_, sound.once, ?_, ?_⟩
  · intro e mem
    cases mem
  · intro c held
    have kept := split.mem_iff.mpr (sound.heldAlive c held)
    rcases List.mem_append.mp kept with idle | rest
    · obtain ⟨e, here, free, rfl⟩ := mem_idle.mp idle
      have busy := sound.marked e here held
      rw [free] at busy
      cases busy
    · exact rest
  · exact sound.liveDistinct.diff
  · intro e mem
    cases mem
  · apply sound.deletes.trans
    have last := split.symm.append_left (deleted l)
    apply last.trans
    rw [← List.append_assoc]
    exact List.perm_append_comm.append_right _

theorem Sound.step (sound : Sound l s) (step : Step s a s') : Sound (a :: l) s' := by
  cases step with
  | created out run distinct new => exact sound.created run distinct new
  | refused out none => exact ⟨sound.1, sound.2, sound.3, sound.4, sound.5, sound.6, sound.7⟩
  | waited asks busy => exact ⟨sound.1, sound.2, sound.3, sound.4, sound.5, sound.6, sound.7⟩
  | leased asks found => exact sound.leased found
  | returned out mine => exact sound.returned mine
  | closed out => exact sound.closed

end PoolServer

/-- However creating, leasing, returning and closing take turns, a client has one holder at most, is
not free while it has one, and is deleted at most once. -/
theorem clients_leased_exclusively {T : Type*} [DecidableEq T] {n : UInt16}
    {l : List (PoolEvent T)} {s : PoolServer T} (run : Run PoolServer.Step (PoolServer.start n) l s) :
    PoolServer.Exclusive l s := by
  have sound : PoolServer.Sound l s := by
    apply run.history
    · exact .start n
    · intro l t a u sound step
      exact sound.step step
  exact sound.exclusive

/-- The pool is closed while a client is out, which is given back to a new pool. -/
theorem clients_leased_exclusively_closed : ∃ s : PoolServer (Fin 2), s.held = [] ∧
    PoolServer.Exclusive [.returned 0 7, .created 1 [9], .closed 1 [], .leased 0 7, .created 0 [7]]
      s := by
  have first : (ConnectionPool.new 1).createPool (fun _ => .opened 7) = (_, _) := rfl
  have created := PoolServer.Step.created (s := PoolServer.start 1) (t := (0 : Fin 2))
    rfl first (by decide) (by decide)
  have leased := (Run.single created).snoc
    (.leased (t := 0) (.inr (by decide)) rfl)
  have closed := leased.snoc (.closed (t := 1) rfl)
  have second : (ConnectionPool.new 1).createPool (fun _ => .opened 9) = (_, _) := rfl
  have again := closed.snoc (.created (t := 1) rfl second (by decide) (by decide))
  have returned := again.snoc (a := .returned 0 7) (.returned rfl (by decide))
  exact ⟨_, by decide, clients_leased_exclusively returned⟩

end BloomServer
