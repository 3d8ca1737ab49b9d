import BloomServer.Accounting
import BloomServer.Archive

/-! Additions, deletions and dumps of many clients at once. An addition checks the budget
and links its node under `bloom_hash_lock`, but charges `count` and `bytes` after it. -/
namespace BloomServer
open LabelledRun

/-- What an addition that has linked its node does next. -/
inductive AddPc
  | count  -- `blooms->count++`
  | bytes  -- `blooms->bytes += bloom->bytes`
  deriving DecidableEq

structure Pending where
  node : Addr
  pc : AddPc
  deriving DecidableEq

/-- The store and the additions in flight. -/
structure Server where
  store : Store
  pending : List Pending

inductive ServerAction
  | add (key : CString) (n : UInt64) (e : Float) (mem : Alloc)
  | count
  | bytes
  | delete (key : CString)
  | dump (archive : Archive)

/-- One atomic step of one client, or of the dump thread. -/
inductive ServerStep (E : Env) : Server → ServerAction → Server → Prop
  | refused {s key n e mem ret σ} (run : addSection E mem key n e s.store = .ok (ret, none, σ)) :
      ServerStep E s (.add key n e mem) { s with store := σ }
  | linked {s key n e mem ret p σ} (run : addSection E mem key n e s.store = .ok (ret, some p, σ)) :
      ServerStep E s (.add key n e mem) { store := σ, pending := ⟨p, .count⟩ :: s.pending }
  | counted {s} (p l₁ l₂) (here : s.pending = l₁ ++ ⟨p, .count⟩ :: l₂) :
      ServerStep E s .count ⟨s.store.bumpCount, l₁ ++ ⟨p, .bytes⟩ :: l₂⟩
  | charged {s σ} (p l₁ l₂) (here : s.pending = l₁ ++ ⟨p, .bytes⟩ :: l₂)
      (run : s.store.addBytes p = .ok σ) : ServerStep E s .bytes ⟨σ, l₁ ++ l₂⟩
  | deleted {s key ret σ} (run : bloomsDelete key s.store = .ok (ret, σ)) :
      ServerStep E s (.delete key) { s with store := σ }
  | dumped {s} : ServerStep E s (.dump s.store.serialize) s

def Server.start (max : UInt64) (heap : List Node) : Server := ⟨bloomsInit max heap, []⟩

/-- An addition that nobody interrupts is `blooms_add`. -/
theorem bloomsAdd_steps {E : Env} {mem : Alloc} {key : CString} {n : UInt64} {e : Float}
    {σ σ' : Store} {ret : Int} (l : List Pending) (run : bloomsAdd E mem key n e σ = .ok (ret, σ')) :
    ∃ T, Run (ServerStep E) ⟨σ, l⟩ T ⟨σ', l⟩ := by
  unfold bloomsAdd at run
  cases first : addSection E mem key n e σ with
  | error s => rw [first] at run; cases run
  | ok result =>
      obtain ⟨ret₁, node, σ₁⟩ := result
      rw [first] at run
      cases node with
      | none =>
          cases run
          exact ⟨_, .single (.refused first)⟩
      | some p =>
          change (σ₁.bumpCount.addBytes p >>= fun σ => Except.ok (ret₁, σ)) = _ at run
          cases last : σ₁.bumpCount.addBytes p with
          | error s => rw [last] at run; cases run
          | ok σ₂ =>
              rw [last] at run
              cases run
              have linked := ServerStep.linked (s := ⟨σ, l⟩) first
              have counted := ServerStep.counted (E := E)
                (s := ⟨σ₁, ⟨p, .count⟩ :: l⟩) p [] l rfl
              have charged := ServerStep.charged (E := E)
                (s := ⟨σ₁.bumpCount, ⟨p, .bytes⟩ :: l⟩) p [] l rfl last
              exact ⟨_, ((Run.single linked).snoc counted).snoc charged⟩

theorem addBytes_spec {σ σ' : Store} {p : Addr} (run : σ.addBytes p = .ok σ') :
    ∃ nd, σ.heap[p]? = some nd ∧ σ'.heap = σ.heap ∧
      σ'.blooms = { σ.blooms with bytes := σ.blooms.bytes + nd.bloom.bytes } := by
  unfold Store.addBytes readNode at run
  cases read : σ.heap[p]? with
  | none => rw [read] at run; cases run
  | some nd =>
      rw [read] at run
      cases run
      exact ⟨nd, rfl, rfl, rfl⟩

/-! ### What the updates in flight still owe -/

/-- The size of a filter as its field says. -/
def fieldSize (b : Bloom) : Nat := b.bytes.toNat

/-- A filter is in the table, with its size, as soon as its node is linked. -/
theorem Represents.table_linked {σ : Store} {B : Buckets} {b : Bloom} {w : Bloom → Nat}
    (rep : Represents σ B) (absent : ¬ σ.Present b.key) (live : b.vHash.isSome) :
    (σ.pushNode (σ.bucket b.key) b).table.card = σ.table.card + 1 ∧
      (σ.pushNode (σ.bucket b.key) b).total w = σ.total w + w b :=
  rep.table_added absent live

namespace Server

/-- The bytes not yet charged. -/
def due (σ : Store) (l : List Pending) : Nat := (l.map fun q => σ.sizeAt fieldSize q.node).sum

/-- The filters not yet counted. -/
def uncounted (l : List Pending) : Nat := l.countP fun q => decide (q.pc = .count)

/-- The counters and what is due to them add up to the table. -/
structure Balanced (max : UInt64) (s : Server) : Prop where
  rep : ∃ B, Represents s.store B
  nodes : ∀ q ∈ s.pending, ∃ b, s.store.bloomAt q.node = some b
  bytes : (s.store.blooms.bytes.toNat + due s.store s.pending) % 2 ^ 64 =
    s.store.total fieldSize % 2 ^ 64
  count : s.store.blooms.count + Int32.ofNat (uncounted s.pending) =
    Int32.ofNat s.store.table.card
  maxBytes : s.store.blooms.maxBytes = max

theorem due_congr {σ σ' : Store} {l : List Pending}
    (same : ∀ q ∈ l, σ'.sizeAt fieldSize q.node = σ.sizeAt fieldSize q.node) :
    due σ' l = due σ l :=
  congrArg List.sum (List.map_congr_left same)

theorem due_insert (σ : Store) (l₁ l₂ : List Pending) (q : Pending) :
    due σ (l₁ ++ q :: l₂) = due σ (l₁ ++ l₂) + σ.sizeAt fieldSize q.node := by
  simp only [due, List.map_append, List.map_cons, List.sum_append, List.sum_cons]
  omega

theorem uncounted_insert (l₁ l₂ : List Pending) (q : Pending) :
    uncounted (l₁ ++ q :: l₂) = uncounted (l₁ ++ l₂) + if q.pc = .count then 1 else 0 := by
  simp only [uncounted, List.countP_append, List.countP_cons, decide_eq_true_eq]
  omega

/-- Linking a node leaves its whole share due. -/
theorem Balanced.link {max : UInt64} {s : Server} {B : Buckets} {b : Bloom} (inv : Balanced max s)
    (rep : Represents s.store B) (absent : ¬ s.store.Present b.key) (live : b.vHash.isSome) :
    Balanced max ⟨s.store.pushNode (s.store.bucket b.key) b,
      ⟨s.store.heap.length, .count⟩ :: s.pending⟩ where
  rep := ⟨_, rep.pushNode absent live⟩
  nodes := by
    intro q mem
    rcases List.mem_cons.mp mem with rfl | old
    · exact ⟨b, s.store.pushNode_bloomAt_new _ b⟩
    · obtain ⟨c, read⟩ := inv.nodes q old
      exact ⟨c, (s.store.pushNode_bloomAt_of_lt q.node _ b (s.store.lt_of_bloomAt _ read)).trans read⟩
  bytes := by
    obtain ⟨-, sum⟩ := rep.table_linked (w := fieldSize) absent live
    have old : due (s.store.pushNode (s.store.bucket b.key) b) s.pending =
        due s.store s.pending := by
      apply due_congr
      intro q mem
      obtain ⟨c, read⟩ := inv.nodes q mem
      have low := s.store.lt_of_bloomAt _ read
      simp only [Store.sizeAt, s.store.pushNode_bloomAt_of_lt q.node _ b low]
    have new : (s.store.pushNode (s.store.bucket b.key) b).sizeAt fieldSize s.store.heap.length =
        fieldSize b := by
      simp only [Store.sizeAt, Store.pushNode_bloomAt_new, Option.elim_some]
    have both : due (s.store.pushNode (s.store.bucket b.key) b)
        (⟨s.store.heap.length, .count⟩ :: s.pending) = due s.store s.pending + fieldSize b := by
      rw [← old, ← new]
      exact due_insert _ [] s.pending _
    have bytes := inv.bytes
    dsimp only
    rw [sum, both]
    change (s.store.blooms.bytes.toNat + _) % _ = _
    omega
  count := by
    obtain ⟨card, -⟩ := rep.table_linked (w := fieldSize) absent live
    have more : uncounted (⟨s.store.heap.length, .count⟩ :: s.pending) = uncounted s.pending + 1 :=
      uncounted_insert [] s.pending _
    dsimp only
    rw [card, more, Int32.ofNat_add, Int32.ofNat_add, ← Int32.add_assoc]
    exact congrArg (· + 1) inv.count
  maxBytes := inv.maxBytes

theorem Balanced.counted {max : UInt64} {s : Server} {p : Addr} {l₁ l₂ : List Pending}
    (inv : Balanced max s) (here : s.pending = l₁ ++ ⟨p, .count⟩ :: l₂) :
    Balanced max ⟨s.store.bumpCount, l₁ ++ ⟨p, .bytes⟩ :: l₂⟩ := by
  obtain ⟨⟨B, rep⟩, nodes, bytes, count, maxBytes⟩ := inv
  rw [here] at nodes bytes count
  obtain ⟨same, sum⟩ := Store.total_bumpCount (w := fieldSize) s.store
  refine ⟨⟨B, rep.of_same rfl rfl rfl⟩, ?_, ?_, ?_, maxBytes⟩
  · intro q mem
    have old : q ∈ l₁ ++ ⟨p, .count⟩ :: l₂ ∨ q = ⟨p, .bytes⟩ := by
      simp only [List.mem_append, List.mem_cons] at mem ⊢
      tauto
    rcases old with old | rfl
    · exact nodes q old
    · exact nodes ⟨p, .count⟩ (by simp)
  · rw [due_insert] at bytes
    rw [due_insert, sum]
    exact bytes
  · rw [uncounted_insert, if_pos rfl] at count
    dsimp only
    rw [uncounted_insert, if_neg (by simp), same, ← count]
    change s.store.blooms.count + 1 + _ = _
    rw [Nat.add_zero, Int32.ofNat_add, Int32.add_assoc, Int32.add_comm 1]
    rfl

theorem Balanced.charged {max : UInt64} {s : Server} {σ : Store} {p : Addr} {l₁ l₂ : List Pending}
    (inv : Balanced max s) (here : s.pending = l₁ ++ ⟨p, .bytes⟩ :: l₂)
    (run : s.store.addBytes p = .ok σ) : Balanced max ⟨σ, l₁ ++ l₂⟩ := by
  obtain ⟨⟨B, rep⟩, nodes, bytes, count, maxBytes⟩ := inv
  rw [here] at nodes bytes count
  obtain ⟨nd, read, heap, blooms⟩ := addBytes_spec run
  have size : s.store.sizeAt fieldSize p = nd.bloom.bytes.toNat := by
    simp only [Store.sizeAt, Store.bloomAt, read, Option.map_some, Option.elim_some, fieldSize]
  obtain ⟨same, sum⟩ := Store.total_congr (w := fieldSize) heap (by rw [blooms])
  have owed : due σ (l₁ ++ l₂) = due s.store (l₁ ++ l₂) := by
    apply due_congr
    intro q _
    simp only [Store.sizeAt, Store.bloomAt, heap]
  refine ⟨⟨B, rep.of_same heap (by rw [blooms]) (by rw [blooms])⟩, ?_, ?_, ?_, ?_⟩
  · intro q mem
    dsimp only [Store.bloomAt]
    rw [heap]
    apply nodes q
    simp only [List.mem_append, List.mem_cons] at mem ⊢
    tauto
  · rw [due_insert, size] at bytes
    dsimp only
    rw [sum, owed, blooms]
    change ((s.store.blooms.bytes + nd.bloom.bytes).toNat + _) % _ = _
    rw [UInt64.toNat_add]
    omega
  · rw [uncounted_insert, if_neg (by simp)] at count
    dsimp only
    rw [same, blooms]
    exact count
  · dsimp only
    rw [blooms]
    exact maxBytes

/-- A deletion takes its share off both sides, also while additions are in flight. -/
theorem Balanced.deleted {max : UInt64} {s : Server} {B : Buckets} {σ : Store} {key : CString}
    {p : Addr} {b : Bloom} (inv : Balanced max s) (rep : Represents s.store B)
    (held : s.store.Holds key p b) (removed : Removed s.store B p b σ) :
    Balanced max { s with store := σ } := by
  obtain ⟨table, blooms⟩ := removed.blooms
  obtain ⟨card, sum⟩ := removed.table (w := fieldSize) rep held
  have sizes : ∀ q, σ.sizeAt fieldSize q = s.store.sizeAt fieldSize q := by
    intro q
    by_cases here : q = p
    · subst here
      simp only [Store.sizeAt, removed.self, held.2.1, Option.elim_some, fieldSize]
    · simp only [Store.sizeAt, removed.same q here]
  have owed : due σ s.pending = due s.store s.pending := due_congr fun q _ => sizes q.node
  refine ⟨⟨_, removed.rep⟩, ?_, ?_, ?_, ?_⟩
  · intro q mem
    by_cases here : q.node = p
    · exact ⟨_, here ▸ removed.self⟩
    · obtain ⟨c, read⟩ := inv.nodes q mem
      exact ⟨c, (removed.same q.node here).trans read⟩
  · have bytes := inv.bytes
    have share : b.bytes.toNat = fieldSize b := rfl
    have small := UInt64.toNat_lt b.bytes
    dsimp only
    rw [owed, blooms]
    change ((s.store.blooms.bytes - b.bytes).toNat + _) % _ = _
    rw [UInt64.toNat_sub]
    omega
  · have count := inv.count
    dsimp only
    rw [blooms]
    change s.store.blooms.count - 1 + _ = _
    rw [← card, Int32.ofNat_add] at count
    rw [Int32.sub_eq_add_neg, Int32.add_assoc, Int32.add_comm (-1), ← Int32.add_assoc, count,
      ← Int32.sub_eq_add_neg]
    exact Int32.add_sub_cancel _ _
  · dsimp only
    rw [blooms]
    exact inv.maxBytes

/-- With nothing in flight the counters are those of the table. -/
theorem Balanced.quiet {max : UInt64} {s : Server} (inv : Balanced max s) (quiet : s.pending = [])
    (low : s.store.total fieldSize ≤ max.toNat) : s.store.Accounted fieldSize := by
  obtain ⟨_, _, bytes, count, maxBytes⟩ := inv
  rw [quiet] at bytes count
  have top := UInt64.toNat_lt max
  have bound := UInt64.toNat_lt s.store.blooms.bytes
  have nothing : due s.store [] = 0 := rfl
  refine ⟨by omega, ?_, ?_⟩
  · rw [UInt64.le_iff_toNat_le, maxBytes]
    omega
  · exact (Int32.add_zero _).symm.trans count

end Server

/-- What an action of a run must meet for the accounts to come out right: an addition that will
link a filter finds room for it beside all filters of the table, charged or not, and no dump is
taken while an addition is in flight. -/
def Orderly (E : Env) (s : Server) : ServerAction → Prop
  | .add key n e mem => ¬ s.store.Present key → ¬ Rejects E mem s.store.blooms n e →
      s.store.total fieldSize + (calculate E.libm n e).bytes.toNat ≤ s.store.blooms.maxBytes.toNat ∧
        s.store.table.card + 1 < 2 ^ 31
  | .dump _ => s.pending = []
  | .count | .bytes | .delete _ => True

theorem ServerStep.orderly {E : Env} {max : UInt64} {s s' : Server} {a : ServerAction}
    (step : ServerStep E s a s') (meets : Orderly E s a) (inv : Server.Balanced max s)
    (low : s.store.total fieldSize ≤ max.toNat ∧ s.store.table.card < 2 ^ 31) :
    Server.Balanced max s' ∧ s'.store.total fieldSize ≤ max.toNat ∧
      s'.store.table.card < 2 ^ 31 := by
  obtain ⟨B, rep⟩ := inv.rep
  cases step with
  | @refused key n e mem ret σ run =>
      rcases rep.addSection_cases E mem key n e with
        ⟨_, same⟩ | ⟨_, _, same⟩ | ⟨_, _, same⟩ | ⟨_, _, _, same⟩
      all_goals cases run.symm.trans same
      · exact ⟨inv, low⟩
      · exact ⟨inv, low⟩
  | @linked key n e mem ret p σ run =>
      rcases rep.addSection_cases E mem key n e with
        ⟨_, same⟩ | ⟨_, _, same⟩ | ⟨absent, init, same⟩ | ⟨_, _, _, same⟩
      all_goals cases run.symm.trans same
      have accepted : ¬ Rejects E mem s.store.blooms n e := by
        intro rejects
        cases init.symm.trans (bloomInit_eq_none_iff.mpr rejects)
      obtain ⟨room, few⟩ := meets absent accepted
      have next := inv.link (b := newBloom E key n e) rep absent rfl
      obtain ⟨card, sum⟩ := rep.table_added (b := newBloom E key n e) (w := fieldSize) absent rfl
      refine ⟨next, ?_, ?_⟩
      · rw [inv.maxBytes] at room
        exact sum.trans_le room
      · exact card.trans_lt few
  | counted p l₁ l₂ here =>
      obtain ⟨same, sum⟩ := Store.total_bumpCount (w := fieldSize) s.store
      exact ⟨inv.counted here, sum.trans_le low.1, same ▸ low.2⟩
  | charged p l₁ l₂ here run =>
      obtain ⟨nd, _, heap, blooms⟩ := addBytes_spec run
      obtain ⟨same, sum⟩ := Store.total_congr (w := fieldSize) heap (by rw [blooms])
      exact ⟨inv.charged here run, sum.trans_le low.1, same ▸ low.2⟩
  | @deleted key ret σ run =>
      rcases rep.delete_cases key with ⟨_, same⟩ | ⟨p, b, σ', held, same, removed⟩
      · cases run.symm.trans same
        exact ⟨inv, low⟩
      · cases run.symm.trans same
        obtain ⟨card, sum⟩ := removed.table (w := fieldSize) rep held
        refine ⟨inv.deleted rep held removed, ?_, ?_⟩
        · dsimp only
          omega
        · dsimp only
          omega
  | dumped => exact ⟨inv, low⟩

/-- An addition of a new key links its filter and leaves the two counters to later. -/
theorem ServerStep.links {E : Env} {s : Server} {B : Buckets} {key : CString} {n : UInt64} {e : Float}
    {mem : Alloc} (rep : Represents s.store B) (absent : ¬ s.store.Present key)
    (init : bloomInit E mem s.store.blooms key n e = .ok (some (newBloom E key n e))) :
    ServerStep E s (.add key n e mem)
      ⟨s.store.pushNode (s.store.bucket key) (newBloom E key n e),
        ⟨s.store.heap.length, .count⟩ :: s.pending⟩ := by
  rcases rep.addSection_cases E mem key n e with
    ⟨present, _⟩ | ⟨_, rejects, _⟩ | ⟨_, _, same⟩ | ⟨_, _, fails, _⟩
  · exact absurd present absent
  · cases init.symm.trans (bloomInit_eq_none_iff.mpr rejects)
  · exact .linked same
  · cases init.symm.trans fails

/-- In every run whose actions are orderly the accounts are exact whenever no addition is in
flight, and so is what every dump writes. -/
theorem concurrent_accounting {E : Env} {max : UInt64} {heap : List Node} {T : List ServerAction}
    {s : Server} (run : Run (Guarded (Orderly E) (ServerStep E)) (Server.start max heap) T s) :
    (s.pending = [] → s.store.Exact fieldSize) ∧
    ∀ A s', Guarded (Orderly E) (ServerStep E) s (.dump A) s' →
      A.bytes.toNat = s.store.total fieldSize ∧ A.bytes ≤ A.maxBytes ∧
        A.count.toInt = s.store.table.card := by
  have all := run.invariant (I := fun s => Server.Balanced max s ∧
    s.store.total fieldSize ≤ max.toNat ∧ s.store.table.card < 2 ^ 31) ?_ ?_
  · obtain ⟨inv, low, few⟩ := all
    have quiet (none : s.pending = []) : s.store.Exact fieldSize :=
      (inv.quiet none low).exact_iff.mpr few
    refine ⟨quiet, ?_⟩
    rintro A s' ⟨none, step⟩
    cases step with
    | dumped => exact ⟨(quiet none).bytes, (quiet none).budget, (quiet none).count⟩
  · have acc := bloomsInit_accounted max heap fieldSize
    have empty := table_bloomsInit max heap
    have nothing : (bloomsInit max heap).total fieldSize = 0 := acc.bytes.symm
    refine ⟨⟨⟨_, bloomsInit_represents max heap⟩, ?_, ?_, ?_, rfl⟩, ?_, ?_⟩
    · intro q mem
      cases mem
    · exact congrArg (· % 2 ^ 64) acc.bytes
    · exact (Int32.add_zero _).trans acc.count
    · exact nothing.trans_le (Nat.zero_le _)
    · change (bloomsInit max heap).table.card < _
      rw [empty]
      decide
  · rintro s a s' ⟨inv, low⟩ ⟨meets, step⟩
    exact step.orderly meets inv low

/-- Two additions at once, counted and charged after both have linked their filters, and a dump. -/
theorem concurrent_accounting_added : ∃ T A s,
    Run (Guarded (Orderly (serverEnv Libm.oneHalf)) (ServerStep (serverEnv Libm.oneHalf)))
      (Server.start 300 []) (.dump A :: T) s ∧ T.length = 6 ∧ s.store.Exact fieldSize ∧
      A.bytes = 288 ∧ A.bytes.toNat = s.store.total fieldSize ∧
      A.count.toInt = s.store.table.card := by
  have rep := bloomsInit_represents 300 []
  have start : (bloomsInit 300 []).total fieldSize = 0 :=
    (bloomsInit_accounted 300 [] fieldSize).bytes.symm
  have empty : (bloomsInit 300 []).table.card = 0 := by
    rw [table_bloomsInit]
    rfl
  have absent : ¬ (bloomsInit 300 []).Present [97] := by
    rintro ⟨p, b, held⟩
    have linked := rep.mem_table.mpr held.1
    rw [Finset.card_eq_zero.mp empty] at linked
    exact absurd linked (Finset.notMem_empty p)
  have init : bloomInit (serverEnv Libm.oneHalf) ⟨true, true⟩ (bloomsInit 300 []).blooms [97] 32 0.5 =
      .ok (some (newBloom (serverEnv Libm.oneHalf) [97] 32 0.5)) := rfl
  have room : Orderly (serverEnv Libm.oneHalf) (Server.start 300 []) (.add [97] 32 0.5 ⟨true, true⟩) := by
    intro _ _
    change (bloomsInit 300 []).total fieldSize + _ ≤ _ ∧ (bloomsInit 300 []).table.card + 1 < _
    rw [start, empty]
    decide
  have first := ServerStep.links (s := Server.start 300 []) rep absent init
  -- the first filter is in the table and not yet charged
  obtain ⟨card, sum⟩ :=
    rep.table_linked (b := newBloom (serverEnv Libm.oneHalf) [97] 32 0.5) (w := fieldSize) absent rfl
  have room' : Orderly (serverEnv Libm.oneHalf)
      ⟨(bloomsInit 300 []).pushNode ((bloomsInit 300 []).bucket [97])
        (newBloom (serverEnv Libm.oneHalf) [97] 32 0.5), [⟨0, .count⟩]⟩
      (.add [98] 32 0.5 ⟨true, true⟩) := by
    intro _ _
    refine ⟨(Nat.add_le_add_right (sum.trans (congrArg (· + _) start)).le _).trans ?_, ?_⟩
    · decide
    · exact (Nat.add_le_add_right (card.trans (congrArg (· + 1) empty)).le 1).trans_lt (by decide)
  have second : ServerStep (serverEnv Libm.oneHalf)
      ⟨(bloomsInit 300 []).pushNode ((bloomsInit 300 []).bucket [97])
        (newBloom (serverEnv Libm.oneHalf) [97] 32 0.5), [⟨0, .count⟩]⟩
      (.add [98] 32 0.5 ⟨true, true⟩) _ := .linked rfl
  have added := (Run.single (show Guarded (Orderly _) (ServerStep _) (Server.start 300 []) _ _
    from ⟨room, first⟩)).snoc ⟨room', second⟩
  have counted := added.snoc (show Guarded (Orderly _) (ServerStep _) _ .count _
    from ⟨trivial, .counted 1 [] [⟨0, .count⟩] rfl⟩)
  have both := counted.snoc (show Guarded (Orderly _) (ServerStep _) _ .count _
    from ⟨trivial, .counted 0 [⟨1, .bytes⟩] [] rfl⟩)
  have charged := both.snoc (show Guarded (Orderly _) (ServerStep _) _ .bytes _
    from ⟨trivial, .charged 1 [] [⟨0, .bytes⟩] rfl rfl⟩)
  have quiet := charged.snoc (show Guarded (Orderly _) (ServerStep _) _ .bytes _
    from ⟨trivial, .charged 0 [] [] rfl rfl⟩)
  obtain ⟨exact, dumps⟩ := concurrent_accounting quiet
  obtain ⟨bytes, _, count⟩ := dumps _ _ ⟨rfl, .dumped⟩
  exact ⟨_, _, _, quiet.snoc ⟨rfl, .dumped⟩, rfl, exact rfl, by decide, bytes, count⟩

/-- Two additions that both pass the check before either is charged leave more than `max_bytes`
in the table. -/
theorem concurrent_overrun :
    ∃ T s, Run (ServerStep (serverEnv Libm.oneHalf)) (Server.start 200 []) T s ∧
      s.pending = [] ∧ s.store.blooms.maxBytes < s.store.blooms.bytes ∧
      ¬ s.store.Exact fieldSize := by
  have first : ServerStep (serverEnv Libm.oneHalf) (Server.start 200 [])
    (.add [97] 32 0.5 ⟨true, true⟩) _ := .linked rfl
  have both := (Run.single first).snoc (show ServerStep _ _ (.add [98] 32 0.5 ⟨true, true⟩) _
    from .linked rfl)
  have run := (((both.snoc (.counted 1 [] [⟨0, .count⟩] rfl)).snoc
    (.counted 0 [⟨1, .bytes⟩] [] rfl)).snoc (.charged 1 [] [⟨0, .bytes⟩] rfl rfl)).snoc
    (.charged 0 [] [] rfl rfl)
  refine ⟨_, _, run, rfl, by decide, fun exact => ?_⟩
  exact absurd exact.budget (by decide)

end BloomServer
