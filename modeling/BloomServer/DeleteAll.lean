import BloomServer.RestartAccounting
import Mathlib.Algebra.Group.Nat.Even
import Mathlib.Algebra.Ring.Parity

/-! `blooms_delete_all`, and the two calls through which a client can ask for it. -/
namespace BloomServer
open LabelledRun LinkedChain

/-- `while (next)`: `next` is unlinked and deleted, and the walk goes on behind it without
looking whether there is a node. -/
def deleteNextLoop : Nat → Addr → Option Addr → Store → Except Stop Store
  | _, _, none, σ => .ok σ
  | 0, _, some _, _ => .error .endless
  | fuel + 1, bloom, some next, σ => do
      let nx ← readNode σ.heap next
      let σ ← bloomDelete next (σ.setNext bloom nx.hashNext)
      let cur ← readNode σ.heap bloom
      let bloom ← follow cur.hashNext
      let cur ← readNode σ.heap bloom
      deleteNextLoop fuel bloom cur.hashNext σ

/-- One round of `for(int hv = 0; hv < num; hv++)`. -/
def deleteChain (σ : Store) (hv : Nat) : Except Stop Store :=
  match σ.blooms.hashtable hv with
  | none => .ok σ
  | some bloom => do
      let nd ← readNode σ.heap bloom
      deleteNextLoop σ.heap.length bloom nd.hashNext σ

/-- `blooms_delete_all`, which is also all that `BloomFilter::remove_all` calls. -/
def bloomsDeleteAll (σ : Store) : Except Stop Store := (List.range bloomsLen).foldlM deleteChain σ

/-- `ServHandler::delete_blooms_all`, which prints a line and does nothing else. -/
def deleteBloomsAll (σ : Store) : Store := σ

/-- What the loop leaves of a chain: every other node, from the first one on. -/
def survivors {α : Type*} : List α → List α
  | [] => []
  | [a] => [a]
  | a :: _ :: l => a :: survivors l

theorem head?_survivors {α : Type*} (l : List α) : (survivors l).head? = l.head? := by
  unfold survivors
  split <;> rfl

/-- The chains that filters have been taken out of. -/
structure Pruned (σ : Store) (B' : Buckets) (σ' : Store) : Prop where
  rep : Represents σ' B'
  counted : σ.Counted → σ'.Counted

theorem Pruned.trans {σ σ' σ'' : Store} {B' B'' : Buckets} (first : Pruned σ B' σ')
    (rest : Pruned σ' B'' σ'') : Pruned σ B'' σ'' :=
  ⟨rest.rep, fun counted => rest.counted (first.counted counted)⟩

namespace Represents

variable {σ : Store} {B : Buckets} {hv : Nat} {l₁ rest : List Addr} {a b : Addr}

/-- A node of a chain is read with the node behind it as its link. -/
theorem readNode_interior (rep : Represents σ B) (shape : B hv = l₁ ++ a :: rest) :
    ∃ nd, readNode σ.heap a = .ok nd ∧ nd.hashNext = rest.head? := by
  obtain ⟨nd, there, next⟩ := Option.map_eq_some_iff.mp (shape ▸ rep.chain hv).next_eq
  exact ⟨nd, readNode_eq there, next⟩

/-- One round of the loop up to the deletion: the node behind `a` leaves the chain. -/
theorem deleteNext (rep : Represents σ B) (shape : B hv = l₁ ++ a :: b :: rest) :
    ∃ nx σ', readNode σ.heap b = .ok nx ∧ bloomDelete b (σ.setNext a nx.hashNext) = .ok σ' ∧
      Pruned σ (Function.update B hv (l₁ ++ a :: rest)) σ' := by
  have again : B hv = (l₁ ++ [a]) ++ b :: rest := by rw [shape]; simp
  obtain ⟨nx, read, link⟩ := rep.readNode_interior again
  obtain ⟨c, readc, -⟩ := rep.placed hv b (by rw [shape]; simp)
  have held : σ.Holds c.key b c :=
    ⟨rep.linked_iff.mpr ⟨hv, by rw [shape]; simp⟩, readc, rfl⟩
  obtain ⟨σ', run, removed⟩ := bloomDelete_removed rep held (rep.threaded.unlink_next shape)
    (σ.setNext_bloomAt a _) ⟨_, rfl⟩
  have chains : (fun hv => (B hv).erase b) = Function.update B hv (l₁ ++ a :: rest) := by
    funext hv'
    by_cases same : hv' = hv
    · subst same
      have nodup := (rep.chain hv').nodup
      rw [shape] at nodup
      rw [Function.update_self, shape, erase_interior nodup]
    · rw [Function.update_of_ne same, List.erase_of_not_mem]
      intro mem
      exact same (rep.same_bucket mem (by rw [shape]; simp))
  refine ⟨nx, σ', read, ?_, ?_, removed.counted rep held⟩
  · rw [link]
    exact run
  · rw [← chains]
    exact removed.rep

/-- The loop ends well exactly if an even number of nodes is ahead. -/
theorem deleteNextLoop_cases {σ : Store} {B : Buckets} {l₁ rest : List Addr} {a : Addr}
    (rep : Represents σ B) (shape : B hv = l₁ ++ a :: rest) {fuel : Nat}
    (enough : rest.length ≤ fuel) :
    (Even rest.length ∧ ∃ σ', deleteNextLoop fuel a rest.head? σ = .ok σ' ∧
      Pruned σ (Function.update B hv (l₁ ++ survivors (a :: rest))) σ') ∨
    (¬ Even rest.length ∧ deleteNextLoop fuel a rest.head? σ = .error .badPointer) := by
  match rest, fuel with
  | [], fuel =>
      left
      refine ⟨Even.zero, σ, by cases fuel <;> rfl, ?_, id⟩
      rw [survivors, ← shape, Function.update_eq_self]
      exact rep
  | b :: _, 0 => cases enough
  | b :: rest, fuel + 1 =>
      obtain ⟨nx, σ₁, read, delete, pruned⟩ := rep.deleteNext shape
      have shape₁ : Function.update B hv (l₁ ++ a :: rest) hv = l₁ ++ a :: rest :=
        Function.update_self ..
      obtain ⟨cur, readCur, link⟩ := pruned.rep.readNode_interior shape₁
      have step : deleteNextLoop (fuel + 1) a (some b) σ =
          (follow rest.head? >>= fun bloom => readNode σ₁.heap bloom >>= fun cur =>
            deleteNextLoop fuel bloom cur.hashNext σ₁) := by
        rw [deleteNextLoop, read]
        change (bloomDelete b _ >>= _) = _
        rw [delete]
        change (readNode σ₁.heap a >>= _) = _
        rw [readCur, ← link]
        rfl
      rw [List.head?_cons, step]
      match rest with
      | [] =>
          right
          exact ⟨Nat.not_even_one, rfl⟩
      | c :: rest =>
          have shape₂ : Function.update B hv (l₁ ++ a :: c :: rest) hv = (l₁ ++ [a]) ++ c :: rest := by
            rw [shape₁, List.append_assoc, List.singleton_append]
          obtain ⟨cur₂, readCur₂, link₂⟩ := pruned.rep.readNode_interior shape₂
          have fewer : rest.length ≤ fuel := by
            simp only [List.length_cons] at enough
            omega
          have same : (follow (c :: rest).head? >>= fun bloom => readNode σ₁.heap bloom >>= fun cur =>
              deleteNextLoop fuel bloom cur.hashNext σ₁) =
                deleteNextLoop fuel c rest.head? σ₁ := by
            change (readNode σ₁.heap c >>= _) = _
            rw [readCur₂, ← link₂]
            rfl
          have parity : Even (b :: c :: rest).length ↔ Even rest.length := by
            rw [List.length_cons, List.length_cons, Nat.even_add_one, Nat.even_add_one, not_not]
          rw [same, parity]
          rcases pruned.rep.deleteNextLoop_cases shape₂ fewer with ⟨even, σ', run, rest'⟩ | fails
          · left
            refine ⟨even, σ', run, ?_⟩
            rw [Function.update_idem, List.append_assoc, List.singleton_append] at rest'
            exact pruned.trans rest'
          · exact Or.inr fails
termination_by rest.length

/-- A chain is pruned to every other node if it is empty or of odd length; otherwise the call
follows a null link. -/
theorem deleteChain_cases (rep : Represents σ B) (hv : Nat) :
    ((B hv = [] ∨ Odd (B hv).length) ∧ ∃ σ', deleteChain σ hv = .ok σ' ∧
      Pruned σ (Function.update B hv (survivors (B hv))) σ') ∨
    (B hv ≠ [] ∧ Even (B hv).length ∧ deleteChain σ hv = .error .badPointer) := by
  have head := (rep.chain hv).head_eq
  cases shape : B hv with
  | nil =>
      left
      rw [shape] at head
      refine ⟨Or.inl rfl, σ, by simp only [deleteChain, head, List.head?_nil], ?_, id⟩
      rw [survivors, ← shape, Function.update_eq_self]
      exact rep
  | cons a rest =>
      have enough : rest.length ≤ σ.heap.length := by
        have bound := rep.length_le hv
        rw [shape, List.length_cons] at bound
        omega
      have shape' : B hv = [] ++ a :: rest := shape
      obtain ⟨nd, read, link⟩ := rep.readNode_interior shape'
      have start : deleteChain σ hv = deleteNextLoop σ.heap.length a rest.head? σ := by
        rw [shape] at head
        simp only [deleteChain, head, List.head?_cons]
        rw [read, ← link]
        rfl
      rw [start, List.length_cons, Nat.odd_add_one, Nat.not_odd_iff_even, Nat.even_add_one]
      rcases rep.deleteNextLoop_cases shape' enough with ⟨even, run⟩ | ⟨odd, run⟩
      · exact Or.inl ⟨Or.inr even, run⟩
      · exact Or.inr ⟨List.cons_ne_nil a rest, odd, run⟩

end Represents

/-- Both outcomes of the loop over the buckets. -/
theorem deleteChains_cases {σ : Store} {B : Buckets} (rep : Represents σ B) {hvs : List Nat}
    (nodup : hvs.Nodup) :
    ((∀ hv ∈ hvs, B hv = [] ∨ Odd (B hv).length) ∧ ∃ σ', hvs.foldlM deleteChain σ = .ok σ' ∧
      Pruned σ (fun hv => if hv ∈ hvs then survivors (B hv) else B hv) σ') ∨
    ((∃ hv ∈ hvs, B hv ≠ [] ∧ Even (B hv).length) ∧
      hvs.foldlM deleteChain σ = .error .badPointer) := by
  induction hvs generalizing σ B with
  | nil =>
      left
      refine ⟨fun hv mem => absurd mem List.not_mem_nil, σ, rfl, ?_, id⟩
      simp only [List.not_mem_nil, if_false]
      exact rep
  | cons hv hvs ih =>
      obtain ⟨fresh, nodup⟩ := List.nodup_cons.mp nodup
      rw [List.foldlM_cons]
      rcases rep.deleteChain_cases hv with ⟨fine, σ₁, run, pruned⟩ | ⟨some, even, run⟩
      · have others : ∀ hv' ∈ hvs, Function.update B hv (survivors (B hv)) hv' = B hv' := by
          intro hv' mem
          apply Function.update_of_ne
          rintro rfl
          exact fresh mem
        rw [run]
        change (_ ∧ ∃ σ', hvs.foldlM deleteChain σ₁ = .ok σ' ∧ _) ∨
          (_ ∧ hvs.foldlM deleteChain σ₁ = .error .badPointer)
        rcases ih pruned.rep nodup with ⟨all, σ', rest, pruned'⟩ | ⟨⟨hv', mem, bad⟩, rest⟩
        · left
          constructor
          · intro hv' mem
            rcases List.mem_cons.mp mem with rfl | later
            · exact fine
            · rw [← others hv' later]
              exact all hv' later
          · refine ⟨σ', rest, ?_⟩
            convert pruned.trans pruned' using 1
            funext hv'
            by_cases here : hv' = hv
            · subst here
              rw [if_pos List.mem_cons_self, if_neg fresh, Function.update_self]
            · simp only [List.mem_cons, here, false_or, Function.update_of_ne here]
        · right
          rw [others hv' mem] at bad
          exact ⟨⟨hv', List.mem_cons_of_mem hv mem, bad⟩, rest⟩
      · right
        refine ⟨⟨hv, List.mem_cons_self, some, even⟩, ?_⟩
        rw [run]
        rfl

/-- `blooms_delete_all` leaves every other filter of each chain, or follows a null link behind
the last filter of a chain of even length. -/
theorem Represents.bloomsDeleteAll_cases {σ : Store} {B : Buckets} (rep : Represents σ B) :
    ((∀ hv, B hv = [] ∨ Odd (B hv).length) ∧ ∃ σ', bloomsDeleteAll σ = .ok σ' ∧
      Pruned σ (fun hv => survivors (B hv)) σ') ∨
    ((∃ hv, B hv ≠ [] ∧ Even (B hv).length) ∧ bloomsDeleteAll σ = .error .badPointer) := by
  have outside : ∀ hv, hv ∉ List.range bloomsLen → B hv = [] := by
    intro hv out
    apply List.eq_nil_iff_forall_not_mem.mpr
    intro p mem
    exact out (List.mem_range.mpr (rep.lt_bloomsLen mem))
  rcases deleteChains_cases rep List.nodup_range with ⟨all, σ', run, pruned⟩ | ⟨⟨hv, -, bad⟩, run⟩
  · left
    constructor
    · intro hv
      by_cases inside : hv ∈ List.range bloomsLen
      · exact all hv inside
      · exact Or.inl (outside hv inside)
    · refine ⟨σ', run, ?_⟩
      convert pruned using 1
      funext hv
      split_ifs with inside
      · rfl
      · rw [outside hv inside]
        rfl
  · exact Or.inr ⟨⟨hv, bad⟩, run⟩

/-! ### Tables that are cleared -/

/-- What happens to the table of a server: calls that return, clearing, and a new process that
loads the dump of the old one. -/
inductive ServeEvent
  | call (ev : Event)
  | deleteAll
  | restart

inductive Serves (E : Env) (σ : Store) : ServeEvent → Store → Prop
  | call {ev : Event} {σ' : Store} (returns : Returns E σ ev σ') : Serves E σ (.call ev) σ'
  | deleteAll {σ' : Store} (run : bloomsDeleteAll σ = .ok σ') : Serves E σ .deleteAll σ'
  | restart (heap : List Node) (junk : Nat → UInt64) :
      Serves E σ .restart (σ.serialize.load heap junk)

/-- Nothing is left in the table. -/
structure Store.Emptied (E : Env) (σ : Store) : Prop where
  chains : ∀ hv < bloomsLen, σ.blooms.hashtable hv = none
  count : σ.blooms.count = 0
  bytes : σ.blooms.bytes = 0
  absent : ∀ key subkey, ∃ σ', bloomsGet E key subkey σ = .ok (-1, σ')

/-- Clearing returns, empties the table, and the remote call does the same. -/
def Store.Clears (E : Env) (σ : Store) : Prop :=
  ∃ σ', bloomsDeleteAll σ = .ok σ' ∧ σ'.Emptied E ∧ deleteBloomsAll σ = σ'

theorem Serves.step {E : Env} {σ σ' : Store} {ev : ServeEvent} (serves : Serves E σ ev σ')
    (good : (∃ B, Represents σ B) ∧ σ.Counted) : (∃ B, Represents σ' B) ∧ σ'.Counted := by
  obtain ⟨⟨B, rep⟩, counted⟩ := good
  cases serves with
  | call returns =>
      obtain ⟨B', eff⟩ := returns.effect rep
      exact ⟨⟨B', eff.represents rep⟩, eff.counted rep counted⟩
  | deleteAll run =>
      rcases rep.bloomsDeleteAll_cases with ⟨-, σ₁, run₁, pruned⟩ | ⟨-, fails⟩
      · cases run.symm.trans run₁
        exact ⟨⟨_, pruned.rep⟩, pruned.counted counted⟩
      · cases run.symm.trans fails
  | restart heap junk =>
      refine ⟨⟨_, rep.load_represents heap junk⟩, ?_⟩
      unfold Store.Counted
      rw [(rep.load_total (w := fun _ => 0) heap junk fun _ _ => rfl).1]
      exact counted

theorem serves_represents {E : Env} {max : UInt64} {heap : List Node} {T : List ServeEvent}
    {σ : Store} (run : Run (Serves E) (bloomsInit max heap) T σ) :
    (∃ B, Represents σ B) ∧ σ.Counted := by
  apply run.invariant
  · exact ⟨⟨_, bloomsInit_represents max heap⟩, (bloomsInit_accounted max heap fun _ => 0).count⟩
  · intro σ ev σ' good serves
    exact serves.step good

section Emptied

variable {E : Env} {σ σ' : Store} {B : Buckets}

theorem Represents.nil_of_none (rep : Represents σ B)
    (chains : ∀ hv < bloomsLen, σ.blooms.hashtable hv = none) (hv : Nat) : B hv = [] := by
  apply List.eq_nil_iff_forall_not_mem.mpr
  intro p mem
  have head := (rep.chain hv).head_eq
  rw [chains hv (rep.lt_bloomsLen mem)] at head
  rw [List.head?_eq_none_iff.mp head.symm] at mem
  cases mem

/-- The first filter of a chain is never deleted. -/
theorem Represents.hashtable_deleteAll (rep : Represents σ B) (run : bloomsDeleteAll σ = .ok σ') :
    σ'.blooms.hashtable = σ.blooms.hashtable := by
  rcases rep.bloomsDeleteAll_cases with ⟨-, σ₁, run₁, pruned⟩ | ⟨-, fails⟩
  · cases run.symm.trans run₁
    funext hv
    rw [(pruned.rep.chain hv).head_eq, (rep.chain hv).head_eq, head?_survivors]
  · cases run.symm.trans fails

theorem deleteChains_none {hvs : List Nat} (none : ∀ hv ∈ hvs, σ.blooms.hashtable hv = none) :
    hvs.foldlM deleteChain σ = .ok σ := by
  induction hvs with
  | nil => rfl
  | cons hv hvs ih =>
      have here : deleteChain σ hv = .ok σ := by
        simp only [deleteChain, none hv List.mem_cons_self]
      rw [List.foldlM_cons, here]
      exact ih fun hv' mem => none hv' (List.mem_cons_of_mem hv mem)

theorem Represents.emptied (rep : Represents σ B) (counted : σ.Counted)
    (chains : ∀ hv < bloomsLen, σ.blooms.hashtable hv = none) (bytes : σ.blooms.bytes = 0) :
    σ.Emptied E := by
  have empty : ∀ p, ¬ σ.Linked p := by
    intro p linked
    obtain ⟨hv, mem⟩ := rep.linked_iff.mp linked
    rw [rep.nil_of_none chains hv] at mem
    cases mem
  refine ⟨chains, ?_, bytes, ?_⟩
  · have none : σ.table = ∅ := by
      apply Finset.eq_empty_of_forall_notMem
      intro p mem
      exact empty p (rep.mem_table.mp mem)
    rw [counted, none]
    rfl
  · intro key subkey
    rcases rep.get_cases E key subkey with ⟨-, run⟩ | ⟨p, b, held, -⟩
    · exact ⟨σ, run⟩
    · exact absurd held.1 (empty p)

end Emptied

/-- Clearing empties exactly the tables that are empty already, with nothing on the account. -/
theorem clears_iff_empty {E : Env} {max : UInt64} {heap : List Node} {T : List ServeEvent}
    {σ : Store} (run : Run (Serves E) (bloomsInit max heap) T σ) :
    σ.Clears E ↔ (∀ hv < bloomsLen, σ.blooms.hashtable hv = none) ∧ σ.blooms.bytes = 0 := by
  obtain ⟨⟨B, rep⟩, counted⟩ := serves_represents run
  constructor
  · rintro ⟨σ', cleared, emptied, rfl⟩
    exact ⟨emptied.chains, emptied.bytes⟩
  · rintro ⟨chains, bytes⟩
    have same : bloomsDeleteAll σ = .ok σ :=
      deleteChains_none fun hv mem => chains hv (List.mem_range.mp mem)
    exact ⟨σ, same, rep.emptied counted chains bytes, rfl⟩

/-- Clearing a table in which nothing has been added yet. -/
theorem clears_iff_empty_new : ∃ T σ,
    Run (Serves (serverEnv Libm.oneHalf)) (bloomsInit 1000 []) (.deleteAll :: T) σ ∧
      σ.Clears (serverEnv Libm.oneHalf) := by
  have absent : Serves (serverEnv Libm.oneHalf) (bloomsInit 1000 []) (.call (.set [97] [120], 1))
      (bloomsInit 1000 []) := .call rfl
  have cleared : bloomsDeleteAll (bloomsInit 1000 []) = .ok (bloomsInit 1000 []) :=
    deleteChains_none fun _ _ => rfl
  have run := (Run.single absent).snoc (.deleteAll cleared)
  exact ⟨_, _, run, (clears_iff_empty run).mpr ⟨fun _ _ => rfl, rfl⟩⟩

/-- Two filters in one chain: the loop deletes the older one and then looks for a node behind it. -/
theorem not_clears_collision : ¬ ∀ T σ,
    Run (Serves (serverEnv Libm.oneHalf)) (bloomsInit 1000 []) T σ →
      σ.Clears (serverEnv Libm.oneHalf) := by
  intro all
  let hv := bucketOf hashPower [97, 98]
  obtain ⟨σ, run, head, second, last⟩ := exists_run_and (E := serverEnv Libm.oneHalf)
    (σ := bloomsInit 1000 [])
    (T := [(.add [98, 65] 16 0.5 ⟨true, true⟩, 0), (.add [97, 98] 32 0.5 ⟨true, true⟩, 0)])
    (P := fun σ => σ.blooms.hashtable hv = some 1 ∧ σ.link 1 = some (some 0) ∧
      σ.link 0 = some none) (by decide +kernel)
  obtain ⟨B, rep⟩ := reachable_represents run
  obtain ⟨τ, before, returns⟩ := run.of_cons
  obtain ⟨υ, start, first⟩ := before.of_cons
  have same := start.of_nil
  subst same
  obtain ⟨σ', cleared, -⟩ := all _ σ ((Run.single (.call first)).snoc (.call returns))
  have chain : Chain σ.link (σ.blooms.hashtable hv) [1, 0] := by
    rw [head]
    exact .cons second (.cons last .nil)
  have two : B hv = [1, 0] := (rep.chain hv).unique chain
  rcases rep.bloomsDeleteAll_cases with ⟨fine, -⟩ | ⟨-, fails⟩
  · have odd := (fine hv).resolve_left (by rw [two]; exact List.cons_ne_nil 1 _)
    rw [two] at odd
    exact absurd odd (by decide)
  · cases cleared.symm.trans fails

end BloomServer
