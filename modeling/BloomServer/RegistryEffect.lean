import BloomServer.RegistryRep

/-! What each operation of the registry can do, said once: the value it returns,
the chains it leaves, and the filters it touches. -/
namespace BloomServer
open LinkedChain

namespace Store

variable (σ : Store) (p : Addr) (hv : Nat) (b : Bloom)

theorem pushNode_link_of_lt (old : p < σ.heap.length) : (σ.pushNode hv b).link p = σ.link p := by
  simp only [link, pushNode, List.getElem?_append_left old]

theorem pushNode_link_new :
    (σ.pushNode hv b).link σ.heap.length = some (σ.blooms.hashtable hv) := by
  simp [link, pushNode]

theorem pushNode_bloomAt_of_lt (old : p < σ.heap.length) :
    (σ.pushNode hv b).bloomAt p = σ.bloomAt p := by
  simp only [bloomAt, pushNode, List.getElem?_append_left old]

theorem pushNode_bloomAt_new : (σ.pushNode hv b).bloomAt σ.heap.length = some b := by
  simp [bloomAt, pushNode]

end Store

/-- Counters are no part of the table. -/
theorem Represents.of_same {σ σ' : Store} {B : Buckets} (rep : Represents σ B)
    (heap : σ'.heap = σ.heap) (table : σ'.blooms.hashtable = σ.blooms.hashtable)
    (power : σ'.blooms.power = σ.blooms.power) : Represents σ' B := by
  have links : σ'.link = σ.link := by funext p; simp only [Store.link, heap]
  have reads : σ'.bloomAt = σ.bloomAt := by funext p; simp only [Store.bloomAt, heap]
  constructor
  · rw [power, rep.power]
  · rw [links, table]; exact rep.chain
  · rw [reads]; exact rep.placed
  · rw [reads]; exact rep.live
  · rw [reads]; exact rep.distinct

theorem Represents.pushNode {σ : Store} {B : Buckets} {b : Bloom} (rep : Represents σ B)
    (absent : ¬ σ.Present b.key) (live : b.vHash.isSome) :
    Represents (σ.pushNode (σ.bucket b.key) b)
      (Function.update B (σ.bucket b.key) (σ.heap.length :: B (σ.bucket b.key))) := by
  have home := rep.bucket_eq b.key
  have old : ∀ hv, ∀ q ∈ B hv, q < σ.heap.length := fun hv q mem => rep.lt_length mem
  have reads : ∀ hv, ∀ q ∈ B hv,
      (σ.pushNode (σ.bucket b.key) b).bloomAt q = σ.bloomAt q :=
    fun hv q mem => σ.pushNode_bloomAt_of_lt q _ b (old hv q mem)
  have links : ∀ hv, ∀ q ∈ B hv, (σ.pushNode (σ.bucket b.key) b).link q = σ.link q :=
    fun hv q mem => σ.pushNode_link_of_lt q _ b (old hv q mem)
  have cases : ∀ hv q, q ∈ Function.update B (σ.bucket b.key)
      (σ.heap.length :: B (σ.bucket b.key)) hv →
        q ∈ B hv ∨ (q = σ.heap.length ∧ hv = bucketOf hashPower b.key) := by
    intro hv q mem
    by_cases same : hv = σ.bucket b.key
    · rw [same, Function.update_self, List.mem_cons] at mem
      rcases mem with rfl | mem
      · exact Or.inr ⟨rfl, same.trans home⟩
      · exact Or.inl (same ▸ mem)
    · rw [Function.update_of_ne same] at mem
      exact Or.inl mem
  have fresh : ∀ hv, ∀ q ∈ B hv, ∀ c, hv = bucketOf hashPower b.key → σ.bloomAt q = some c →
      c.key ≠ b.key := by
    rintro hv q mem c rfl read same
    exact absent ⟨q, c, rep.holds_iff.mpr ⟨mem, read, same⟩⟩
  constructor
  · exact rep.power
  · intro hv
    by_cases same : hv = σ.bucket b.key
    · subst same
      rw [Function.update_self]
      have head : (σ.pushNode (σ.bucket b.key) b).blooms.hashtable (σ.bucket b.key) =
          some σ.heap.length := Function.update_self ..
      rw [head]
      exact (rep.chain _).push (σ.pushNode_link_new _ b) (links _)
    · have head : (σ.pushNode (σ.bucket b.key) b).blooms.hashtable hv = σ.blooms.hashtable hv :=
        Function.update_of_ne same ..
      rw [Function.update_of_ne same, head]
      exact (rep.chain hv).congr (links hv)
  · intro hv q mem
    rcases cases hv q mem with mem | ⟨rfl, rfl⟩
    · obtain ⟨c, read, place⟩ := rep.placed hv q mem
      exact ⟨c, (reads hv q mem).trans read, place⟩
    · exact ⟨b, σ.pushNode_bloomAt_new _ b, rfl⟩
  · intro hv q mem c read
    rcases cases hv q mem with mem | ⟨rfl, rfl⟩
    · exact rep.live hv q mem c ((reads hv q mem).symm.trans read)
    · have same := Option.some.inj (read.symm.trans (σ.pushNode_bloomAt_new _ b))
      rw [same]
      exact live
  · intro hv q memq r memr c d readq readr same
    rcases cases hv q memq with memq | ⟨rfl, place⟩ <;>
      rcases cases hv r memr with memr | ⟨rfl, place'⟩
    · exact rep.distinct hv q memq r memr c d ((reads hv q memq).symm.trans readq)
        ((reads hv r memr).symm.trans readr) same
    · have new := Option.some.inj (readr.symm.trans (σ.pushNode_bloomAt_new _ b))
      exact absurd (same.trans (by rw [new]))
        (fresh hv q memq c place' ((reads hv q memq).symm.trans readq))
    · have new := Option.some.inj (readq.symm.trans (σ.pushNode_bloomAt_new _ b))
      exact absurd (same.symm.trans (by rw [new]))
        (fresh hv r memr d place ((reads hv r memr).symm.trans readr))
    · rfl

/-- Rewriting a linked filter under its own key keeps the table. -/
theorem Represents.setBloom {σ : Store} {B : Buckets} {key : CString} {p : Addr} {b b' : Bloom}
    (rep : Represents σ B) (held : σ.Holds key p b) (sameKey : b'.key = b.key)
    (live : b'.vHash.isSome) : Represents (σ.setBloom p b') B := by
  have there : p < σ.heap.length := σ.lt_of_bloomAt p held.2.1
  have keys : ∀ q c, (σ.setBloom p b').bloomAt q = some c →
      ∃ c', σ.bloomAt q = some c' ∧ c'.key = c.key ∧ (c.vHash.isSome ∨ c' = c) := by
    intro q c read
    by_cases here : p = q
    · subst here
      rw [σ.setBloom_bloomAt_self p b' there] at read
      rw [← Option.some.inj read]
      exact ⟨b, held.2.1, sameKey.symm, Or.inl live⟩
    · rw [σ.setBloom_bloomAt_of_ne p q b' here] at read
      exact ⟨c, read, rfl, Or.inr rfl⟩
  constructor
  · exact rep.power
  · rw [Store.setBloom_link, Store.setBloom_blooms]
    exact rep.chain
  · intro hv q mem
    obtain ⟨c, read, place⟩ := rep.placed hv q mem
    by_cases here : p = q
    · subst here
      have same := Option.some.inj (held.2.1.symm.trans read)
      exact ⟨b', σ.setBloom_bloomAt_self p b' there, by rw [sameKey, same, place]⟩
    · exact ⟨c, (σ.setBloom_bloomAt_of_ne p q b' here).trans read, place⟩
  · intro hv q mem c read
    obtain ⟨c', read', _, settled⟩ := keys q c read
    rcases settled with done | same
    · exact done
    · exact rep.live hv q mem c (same ▸ read')
  · intro hv q memq r memr c d readq readr same
    obtain ⟨c', readc, keyc, _⟩ := keys q c readq
    obtain ⟨d', readd, keyd, _⟩ := keys r d readr
    exact rep.distinct hv q memq r memr c' d' readc readd (by rw [keyc, keyd, same])

/-- A smaller table over unchanged filters is again a table. -/
theorem Represents.restrict {σ σ' : Store} {B B' : Buckets} (rep : Represents σ B)
    (power : σ'.blooms.power = σ.blooms.power)
    (chain : ∀ hv, Chain σ'.link (σ'.blooms.hashtable hv) (B' hv))
    (sub : ∀ hv, ∀ p ∈ B' hv, p ∈ B hv)
    (reads : ∀ hv, ∀ p ∈ B' hv, σ'.bloomAt p = σ.bloomAt p) : Represents σ' B' where
  power := power.trans rep.power
  chain := chain
  placed hv p mem := by
    rw [reads hv p mem]
    exact rep.placed hv p (sub hv p mem)
  live hv p mem b read := by
    rw [reads hv p mem] at read
    exact rep.live hv p (sub hv p mem) b read
  distinct hv p memp q memq b c readp readq := by
    rw [reads hv p memp] at readp
    rw [reads hv q memq] at readq
    exact rep.distinct hv p (sub hv p memp) q (sub hv q memq) b c readp readq

/-! ### Unlinking -/

/-- The outcome of deleting the filter `b` at `p`: the node has left its chain, the
counters are lower by its share, and every other filter is as it was. -/
structure Removed (σ : Store) (B : Buckets) (p : Addr) (b : Bloom) (σ' : Store) : Prop where
  rep : Represents σ' (fun hv => (B hv).erase p)
  self : σ'.bloomAt p = some { b with vHash := none }
  same : ∀ q, q ≠ p → σ'.bloomAt q = σ.bloomAt q
  blooms : ∃ table, σ'.blooms = { σ.blooms with
    bytes := σ.blooms.bytes - b.bytes, count := σ.blooms.count - 1, hashtable := table }

/-- `bloom_delete` on a node that has just left its chain. -/
theorem bloomDelete_removed {σ τ : Store} {B : Buckets} {key : CString} {p : Addr} {b : Bloom}
    (rep : Represents σ B) (held : σ.Holds key p b)
    (chain : ∀ hv, Chain τ.link (τ.blooms.hashtable hv) ((B hv).erase p))
    (reads : τ.bloomAt = σ.bloomAt)
    (blooms : ∃ table, τ.blooms = { σ.blooms with hashtable := table }) :
    ∃ σ', bloomDelete p τ = .ok σ' ∧ Removed σ B p b σ' := by
  obtain ⟨map, vector⟩ := rep.vector held
  have readb : τ.bloomAt p = some b := by rw [reads]; exact held.2.1
  obtain ⟨nd, read, payload⟩ := Option.map_eq_some_iff.mp readb
  obtain ⟨table, scalars⟩ := blooms
  have alive : ¬ nd.bloom.vHash.isNone := by rw [payload, vector]; simp
  let σ' : Store :=
    { τ.setBloom p { nd.bloom with vHash := none } with
      blooms := { τ.blooms with
        bytes := τ.blooms.bytes - nd.bloom.bytes
        count := τ.blooms.count - 1 } }
  have run : bloomDelete p τ = .ok σ' := by
    simp only [bloomDelete, readNode_eq read]
    change (if nd.bloom.vHash.isNone then _ else _) = _
    rw [if_neg alive]
    rfl
  have others : ∀ q, q ≠ p → σ'.bloomAt q = σ.bloomAt q := by
    intro q differ
    rw [← reads]
    exact τ.setBloom_bloomAt_of_ne p q _ (Ne.symm differ)
  refine ⟨σ', run, ?_, ?_, others, table, ?_⟩
  · refine rep.restrict (by change τ.blooms.power = _; rw [scalars]) ?_ ?_ ?_
    · intro hv
      change Chain (τ.setBloom p _).link (τ.blooms.hashtable hv) _
      rw [Store.setBloom_link]
      exact chain hv
    · exact fun hv q mem => List.mem_of_mem_erase mem
    · intro hv q mem
      exact others q (((rep.chain hv).nodup.mem_erase_iff.mp mem).1)
  · rw [← payload]
    exact τ.setBloom_bloomAt_self p _ (τ.lt_of_bloomAt p readb)
  · dsimp only [σ']
    rw [payload, scalars]

/-- The trailing-pointer loop, started at `a` with the rest of the chain ahead of it. -/
theorem unlinkLoop_spec {σ : Store} (key : CString) {head : Option Addr} {l₁ rest : List Addr}
    {a : Addr} (chain : Chain σ.link head (l₁ ++ a :: rest))
    (live : ∀ p ∈ a :: rest, ∃ b, σ.bloomAt p = some b) {fuel : Nat} (enough : rest.length ≤ fuel) :
    (∃ prev next s t b, unlinkLoop σ.heap key fuel a rest.head? = .ok (some (prev, next)) ∧
      a :: rest = s ++ prev :: next :: t ∧ σ.bloomAt next = some b ∧ b.key = key) ∨
    (unlinkLoop σ.heap key fuel a rest.head? = .ok none ∧
      ∀ q ∈ rest, ∀ b, σ.bloomAt q = some b → b.key ≠ key) := by
  induction rest generalizing l₁ a fuel with
  | nil =>
      refine Or.inr ⟨by cases fuel <;> rfl, ?_⟩
      intro q mem
      cases mem
  | cons next rest ih =>
      have again : l₁ ++ a :: next :: rest = (l₁ ++ [a]) ++ next :: rest := by simp
      have linka : σ.link a = some (some next) := chain.next_eq
      have linkn : σ.link next = some rest.head? := (again ▸ chain).next_eq
      obtain ⟨b, readb⟩ := live next (by simp)
      obtain ⟨c, readc⟩ := live a (by simp)
      have here := readNode_eq (σ.getElem?_heap next readb linkn)
      have before := readNode_eq (σ.getElem?_heap a readc linka)
      cases fuel with
      | zero => simp only [List.length_cons] at enough; omega
      | succ fuel =>
          have step : unlinkLoop σ.heap key (fuel + 1) a (some next) =
              if b.key = key then .ok (some (a, next))
              else unlinkLoop σ.heap key fuel next rest.head? := by
            simp only [unlinkLoop, here, before, follow]
            by_cases same : b.key = key
            · change (if b.key = key then _ else _) = _
              rw [if_pos same, if_pos same]
            · change (if b.key = key then _ else _) = _
              rw [if_neg same, if_neg same]
              change (readNode σ.heap next >>= fun cur =>
                unlinkLoop σ.heap key fuel next cur.hashNext) = _
              rw [here]
              rfl
          rw [List.head?_cons, step]
          by_cases same : b.key = key
          · exact Or.inl ⟨a, next, [], rest, b, if_pos same, rfl, readb, same⟩
          · rw [if_neg same]
            rcases ih (again ▸ chain) (fun p mem => live p (List.mem_cons_of_mem a mem))
                (by simpa only [List.length_cons, Nat.add_le_add_iff_right] using enough) with
              ⟨prev, nx, s, t, d, run, cut, readd, keyd⟩ | ⟨run, none⟩
            · exact Or.inl ⟨prev, nx, a :: s, t, d, run, by rw [cut]; rfl, readd, keyd⟩
            · refine Or.inr ⟨run, ?_⟩
              intro q mem d readd
              rcases List.mem_cons.mp mem with rfl | later
              · rw [← Option.some.inj (readb.symm.trans readd)]
                exact same
              · exact none q later d readd

theorem erase_interior {l₁ l₂ : List Addr} {a p : Addr} (nodup : (l₁ ++ a :: p :: l₂).Nodup) :
    (l₁ ++ a :: p :: l₂).erase p = l₁ ++ a :: l₂ := by
  have again : l₁ ++ a :: p :: l₂ = (l₁ ++ [a]) ++ p :: l₂ := by simp
  have absent : p ∉ l₁ ++ [a] := by
    rw [again] at nodup
    intro mem
    exact (List.nodup_append.mp nodup).2.2 p mem p List.mem_cons_self rfl
  rw [again, List.erase_append_right _ absent, List.erase_cons_head]
  simp

/-- Deleting the head of a chain. -/
theorem Threaded.unlink_head {σ : Store} {B : Buckets} {p : Addr} {hv : Nat} {l : List Addr}
    (thr : Threaded σ B) (shape : B hv = p :: l) (hv' : Nat) :
    Chain (σ.setHead hv l.head?).link ((σ.setHead hv l.head?).blooms.hashtable hv')
      ((B hv').erase p) := by
  rw [Store.setHead_link]
  by_cases same : hv' = hv
  · subst same
    obtain ⟨q, _, rest⟩ := (shape ▸ thr.chain hv').pop
    have head : (σ.setHead hv' l.head?).blooms.hashtable hv' = l.head? := Function.update_self ..
    rw [head, shape, List.erase_cons_head, ← rest.head_eq]
    exact rest
  · have head : (σ.setHead hv l.head?).blooms.hashtable hv' = σ.blooms.hashtable hv' :=
      Function.update_of_ne same ..
    have mem : p ∈ B hv := by rw [shape]; exact List.mem_cons_self
    rw [head, List.erase_of_not_mem fun mem' => same (thr.apart _ _ p mem' mem)]
    exact thr.chain hv'

/-- Deleting an interior node of a chain. -/
theorem Threaded.unlink_next {σ : Store} {B : Buckets} {a p : Addr} {hv : Nat}
    {l₁ l₂ : List Addr} (thr : Threaded σ B) (shape : B hv = l₁ ++ a :: p :: l₂) (hv' : Nat) :
    Chain (σ.setNext a l₂.head?).link ((σ.setNext a l₂.head?).blooms.hashtable hv')
      ((B hv').erase p) := by
  have mema : a ∈ B hv := by rw [shape]; simp
  have memp : p ∈ B hv := by rw [shape]; simp
  have others : ∀ q, q ≠ a → (σ.setNext a l₂.head?).link q = σ.link q :=
    fun q differ => σ.setNext_link_of_ne a q _ (Ne.symm differ)
  rw [Store.setNext_blooms]
  by_cases same : hv' = hv
  · subst same
    have whole := shape ▸ thr.chain hv'
    have nodup := whole.nodup
    have again : l₁ ++ a :: p :: l₂ = (l₁ ++ [a]) ++ p :: l₂ := by simp
    have linkp : σ.link p = some l₂.head? := (again ▸ whole).next_eq
    have linka : (σ.setNext a l₂.head?).link a = σ.link p := by
      rw [linkp]
      exact σ.setNext_link_self a _ (thr.lt_length mema)
    rw [shape, erase_interior nodup]
    refine whole.unlink linka fun q mem => others q ?_
    rintro rfl
    obtain ⟨_, tail, apart⟩ := List.nodup_append.mp nodup
    rcases List.mem_append.mp mem with left | right
    · exact apart q left q List.mem_cons_self rfl
    · exact (List.nodup_cons.mp tail).1 (List.mem_cons_of_mem p right)
  · rw [List.erase_of_not_mem fun mem => same (thr.apart _ _ p mem memp)]
    refine (thr.chain hv').congr fun q mem => others q ?_
    rintro rfl
    exact same (thr.apart _ _ q mem mema)

/-! ### The four operations -/

namespace Store

/-- The store after a successful `blooms_add`. -/
def added (σ : Store) (b : Bloom) : Store :=
  let τ := (σ.pushNode (σ.bucket b.key) b).bumpCount
  { τ with blooms := { τ.blooms with bytes := τ.blooms.bytes + b.bytes } }

@[simp] theorem added_count (σ : Store) (b : Bloom) :
    (σ.added b).blooms.count = σ.blooms.count + 1 := rfl
@[simp] theorem added_bloomAt (σ : Store) (b : Bloom) :
    (σ.added b).bloomAt = (σ.pushNode (σ.bucket b.key) b).bloomAt := rfl

@[simp] theorem bumpGet_heap (σ : Store) (r : Int) : (σ.bumpGet r).heap = σ.heap := by
  unfold bumpGet
  split_ifs <;> rfl

/-- The scalars the accounting is about. -/
@[simp] theorem bumpGet_scalars (σ : Store) (r : Int) :
    (σ.bumpGet r).blooms.bytes = σ.blooms.bytes ∧ (σ.bumpGet r).blooms.count = σ.blooms.count ∧
    (σ.bumpGet r).blooms.maxBytes = σ.blooms.maxBytes ∧
    (σ.bumpGet r).blooms.power = σ.blooms.power ∧
    (σ.bumpGet r).blooms.hashtable = σ.blooms.hashtable := by
  unfold bumpGet
  split_ifs <;> exact ⟨rfl, rfl, rfl, rfl, rfl⟩

end Store

theorem Store.Holds.read {σ : Store} {key : CString} {p : Addr} {b : Bloom}
    (held : σ.Holds key p b) : ∃ nd, readNode σ.heap p = .ok nd ∧ nd.bloom = b := by
  obtain ⟨nd, here, payload⟩ := Option.map_eq_some_iff.mp held.2.1
  exact ⟨nd, readNode_eq here, payload⟩

namespace Represents

variable {σ : Store} {B : Buckets}

/-- The critical section of `blooms_add`. -/
theorem addSection_cases (rep : Represents σ B) (E : Env) (mem : Alloc) (key : CString)
    (n : UInt64) (e : Float) :
    (σ.Present key ∧ addSection E mem key n e σ = .ok (1, none, σ)) ∨
    (¬ σ.Present key ∧ Rejects E mem σ.blooms n e ∧
      addSection E mem key n e σ = .ok (2, none, σ)) ∨
    (¬ σ.Present key ∧ bloomInit E mem σ.blooms key n e = .ok (some (newBloom E key n e)) ∧
      addSection E mem key n e σ =
        .ok (0, some σ.heap.length, σ.pushNode (σ.bucket key) (newBloom E key n e))) ∨
    (¬ σ.Present key ∧ ∃ s, bloomInit E mem σ.blooms key n e = .error s ∧
      addSection E mem key n e σ = .error s) := by
  rcases rep.search_cases key with ⟨p, b, found, held⟩ | ⟨none, absent⟩
  · refine Or.inl ⟨⟨p, b, held⟩, ?_⟩
    simp only [addSection, found]
    rfl
  · right
    have start : addSection E mem key n e σ = (bloomInit E mem σ.blooms key n e).map fun b =>
        b.elim ((2 : Int), Option.none, σ) fun b =>
          ((0 : Int), some σ.heap.length, σ.pushNode (σ.bucket key) b) := by
      unfold addSection
      simp only [none, bind, Except.bind]
      cases bloomInit E mem σ.blooms key n e with
      | error s => rfl
      | ok b => cases b <;> rfl
    cases init : bloomInit E mem σ.blooms key n e with
    | error s => exact Or.inr (Or.inr ⟨absent, s, rfl, by rw [start, init]; rfl⟩)
    | ok result =>
        cases result with
        | none =>
            exact Or.inl ⟨absent, bloomInit_eq_none_iff.mp init, by rw [start, init]; rfl⟩
        | some b =>
            have same := (bloomInit_eq_some init).1
            subst same
            exact Or.inr (Or.inl ⟨absent, rfl, by rw [start, init]; rfl⟩)

theorem add_cases (rep : Represents σ B) (E : Env) (mem : Alloc) (key : CString)
    (n : UInt64) (e : Float) :
    (σ.Present key ∧ bloomsAdd E mem key n e σ = .ok (1, σ)) ∨
    (¬ σ.Present key ∧ Rejects E mem σ.blooms n e ∧ bloomsAdd E mem key n e σ = .ok (2, σ)) ∨
    (¬ σ.Present key ∧ bloomInit E mem σ.blooms key n e = .ok (some (newBloom E key n e)) ∧
      bloomsAdd E mem key n e σ = .ok (0, σ.added (newBloom E key n e))) ∨
    (¬ σ.Present key ∧ ∃ s, bloomInit E mem σ.blooms key n e = .error s ∧
      bloomsAdd E mem key n e σ = .error s) := by
  rcases rep.addSection_cases E mem key n e with
    ⟨present, run⟩ | ⟨absent, rejects, run⟩ | ⟨absent, init, run⟩ | ⟨absent, s, init, run⟩
  · exact Or.inl ⟨present, by simp only [bloomsAdd, run]; rfl⟩
  · exact Or.inr (Or.inl ⟨absent, rejects, by simp only [bloomsAdd, run]; rfl⟩)
  · refine Or.inr (Or.inr (Or.inl ⟨absent, init, ?_⟩))
    have new : (σ.pushNode (σ.bucket key) (newBloom E key n e)).bumpCount.heap[σ.heap.length]? =
        some ⟨σ.blooms.hashtable (σ.bucket key), newBloom E key n e⟩ := by
      simp [Store.bumpCount, Store.pushNode]
    simp only [bloomsAdd, run]
    change (Store.addBytes _ _ >>= fun σ => Except.ok (0, σ)) = _
    rw [Store.addBytes, readNode_eq new]
    rfl
  · exact Or.inr (Or.inr (Or.inr ⟨absent, s, init, by simp only [bloomsAdd, run]; rfl⟩))

theorem set_cases (rep : Represents σ B) (E : Env) (key subkey : CString) :
    (¬ σ.Present key ∧ bloomsSet E key subkey σ = .ok (1, σ)) ∨
    (∃ p b, σ.Holds key p b ∧ bloomsSet E key subkey σ =
      (bloomSet E b subkey).map fun b' => (0, (σ.setBloom p b').bumpSet)) := by
  rcases rep.search_cases key with ⟨p, b, found, held⟩ | ⟨none, absent⟩
  · obtain ⟨nd, here, payload⟩ := held.read
    refine Or.inr ⟨p, b, held, ?_⟩
    simp only [bloomsSet, found]
    change (readNode σ.heap p >>= _) = _
    rw [here, ← payload]
    change (bloomSet E nd.bloom subkey >>= _) = _
    cases bloomSet E nd.bloom subkey <;> rfl
  · exact Or.inl ⟨absent, by simp only [bloomsSet, none]; rfl⟩

theorem get_cases (rep : Represents σ B) (E : Env) (key subkey : CString) :
    (¬ σ.Present key ∧ bloomsGet E key subkey σ = .ok (-1, σ)) ∨
    (∃ p b, σ.Holds key p b ∧ bloomsGet E key subkey σ =
      (bloomGet E b subkey).map fun got => (got.1, (σ.setBloom p got.2).bumpGet got.1)) := by
  rcases rep.search_cases key with ⟨p, b, found, held⟩ | ⟨none, absent⟩
  · obtain ⟨nd, here, payload⟩ := held.read
    refine Or.inr ⟨p, b, held, ?_⟩
    simp only [bloomsGet, found]
    change (readNode σ.heap p >>= _) = _
    rw [here, ← payload]
    change (bloomGet E nd.bloom subkey >>= _) = _
    cases bloomGet E nd.bloom subkey <;> rfl
  · exact Or.inl ⟨absent, by simp only [bloomsGet, none]; rfl⟩

theorem bloomsDelete_head {key : CString} {a : Addr} {nd : Node}
    (head : σ.blooms.hashtable (σ.bucket key) = some a) (here : readNode σ.heap a = .ok nd)
    (same : nd.bloom.key = key) : bloomsDelete key σ =
      (bloomDelete a (σ.setHead (σ.bucket key) nd.hashNext)).map fun τ => ((0 : Int), τ) := by
  unfold bloomsDelete
  rw [head]
  change (readNode σ.heap a >>= _) = _
  rw [here]
  change (if nd.bloom.key = key then _ else _) = _
  rw [if_pos same]
  cases bloomDelete a (σ.setHead (σ.bucket key) nd.hashNext) <;> rfl

theorem bloomsDelete_next {key : CString} {a prev next : Addr} {nd nx : Node}
    (head : σ.blooms.hashtable (σ.bucket key) = some a) (here : readNode σ.heap a = .ok nd)
    (differ : nd.bloom.key ≠ key)
    (run : unlinkLoop σ.heap key σ.heap.length a nd.hashNext = .ok (some (prev, next)))
    (there : readNode σ.heap next = .ok nx) : bloomsDelete key σ =
      (bloomDelete next (σ.setNext prev nx.hashNext)).map fun τ => ((0 : Int), τ) := by
  unfold bloomsDelete
  rw [head]
  change (readNode σ.heap a >>= _) = _
  rw [here]
  change (if nd.bloom.key = key then _ else _) = _
  rw [if_neg differ, run]
  change (readNode σ.heap next >>= _) = _
  rw [there]
  change (bloomDelete next (σ.setNext prev nx.hashNext) >>= _) = _
  cases bloomDelete next (σ.setNext prev nx.hashNext) <;> rfl

theorem bloomsDelete_absent {key : CString} {a : Addr} {nd : Node}
    (head : σ.blooms.hashtable (σ.bucket key) = some a) (here : readNode σ.heap a = .ok nd)
    (differ : nd.bloom.key ≠ key)
    (run : unlinkLoop σ.heap key σ.heap.length a nd.hashNext = .ok none) :
    bloomsDelete key σ = .ok (1, σ) := by
  unfold bloomsDelete
  rw [head]
  change (readNode σ.heap a >>= _) = _
  rw [here]
  change (if nd.bloom.key = key then _ else _) = _
  rw [if_neg differ, run]
  rfl

theorem delete_cases (rep : Represents σ B) (key : CString) :
    (¬ σ.Present key ∧ bloomsDelete key σ = .ok (1, σ)) ∨
    (∃ p b σ', σ.Holds key p b ∧ bloomsDelete key σ = .ok (0, σ') ∧ Removed σ B p b σ') := by
  have home := rep.bucket_eq key
  have walk := rep.chain (bucketOf hashPower key)
  have live : ∀ p ∈ B (bucketOf hashPower key), ∃ b, σ.bloomAt p = some b := by
    intro p mem
    obtain ⟨b, read, _⟩ := rep.placed _ p mem
    exact ⟨b, read⟩
  cases shape : B (bucketOf hashPower key) with
  | nil =>
      rw [shape] at walk
      refine Or.inl ⟨?_, ?_⟩
      · rintro ⟨p, b, held⟩
        have mem := (rep.holds_iff.mp held).1
        rw [shape] at mem
        cases mem
      · have empty : σ.blooms.hashtable (bucketOf hashPower key) = none := walk.head_eq
        simp only [bloomsDelete, home, empty]
  | cons a rest =>
      rw [shape] at walk live
      have head : σ.blooms.hashtable (σ.bucket key) = some a := home ▸ walk.head_eq
      have whole : Chain σ.link _ ([] ++ a :: rest) := walk
      have linka : σ.link a = some rest.head? := whole.next_eq
      obtain ⟨c, readc⟩ := live a List.mem_cons_self
      have here := readNode_eq (σ.getElem?_heap a readc linka)
      by_cases same : c.key = key
      · have held : σ.Holds key a c :=
          rep.holds_iff.mpr ⟨by rw [shape]; exact List.mem_cons_self, readc, same⟩
        obtain ⟨σ', run, removed⟩ := bloomDelete_removed rep held (rep.threaded.unlink_head shape) rfl
          ⟨_, rfl⟩
        refine Or.inr ⟨a, c, σ', held, ?_, removed⟩
        rw [bloomsDelete_head head here same, home, run]
        rfl
      · have enough : rest.length ≤ σ.heap.length := by
          have bound := rep.length_le (bucketOf hashPower key)
          rw [shape, List.length_cons] at bound
          omega
        rcases unlinkLoop_spec key whole live enough with
          ⟨prev, next, s, t, b, run, cut, readb, keyb⟩ | ⟨run, none⟩
        · have shape' : B (bucketOf hashPower key) = s ++ prev :: next :: t := shape.trans cut
          have again : s ++ prev :: next :: t = (s ++ [prev]) ++ next :: t := by simp
          have linkn : σ.link next = some t.head? :=
            (again ▸ shape' ▸ rep.chain (bucketOf hashPower key)).next_eq
          have held : σ.Holds key next b :=
            rep.holds_iff.mpr ⟨by rw [shape']; simp, readb, keyb⟩
          obtain ⟨σ', erase, removed⟩ := bloomDelete_removed rep held (rep.threaded.unlink_next shape')
            (σ.setNext_bloomAt prev _) ⟨_, rfl⟩
          refine Or.inr ⟨next, b, σ', held, ?_, removed⟩
          rw [bloomsDelete_next head here same run (readNode_eq (σ.getElem?_heap next readb linkn)),
            erase]
          rfl
        · refine Or.inl ⟨?_, bloomsDelete_absent head here same run⟩
          rintro ⟨p, b, held⟩
          obtain ⟨mem, readb, keyb⟩ := rep.holds_iff.mp held
          rw [shape] at mem
          rcases List.mem_cons.mp mem with rfl | later
          · exact same (by rw [Option.some.inj (readc.symm.trans readb), keyb])
          · exact none p later b readb keyb

end Represents
end BloomServer
