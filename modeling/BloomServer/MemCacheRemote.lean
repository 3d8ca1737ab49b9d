import BloomServer.Library.LabelledRun
import BloomServer.MemCacheStore

/-! A client and its servers: what is stored and got over any run is what one map holds. -/
namespace BloomServer
open DecimalText LabelledRun Receiving

namespace MemCache

/-- What the servers hold, and the connections to them. -/
structure Remote where
  caches : ℕ → Cache
  socks : Sockets

/-- A call with its items before and after it, or a server that forgets a key. -/
inductive MemCall
  | stored (count : ℕ) (items left : Items)
  | got (count : ℕ) (items left : Items)
  | evicted (p : ℕ) (key : List UInt8)

/-- More comes in on the connections. -/
def hear (socks : Sockets) (more : ℕ → List Answer) : Sockets := fun p =>
  ⟨(socks p).unread, (socks p).net ++ more p⟩

/-- A call to get as it is made. -/
structure GetCall (c : Client) (connects : ℕ → Bool) (items : Items) (count : ℕ) (order : List ℕ) : Prop where
  some : 0 < count
  few : count ≤ maxRequests
  ordered : Ordered (assigned c connects count items) count order
  keys : ∀ i < count, ValidKey (items i).key
  distinct : DistinctKeys items (List.range count)

/-- One call, during which everything is sent whole or not at all and every server replies to what is
sent to it; or a server forgets. -/
inductive CallStep (serve : Serve) (c : Client) (w : Remote) : MemCall → Remote → Prop
  | stored {items : Items} {count : ℕ} {connects : ℕ → Bool} {sends : ℕ → ℕ → Bool} {more : ℕ → List Answer}
      {replies : ℕ → List UInt8} {caches' : ℕ → Cache} {o : Outcome}
      (storable : ∀ i < count, Storable (items i)) (calm : ∀ p, (hear w.socks more p).Calm)
      (run : store (ascii "set") c connects (fun n => wholly (sends n)) items count (hear w.socks more) = o)
      (served : serveAll serve w.caches o.sent = some (replies, caches'))
      (replied : ∀ p, delivered (more p) = replies p) :
      CallStep serve c w (.stored count items o.items) ⟨caches', o.socks⟩
  | got {items : Items} {count fuel : ℕ} {order : List ℕ} {connects sends : ℕ → Bool}
      {more : ℕ → List Answer} {replies : ℕ → List UInt8} {caches' : ℕ → Cache} {o : Outcome}
      (call : GetCall c connects items count order) (enough : count < fuel)
      (calm : ∀ p, (hear w.socks more p).Calm)
      (run : combine .get c connects (wholly sends) fuel items count order (hear w.socks more) = some o)
      (served : serveAll serve w.caches o.sent = some (replies, caches'))
      (replied : ∀ p, delivered (more p) = replies p) :
      CallStep serve c w (.got count items o.items) ⟨caches', o.socks⟩
  | evicted (p : ℕ) (key : List UInt8) :
      CallStep serve c w (.evicted p key)
        { w with caches := Function.update w.caches p (Function.update (w.caches p) key none) }

/-! ### The map -/

/-- What an item of a call to get may be left with. -/
inductive Answered (m : Cache) (item : MemRequest) : MemRequest → Prop
  | unreached : Answered m item item.lost
  | found {v : ℕ × List UInt8} {p : ℕ} (held : m item.key = some v) :
      Answered m item (MemRequest.found { item with server := some p } v)
  | missing {p : ℕ} (none : m item.key = none) :
      Answered m item (MemRequest.awaited { item with server := some p })

/-- The map after the items of a call that were not lost have been stored, one after another. -/
def storeMap (items left : Items) (count : ℕ) (m : Cache) : Cache :=
  (List.range count).foldl (fun m i =>
    if (left i).result = .noServer then m
    else Function.update m (items i).key (some ((items i).flags, (items i).data.readable))) m

/-- One map instead of the servers. -/
inductive MapStep (m : Cache) : MemCall → Cache → Prop
  | stored {count : ℕ} {items left : Items}
      (reported : ∀ i < count, (left i).result = .noServer ∨
        (left i).result = if (items i).result = .noReply then .noReply else .ok) :
      MapStep m (.stored count items left) (storeMap items left count m)
  | got {count : ℕ} {items left : Items} (each : ∀ i < count, Answered m (items i) (left i)) :
      MapStep m (.got count items left) m
  | evicted (p : ℕ) (key : List UInt8) : MapStep m (.evicted p key) (Function.update m key none)
  | evictedElsewhere (p : ℕ) (key : List UInt8) : MapStep m (.evicted p key) m

/-- What the client can get. -/
def view (c : Client) (caches : ℕ → Cache) : Cache := fun key =>
  (c.findServer key).bind fun p => caches p.owner key

/-- Between two calls: nothing is left on the connections. -/
structure Remote.Idle (w : Remote) : Prop where
  calm : ∀ p, (w.socks p).Calm
  quiet : ∀ p, (w.socks p).bytes = []
  valid : ∀ p, (w.caches p).Valid

variable {serve : Serve} {c : Client} {w w' : Remote} {items : Items} {caches : ℕ → Cache}

theorem delivered_append (net more : List Answer) : delivered (net ++ more) = delivered net ++ delivered more := by
  induction net with
  | nil => rfl
  | cons answer net ih =>
      cases answer with
      | bytes seg => rw [List.cons_append, delivered, ih, delivered, List.append_assoc]
      | again => exact ih
      | stopped => exact ih
      | failed => exact ih

theorem Remote.Idle.hear_bytes (idle : w.Idle) (more : ℕ → List Answer) (p : ℕ) :
    (hear w.socks more p).bytes = delivered (more p) := by
  have none := idle.quiet p
  rw [Reader.bytes] at none
  rw [hear, Reader.bytes]
  dsimp only
  rw [delivered_append, ← List.append_assoc, none, List.nil_append]

theorem gotten_answered (sends : ℕ → Bool) (item : MemRequest) :
    Answered (view c caches) item (gotten c sends caches item) := by
  rw [gotten]
  rcases at_p : c.findServer item.key with _ | p
  · exact Answered.unreached
  · rw [Option.map_some, Option.filter_some]
    by_cases reached : sends p.owner = true
    · rw [if_pos reached, Option.elim_some, answered]
      have same : view c caches item.key = caches p.owner item.key := by
        rw [view, at_p]
        rfl
      dsimp only
      rcases held : caches p.owner item.key with _ | v
      · exact Answered.missing (same.trans held)
      · exact Answered.found (same.trans held)
    · rw [if_neg reached]
      exact Answered.unreached

/-- What a server holds is seen under the keys that go to it. -/
theorem view_update (c : Client) (caches : ℕ → Cache) (p : ℕ) (key : List UInt8) (v : Option (ℕ × List UInt8)) :
    view c (Function.update caches p (Function.update (caches p) key v)) =
      if (c.findServer key).map HashRing.Point.owner = some p then Function.update (view c caches) key v
      else view c caches := by
  funext k
  by_cases goes : (c.findServer key).map HashRing.Point.owner = some p
  · obtain ⟨q, at_q, rfl⟩ := Option.map_eq_some_iff.mp goes
    rw [if_pos goes]
    by_cases same : k = key
    · subst same
      rw [Function.update_self, view, at_q, Option.bind_some, Function.update_self, Function.update_self]
    · rw [Function.update_of_ne same, view, view]
      rcases c.findServer k with _ | r
      · rfl
      · rw [Option.bind_some, Option.bind_some]
        by_cases here : r.owner = q.owner
        · rw [here, Function.update_self, Function.update_of_ne same]
        · rw [Function.update_of_ne here]
  · rw [if_neg goes, view, view]
    rcases at_r : c.findServer k with _ | r
    · rfl
    · rw [Option.bind_some, Option.bind_some]
      by_cases here : r.owner = p
      · have other : k ≠ key := by
          rintro rfl
          exact goes (by rw [at_r, Option.map_some, here])
        rw [here, Function.update_self, Function.update_of_ne other]
      · rw [Function.update_of_ne here]

/-- The server of an item that has one is the one that its key goes to. -/
def Own (c : Client) (item : MemRequest) : Prop :=
  item.server = none ∨ item.server = (c.findServer item.key).map HashRing.Point.owner

theorem view_put {item left : MemRequest} (own : Own c item) (kept : Kept item left) :
    view c (put caches item left) = if left.server = none then view c caches
      else Function.update (view c caches) item.key (some (item.flags, item.data.readable)) := by
  cases kept with
  | none unserved =>
      rw [put, unserved, if_pos rfl]
      rfl
  | lost => exact (if_pos rfl).symm
  | @sent p served =>
      have goes : (c.findServer item.key).map HashRing.Point.owner = some p := by
        rcases own with none | own
        · cases none.symm.trans served
        · exact own.symm.trans served
      have some : item.stored.server = some p := served
      change view c (put caches item item.stored) = if item.stored.server = .none then _ else _
      rw [put, some, if_neg (Option.some_ne_none p), Option.elim_some, view_update, if_pos goes]

theorem assign_own (c : Client) (connects : ℕ → Bool) (item : MemRequest) : Own c (assign c connects item) := by
  rcases at_p : (c.findServer item.key).map HashRing.Point.owner with _ | p
  · refine Or.inl ?_
    rw [assign, at_p, Option.filter_none]
  · by_cases connected : connects p = true
    · refine Or.inr ?_
      rw [assign, at_p, Option.filter_some, if_pos connected]
    · refine Or.inl ?_
      rw [assign, at_p, Option.filter_some, if_neg connected]

theorem assign_result {item : MemRequest} {connects : ℕ → Bool} (none : (assign c connects item).server = none) :
    (assign c connects item).result = .noServer := if_pos none

/-- An item that `Store` leaves tells whether it was stored. -/
theorem kept_result {item left : MemRequest} (kept : Kept item left)
    (told : item.server = none → item.result = .noServer) : left.server = none ↔ left.result = .noServer := by
  cases kept with
  | none unserved => exact ⟨told, fun _ => unserved⟩
  | lost => exact ⟨fun _ => rfl, fun _ => rfl⟩
  | sent served =>
      refine ⟨fun none => (nomatch none.symm.trans served), fun same => ?_⟩
      change (if item.result = .noReply then MCResult.noReply else .ok) = .noServer at same
      split at same <;> exact (nomatch same)

theorem assign_reported {item left : MemRequest} {connects : ℕ → Bool} (kept : Kept (assign c connects item) left) :
    left.result = .noServer ∨ left.result = if item.result = .noReply then .noReply else .ok := by
  cases kept with
  | none unserved => exact Or.inl (assign_result unserved)
  | lost => exact Or.inl rfl
  | @sent p served =>
      have same : (assign c connects item).result = item.result :=
        if_neg fun none => (nomatch none.symm.trans served)
      exact Or.inr (if_congr (by rw [same]) rfl rfl)

theorem Cache.Valid.update {cache : Cache} (valid : cache.Valid) {key : List UInt8} {v : Option (ℕ × List UInt8)}
    (ok : ∀ x, v = some x → Value.Valid ⟨key, x.1, x.2⟩) : Cache.Valid (Function.update cache key v) := by
  intro k x held
  by_cases same : k = key
  · subst same
    rw [Function.update_self] at held
    exact ok x held
  · rw [Function.update_of_ne same] at held
    exact valid k x held

theorem valid_update (valid : ∀ p, (caches p).Valid) {p : ℕ} {cache : Cache} (ok : cache.Valid) (q : ℕ) :
    Cache.Valid (Function.update caches p cache q) := by
  by_cases same : q = p
  · rw [same, Function.update_self]
    exact ok
  · rw [Function.update_of_ne same]
    exact valid q

/-- Storing some items keeps the caches sound, and changes the map as often. -/
theorem view_putAll {items left : Items} {todo : List ℕ} (own : ∀ i ∈ todo, Own c (items i))
    (storable : ∀ i ∈ todo, Storable (items i)) (kept : ∀ i ∈ todo, Kept (items i) (left i))
    (told : ∀ i ∈ todo, (items i).server = none → (items i).result = .noServer)
    (valid : ∀ p, (caches p).Valid) :
    (∀ p, (putAll items left todo caches p).Valid) ∧
      view c (putAll items left todo caches) = todo.foldl (fun m i =>
        if (left i).result = .noServer then m
        else Function.update m (items i).key (some ((items i).flags, (items i).data.readable))) (view c caches) := by
  induction todo generalizing caches with
  | nil => exact ⟨valid, rfl⟩
  | cons n rest ih =>
      have first : ∀ p, (put caches (items n) (left n) p).Valid := by
        rw [put]
        rcases (left n).server with _ | p
        · exact valid
        · refine valid_update valid ((valid p).update fun x same => ?_)
          cases same
          have ok := storable n List.mem_cons_self
          exact ⟨ok.key.graph, ok.flags, Nat.lt_of_le_of_lt (Nat.add_le_add_right ok.size 2) (by decide)⟩
      obtain ⟨valid', same⟩ := ih (fun i mem => own i (List.mem_cons_of_mem _ mem))
        (fun i mem => storable i (List.mem_cons_of_mem _ mem)) (fun i mem => kept i (List.mem_cons_of_mem _ mem))
        (fun i mem => told i (List.mem_cons_of_mem _ mem)) first
      have result := kept_result (kept n List.mem_cons_self) (told n List.mem_cons_self)
      refine ⟨valid', ?_⟩
      rw [List.foldl_cons, ← if_congr result rfl rfl,
        ← view_put (own n List.mem_cons_self) (kept n List.mem_cons_self)]
      exact same

theorem assigned_storable {connects : ℕ → Bool} {count i : ℕ} (ok : Storable (items i)) :
    Storable (assigned c connects count items i) := by
  rw [assigned]
  split
  next => exact ⟨ok.key, ok.flags, ok.size⟩
  next => exact ok

theorem CallStep.refines (memcached : Memcached serve) (idle : w.Idle) {call : MemCall}
    (step : CallStep serve c w call w') : MapStep (view c w.caches) call (view c w'.caches) ∧ w'.Idle := by
  cases step with
  | @stored items count connects sends more replies caches' o storable calm run served replied =>
      have at_i : ∀ i ∈ List.range count, assigned c connects count items i = assign c connects (items i) :=
        fun i mem => if_pos (List.mem_range.mp mem)
      have storable' : ∀ i ∈ List.range count, Storable (assigned c connects count items i) :=
        fun i mem => assigned_storable (storable i (List.mem_range.mp mem))
      obtain ⟨quiet, kept, rfl⟩ := storeItems_calm memcached List.pairwise_lt_range
        (fun i mem => List.mem_range.mp mem) storable' (fun n => rfl) calm run served
        (fun p => (idle.hear_bytes more p).trans (replied p))
      obtain ⟨valid, after⟩ := view_putAll (c := c) (fun i mem => at_i i mem ▸ assign_own c connects (items i)) storable'
        kept (fun i mem => at_i i mem ▸ assign_result) idle.valid
      refine ⟨?_, ⟨fun p => (quiet p).1, fun p => (quiet p).2, valid⟩⟩
      have same : storeMap items o.items count (view c w.caches) =
          view c (putAll (assigned c connects count items) o.items (List.range count) w.caches) := by
        rw [after, storeMap]
        refine List.foldl_ext _ _ _ fun m i mem => ?_
        rw [at_i i mem]
        rfl
      refine same ▸ MapStep.stored fun i small => ?_
      have left := at_i i (List.mem_range.mpr small) ▸ kept i (List.mem_range.mpr small)
      exact assign_reported left
  | @got items count fuel order connects sends more replies caches' o call enough calm run served replied =>
      obtain ⟨replies', served', answer⟩ := combine_get memcached call.some call.few call.ordered
        call.keys call.distinct idle.valid enough
      rw [combine_sent call.some call.few call.ordered run, served'] at served
      cases served
      obtain ⟨o', run', each, quiet⟩ := answer _ calm fun p => (idle.hear_bytes more p).trans (replied p)
      cases run.symm.trans run'
      refine ⟨MapStep.got fun i small => ?_, ⟨fun p => (quiet p).1, fun p => (quiet p).2, idle.valid⟩⟩
      rw [each i small]
      exact gotten_answered _ _
  | evicted p key =>
      refine ⟨?_, idle.calm, idle.quiet, valid_update idle.valid ((idle.valid p).update fun x same => (nomatch same))⟩
      dsimp only
      rw [view_update]
      split
      next => exact MapStep.evicted p key
      next => exact MapStep.evictedElsewhere p key

/-- Over any run of calls to set and to get, with any timing of the replies, what the client stores and
gets is what one map would hold that may forget keys, no call leaves anything on a connection, and a call
to get returns with what its items' servers have for them. -/
theorem remote_calls_refine_map {T : List MemCall} (memcached : Memcached serve)
    (run : Run (CallStep serve c) w T w') (idle : w.Idle) :
    Run MapStep (view c w.caches) T (view c w'.caches) ∧ w'.Idle ∧
      ∀ {connects sends : ℕ → Bool} {items : Items} {count fuel : ℕ} {order : List ℕ},
        GetCall c connects items count order → count < fuel → ∃ replies : ℕ → List UInt8,
          ∀ more, (∀ p, (hear w'.socks more p).Calm) → (∀ p, delivered (more p) = replies p) →
            ∃ left w'', CallStep serve c w' (.got count items left) w'' ∧
              ∀ i < count, left i = gotten c (fun p => connects p && sends p) w'.caches (items i) := by
  have both : Run MapStep (view c w.caches) T (view c w'.caches) ∧ w'.Idle := by
    induction run with
    | nil => exact ⟨.nil, idle⟩
    | snoc _ last ih =>
        obtain ⟨step, idle'⟩ := last.refines memcached ih.2
        exact ⟨.snoc ih.1 step, idle'⟩
  refine ⟨both.1, both.2, fun {connects sends items count fuel order} call enough => ?_⟩
  obtain ⟨replies, served, answer⟩ := combine_get memcached call.some call.few call.ordered
    call.keys call.distinct both.2.valid enough
  refine ⟨replies, fun more calm replied => ?_⟩
  obtain ⟨o, run, each, _⟩ := answer _ calm fun p => (both.2.hear_bytes more p).trans (replied p)
  exact ⟨o.items, _, CallStep.got call enough calm run
    (combine_sent call.some call.few call.ordered run ▸ served) replied, each⟩

/-! ### A server -/

/-- The words of the line of a request. -/
def requestWords (text : List UInt8) : List (List UInt8) := Tokens.tokens 32 [] (text.takeWhile (· ≠ 13))

/-- What stands behind the line. -/
def requestData (text : List UInt8) : List UInt8 := (text.dropWhile (· ≠ 13)).drop 2

def number (word : List UInt8) : ℕ := (strtoul (word ++ [32])).1

/-- A server that reads a request word by word, and waits for data that has not come. -/
def serveWords (cache : Cache) (text : List UInt8) : Option (List UInt8 × Cache) :=
  match requestWords text with
  | [] => none
  | verb :: args =>
      if verb = ascii "get" then some (getReply cache args, cache)
      else if verb = ascii "set" then
        match args with
        | key :: flags :: _ :: size :: noReply =>
            if (requestData text).length < number size + 2 then some ([], cache)
            else some (if noReply = [] then ascii "STORED\r\n" else [],
              Function.update cache key (some (number flags, (requestData text).take (number size))))
        | _ => none
      else none

theorem graph_of_all {word : List UInt8} (all : word.all fun b => decide (32 < b)) : ∀ b ∈ word, 32 < b :=
  fun b mem => of_decide_eq_true (List.all_eq_true.mp all b mem)

theorem requestWords_line {words : List (List UInt8)} {verb : List UInt8} (first : verb ≠ [])
    (lead : ∀ b ∈ verb, 32 < b) (valid : ∀ word ∈ words, word ≠ [] ∧ ∀ b ∈ word, 32 < b)
    (data : List UInt8) : requestWords (verb ++ words.flatMap (32 :: ·) ++ 13 :: data) = verb :: words ∧
      requestData (verb ++ words.flatMap (32 :: ·) ++ 13 :: data) = data.drop 1 := by
  have apart : ∀ b ∈ verb ++ words.flatMap (32 :: ·), decide (b ≠ 13) = true := by
    intro b mem
    have wide : b = 32 ∨ 32 < b := by
      rcases List.mem_append.mp mem with mem | mem
      · exact Or.inr (lead b mem)
      · obtain ⟨word, at_word, mem⟩ := List.mem_flatMap.mp mem
        rcases List.mem_cons.mp mem with blank | mem
        · exact Or.inl blank
        · exact Or.inr ((valid word at_word).2 b mem)
    refine decide_eq_true fun same => ?_
    subst same
    exact absurd wide (by decide)
  constructor
  · rw [requestWords, List.takeWhile_append_of_pos apart, List.takeWhile_cons, if_neg (by decide), List.append_nil]
    clear apart data
    induction words generalizing verb with
    | nil => exact Tokens.tokens_last first (fun mem => absurd (lead 32 mem) (by decide)) 0
    | cons word words ih =>
        obtain ⟨some, graph⟩ := valid word List.mem_cons_self
        rw [List.flatMap_cons, List.cons_append, Tokens.tokens_cons first (fun mem => absurd (lead 32 mem) (by decide)),
          ih some graph fun w mem => valid w (List.mem_cons_of_mem _ mem)]
  · rw [requestData, List.dropWhile_append_of_pos apart, List.dropWhile_cons, if_neg (by decide)]
    rfl

theorem number_decimal {n : ℕ} (small : n < 2 ^ 64) : number (decimal n) = n :=
  congrArg Prod.fst (strtoul_decimal small (by decide) [])

theorem graph_of_toNat {b : UInt8} (wide : 45 ≤ b.toNat) : 32 < b := UInt8.lt_iff_toNat_lt.mpr (by
  change 32 < b.toNat
  omega)

theorem printInt_ne_nil (z : ℤ) : printInt z ≠ [] := by
  rw [printInt]
  split
  next => exact List.cons_ne_nil _ _
  next => exact decimal_ne_nil _

/-- The words of a storage request behind the first. -/
def setWords (item : MemRequest) : List (List UInt8) :=
  item.key :: decimal item.flags :: printInt item.expiry :: decimal item.data.readable.length ::
    if item.result = .noReply then [ascii "noreply"] else []

theorem setWords_line (item : MemRequest) (small : item.data.readable.length < 2 ^ 32) (data : List UInt8) :
    storeLine (ascii "set") item ++ data =
      ascii "set" ++ (setWords item).flatMap (32 :: ·) ++ 13 :: 10 :: data := by
  have single : ascii " noreply" = 32 :: ascii "noreply" := by decide
  rw [storeLine, if_neg (by decide), Nat.mod_eq_of_lt small, setWords]
  split
  next => simp only [List.cons_append, List.nil_append, List.append_assoc, List.flatMap_cons, List.flatMap_nil, single]
  next => simp only [List.cons_append, List.nil_append, List.append_assoc, List.flatMap_cons, List.flatMap_nil]

theorem setWords_graph {item : MemRequest} (valid : ValidKey item.key) :
    ∀ word ∈ setWords item, word ≠ [] ∧ ∀ b ∈ word, 32 < b := by
  intro word mem
  simp only [setWords, List.mem_cons] at mem
  rcases mem with rfl | rfl | rfl | rfl | last
  · exact ⟨valid.nonempty, valid.graph⟩
  · exact ⟨decimal_ne_nil _, fun b at_b => graph_of_toNat (Nat.le_trans (by decide) (decimal_within at_b).1)⟩
  · exact ⟨printInt_ne_nil _, fun b at_b => graph_of_toNat (printInt_within at_b).1⟩
  · exact ⟨decimal_ne_nil _, fun b at_b => graph_of_toNat (Nat.le_trans (by decide) (decimal_within at_b).1)⟩
  · split at last
    next =>
      rw [List.mem_singleton.mp last]
      exact ⟨by decide, graph_of_all (by decide)⟩
    next => cases last

/-- What the server makes of a line to set with so much data. -/
theorem serveWords_set (cache : Cache) {item : MemRequest} (storable : Storable item) (data : List UInt8) :
    serveWords cache (storeLine (ascii "set") item ++ data) =
      if data.length < item.data.readable.length + 2 then some ([], cache)
      else some (if item.result = .noReply then [] else ascii "STORED\r\n",
        Function.update cache item.key (some (item.flags, data.take item.data.readable.length))) := by
  have size := storable.size
  have flags := storable.flags
  obtain ⟨words, behind⟩ := @requestWords_line _ (ascii "set") (by decide) (graph_of_all (by decide))
    (setWords_graph storable.key) (10 :: data)
  rw [setWords_line item (by omega), serveWords, words, behind]
  dsimp only [setWords]
  rw [if_neg (by decide), if_pos rfl, number_decimal (by omega), number_decimal (by omega), List.drop_one,
    List.tail_cons]
  refine if_congr Iff.rfl rfl ?_
  split <;> rfl

theorem memcached_serveWords : Memcached serveWords where
  get cache items group before keys some := by
    have text : requestText items group before .get =
        ascii "get" ++ (group.map fun i => (items i).key).flatMap (32 :: ·) ++ 13 :: [10] := by
      rw [requestText, List.flatMap_map]
      rfl
    have valid : ∀ word ∈ group.map fun i => (items i).key, word ≠ [] ∧ ∀ b ∈ word, 32 < b := by
      intro word mem
      obtain ⟨i, at_i, rfl⟩ := List.mem_map.mp mem
      exact ⟨(keys i at_i).nonempty, (keys i at_i).graph⟩
    rw [text, serveWords, (requestWords_line (by decide) (graph_of_all (by decide)) valid [10]).1]
    exact if_pos rfl
  set cache item storable := by
    have whole : ¬ (item.data.readable ++ [13, 10]).length < item.data.readable.length + 2 := by
      rw [List.length_append]
      exact Nat.lt_irrefl _
    rw [storeText, serveWords_set cache storable, if_neg whole, List.take_left]
  torn cache item text storable torn := by
    rcases torn with rfl | rfl
    · have line := serveWords_set cache storable []
      rw [List.append_nil] at line
      exact line.trans (if_pos (Nat.zero_lt_succ _))
    · exact (serveWords_set cache storable _).trans (if_pos (Nat.lt_add_of_pos_right Nat.two_pos))

/-- One server that holds a record. -/
def oneServer : Client := ⟨[], [⟨0, 7⟩]⟩

def heldRecord : Remote :=
  ⟨fun _ => Function.update (fun _ => none) (ascii "12/3") (some (5, ascii "page")), fun _ => ⟨[], []⟩⟩

def wantedRecord : Items := fun _ => ⟨none, ascii "12/3", 0, 0, 0, .ok, ReadWriteBuffer.empty⟩

theorem remote_calls_refine_map_one : ∃ left w',
    Run (CallStep serveWords oneServer) heldRecord [.got 1 wantedRecord left] w' ∧ w'.Idle ∧
      (left 0).result = .ok ∧ (left 0).data.readable = ascii "page" := by
  have idle : heldRecord.Idle := by
    refine ⟨fun p => trivial, fun p => rfl, fun p => ?_⟩
    refine Cache.Valid.update (fun key v held => (Option.some_ne_none v held.symm).elim) fun v same => ?_
    cases same
    exact ⟨graph_of_all (by decide), by decide, by decide⟩
  have call : GetCall oneServer (fun _ => true) wantedRecord 1 [0] := by
    refine ⟨by decide, by decide, ⟨List.Perm.refl _, List.pairwise_singleton _ _⟩, fun i _ => ?_, ?_⟩
    · have key : ValidKey (ascii "12/3") := ⟨by decide, by decide, graph_of_all (by decide)⟩
      exact key
    · intro i at_i j at_j _
      have small := List.mem_range.mp at_i
      have small' := List.mem_range.mp at_j
      omega
  obtain ⟨_, _, returns⟩ := remote_calls_refine_map memcached_serveWords (.nil : Run (CallStep serveWords oneServer)
    heldRecord [] heldRecord) idle
  obtain ⟨replies, answer⟩ := @returns _ (fun _ => true) _ _ _ _ call (Nat.lt_succ_self 1)
  obtain ⟨left, w', step, each⟩ := answer (fun p => if replies p = [] then [] else [.bytes (replies p)])
    (fun p => by
      change Receiving.Calm _ _ (if replies p = [] then [] else [.bytes (replies p)])
      split
      next => exact trivial
      next some => exact ⟨some, trivial⟩)
    (fun p => by
      split
      next none => exact none.symm
      next => exact List.append_nil _)
  have run : Run (CallStep serveWords oneServer) heldRecord [.got 1 wantedRecord left] w' := .single step
  have first : left 0 = _ := each 0 (by decide)
  refine ⟨left, w', run, (remote_calls_refine_map memcached_serveWords run idle).2.1, ?_, ?_⟩
  · rw [first]
    rfl
  · rw [first]
    rfl

end MemCache

end BloomServer
