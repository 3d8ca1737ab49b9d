import BloomServer.MemCacheCalls

/-! `Store` against servers that answer every request. -/
namespace BloomServer
open DecimalText Receiving

namespace MemCache

variable {items : Items} {serve : Serve} {caches caches' : ℕ → Cache} {sends : ℕ → ℕ → SendAnswer} {count : ℕ}
  {todo : List ℕ} {socks : Sockets} {replies : ℕ → List UInt8}

/-- How an item is left: it had no server, its server was lost, or its data has been sent. -/
inductive Kept (item : MemRequest) : MemRequest → Prop
  | none (unserved : item.server = none) : Kept item item
  | lost : Kept item item.lost
  | sent {p : ℕ} (served : item.server = some p) :
      Kept item { item.sent with result := if item.result = .noReply then .noReply else .ok }

/-- The server that an item was stored at, if it was, holds its data. -/
def put (caches : ℕ → Cache) (item left : MemRequest) : ℕ → Cache :=
  left.server.elim caches fun p =>
    Function.update caches p (Function.update (caches p) item.key (some (item.flags, item.data.readable)))

def putAll (items left : Items) (todo : List ℕ) (caches : ℕ → Cache) : ℕ → Cache :=
  todo.foldl (fun caches i => put caches (items i) (left i)) caches

theorem serveAll_silent {sent : Sent} {p : ℕ} (run : serveAll serve caches sent = some (replies, caches'))
    (silent : ∀ e ∈ sent, e.1 ≠ p) : replies p = [] := by
  induction sent generalizing caches replies caches' with
  | nil =>
      cases run
      rfl
  | cons e sent ih =>
      obtain ⟨q, text⟩ := e
      obtain ⟨⟨reply, cache⟩, _, rest⟩ := Option.bind_eq_some_iff.mp run
      obtain ⟨⟨later, after⟩, run', same⟩ := Option.map_eq_some_iff.mp rest
      cases same
      rw [Function.update_of_ne (silent _ List.mem_cons_self).symm]
      exact ih run' fun e mem => silent e (List.mem_cons_of_mem _ mem)

theorem mem_sharing {n i : ℕ} :
    i ∈ sharing items count n ↔ i < count ∧ n ≤ i ∧ (items n).server = (items i).server := by
  rw [sharing, List.mem_filter, List.mem_range, decide_eq_true_iff]

/-! ### One item -/

/-- Storing an item does not touch the ones before it. -/
theorem storeItem_before (type : List UInt8) (sends : ℕ → ℕ → SendAnswer) (count : ℕ) (items : Items) (socks : Sockets)
    {n i : ℕ} (before : i < n) : (storeItem type sends count items socks n).2.1 i = items i := by
  have dropped : ∀ among : Items, dropServer among (sharing among count n) i = among i := fun among =>
    if_neg fun mem => absurd (mem_sharing.mp mem).2.1 (Nat.not_le.mpr before)
  have updated : ∀ (among : Items) (item : MemRequest), Function.update among n item i = among i :=
    fun among item => Function.update_of_ne (Nat.ne_of_lt before) _ _
  rw [storeItem]
  split
  next => rfl
  next p served =>
    dsimp only
    generalize sendStore type (sends n) (items n) = pieces
    generalize (if pieces.1 = [] then [] else [(p, pieces.1)]) = sent
    split
    next =>
      split
      next => exact updated _ _
      next =>
        split
        next => exact (updated _ _).trans (updated _ _)
        next => exact (dropped _).trans (updated _ _)
    next => exact dropped items

/-- Storing an item sends to its server at most, and gives no item another server. -/
theorem storeItem_servers (type : List UInt8) (sends : ℕ → ℕ → SendAnswer) (count : ℕ) (items : Items) (socks : Sockets)
    (n : ℕ) : (∀ i, ((storeItem type sends count items socks n).2.1 i).server = (items i).server ∨
        ((storeItem type sends count items socks n).2.1 i).server = none) ∧
      ∀ e ∈ (storeItem type sends count items socks n).2.2.2, (items n).server = some e.1 := by
  have dropped : ∀ (among : Items) (group : List ℕ) (i : ℕ), (dropServer among group i).server = (among i).server ∨
      (dropServer among group i).server = none := by
    intro among group i
    rw [dropServer, onItems]
    split
    next => exact Or.inr rfl
    next => exact Or.inl rfl
  have updated : ∀ (among : Items) (item : MemRequest) (i : ℕ), item.server = (among n).server →
      (Function.update among n item i).server = (among i).server := by
    intro among item i same
    by_cases here : i = n
    · rw [here, Function.update_self, same]
    · rw [Function.update_of_ne here]
  rcases at_p : (items n).server with _ | p
  · rw [storeItem, at_p]
    exact ⟨fun i => Or.inl rfl, fun e mem => absurd mem List.not_mem_nil⟩
  · rw [storeItem, at_p]
    dsimp only
    generalize sendStore type (sends n) (items n) = pieces
    have single : ∀ e ∈ if pieces.1 = [] then [] else [(p, pieces.1)], some p = some e.1 := by
      intro e mem
      split at mem
      next => exact absurd mem List.not_mem_nil
      next => rw [List.mem_singleton.mp mem]
    split
    next =>
      split
      next => exact ⟨fun i => Or.inl (updated _ _ i rfl), single⟩
      next =>
        split
        next =>
          refine ⟨fun i => Or.inl ((updated _ _ i ?_).trans (updated items (items n).sent i rfl)), single⟩
          rfl
        next => exact ⟨fun i => (updated items (items n).sent i rfl) ▸ dropped _ _ i, single⟩
    next => exact ⟨fun i => dropped _ _ i, single⟩

theorem handleStoreResponse_calm {s : ServerSocket} {tail : List UInt8} (calm : s.Calm)
    (bytes : s.bytes = ascii "STORED\r\n" ++ tail) : ∃ s' : ServerSocket,
      handleStoreResponse s = (some .ok, s') ∧ s'.bytes = tail ∧ s'.Calm := by
  have line : s.bytes = ascii "STORED\r" ++ 10 :: tail := bytes
  obtain ⟨s', read, left, calm'⟩ := receiveLineFrom_calm calm line (by decide) []
  refine ⟨s', ?_, left, calm'⟩
  rw [handleStoreResponse, receiveLine, read]
  exact if_pos rfl

variable {n p : ℕ}

theorem storeItem_none (type : List UInt8) (unserved : (items n).server = none) :
    storeItem type sends count items socks n = (false, items, socks, []) := by
  rw [storeItem, unserved]

theorem storeLine_ne_nil (type : List UInt8) (item : MemRequest) : storeLine type item ≠ [] :=
  List.append_ne_nil_of_right_ne_nil _ (List.cons_ne_nil _ _)

/-- Pieces that are sent whole or not at all are the request, or the beginning of one. -/
theorem sendStore_cases (type : List UInt8) (sends : ℕ → Bool) (item : MemRequest) :
    sendStore type (wholly sends) item = (storeText type item, true) ∨
      ∃ text, sendStore type (wholly sends) item = (text, false) ∧ (text = [] ∨ Torn type item text) := by
  have line := sendBytes_wholly (storeLine_ne_nil type item) sends 0
  have last := @sendBytes_wholly [13, 10] (by decide) sends 2
  rw [sendStore, sendPieces, line]
  by_cases first : sends 0 = true
  · rw [if_pos first]
    dsimp only
    rw [sendPieces]
    rcases data : sendBytes item.data.readable (wholly sends 1) with _ | taken
    · refine Or.inr ⟨_, rfl, Or.inr (Or.inl ?_)⟩
      rw [List.append_nil]
    · have all : taken = item.data.readable := by
        rcases none : item.data.readable with _ | ⟨b, rest⟩
        · rw [none, wholly] at data
          split at data <;> cases data
        · rw [none, sendBytes_wholly (List.cons_ne_nil _ _)] at data
          split at data
          next => exact (Option.some.inj data).symm
          next => cases data
      subst all
      dsimp only
      rw [sendPieces, last]
      by_cases third : sends 2 = true
      · rw [if_pos third]
        exact Or.inl rfl
      · rw [if_neg third]
        refine Or.inr ⟨_, rfl, Or.inr (Or.inr ?_)⟩
        rw [List.append_nil]
  · rw [if_neg first]
    exact Or.inr ⟨[], rfl, Or.inl rfl⟩

theorem storeItem_lost {type text : List UInt8} (served : (items n).server = some p)
    (lost : sendStore type (sends n) (items n) = (text, false)) :
    storeItem type sends count items socks n = (false, dropServer items (sharing items count n),
      disconnect socks p, if text = [] then [] else [(p, text)]) := by
  rw [storeItem, served]
  dsimp only
  rw [lost]
  exact if_neg Bool.false_ne_true

theorem storeItem_sent {type : List UInt8} (served : (items n).server = some p)
    (sent : sendStore type (sends n) (items n) = (storeText type (items n), true)) :
    (storeItem type sends count items socks n).2.2.2 = [(p, storeText type (items n))] := by
  have some : storeText type (items n) ≠ [] := List.append_ne_nil_of_left_ne_nil (storeLine_ne_nil _ _) _
  rw [storeItem, served]
  dsimp only
  rw [sent, if_pos rfl, if_neg some]
  split
  next => rfl
  next => split <;> rfl

/-- The beginning of a request does nothing to its server. -/
theorem serveAll_torn (memcached : Memcached serve) {item : MemRequest} (storable : Storable item)
    {text : List UInt8} (torn : text = [] ∨ Torn (ascii "set") item text) {later : Sent}
    (served : serveAll serve caches ((if text = [] then [] else [(p, text)]) ++ later) = some (replies, caches')) :
    serveAll serve caches later = some (replies, caches') := by
  by_cases none : text = []
  · rw [if_pos none] at served
    exact served
  · rw [if_neg none, List.singleton_append, serveAll,
      memcached.torn _ _ _ storable (torn.resolve_left none), Option.bind_some] at served
    obtain ⟨⟨replies₁, caches₁⟩, served₁, both⟩ := Option.map_eq_some_iff.mp served
    dsimp only at served₁ both
    rw [Function.update_eq_self] at served₁
    rw [List.nil_append, Function.update_eq_self] at both
    rw [served₁, both]

/-- The item that was stored. -/
def MemRequest.stored (item : MemRequest) : MemRequest :=
  { item.sent with result := if item.result = .noReply then .noReply else .ok }

theorem storeItem_calm {type tail : List UInt8} (served : (items n).server = some p)
    (sent : sendStore type (sends n) (items n) = (storeText type (items n), true)) (calm : ∀ p, (socks p).Calm)
    (bytes : (socks p).bytes = (if (items n).result = .noReply then [] else ascii "STORED\r\n") ++ tail) :
    ∃ response s', storeItem type sends count items socks n =
        (response, Function.update items n (items n).stored, Function.update socks p s',
          [(p, storeText type (items n))]) ∧ s'.bytes = tail ∧ ServerSocket.Calm s' := by
  have some : storeText type (items n) ≠ [] := List.append_ne_nil_of_left_ne_nil (storeLine_ne_nil _ _) _
  rw [storeItem, served]
  dsimp only
  rw [sent, if_pos rfl, if_neg some, Function.update_self]
  by_cases quiet : (items n).result = .noReply
  · have same : (items n).stored = (items n).sent := by
      rw [MemRequest.stored, if_pos quiet, ← quiet]
      rfl
    rw [if_pos quiet] at bytes
    refine ⟨false, socks p, ?_, bytes, calm p⟩
    rw [Function.update_eq_self, same]
    exact if_pos quiet
  · have same : (items n).stored = { (items n).sent with result := .ok } := by
      rw [MemRequest.stored, if_neg quiet]
    rw [if_neg quiet] at bytes
    obtain ⟨s', run, left, calm'⟩ := handleStoreResponse_calm (calm p) bytes
    refine ⟨true, s', ?_, left, calm'⟩
    rw [if_neg (show (items n).sent.result ≠ .noReply from quiet), run, same]
    dsimp only
    rw [Function.update_idem]

/-! ### The whole loop -/

theorem storeItems_cons (type : List UInt8) (sends : ℕ → ℕ → SendAnswer) (count n : ℕ) (rest : List ℕ) (items : Items)
    (socks : Sockets) (nResponses : ℤ) {response : Bool} {items' : Items} {socks' : Sockets} {sent : Sent}
    (step : storeItem type sends count items socks n = (response, items', socks', sent)) :
    ∃ nResponses', storeItems type sends count (n :: rest) items socks nResponses =
      { storeItems type sends count rest items' socks' nResponses' with
        sent := sent ++ (storeItems type sends count rest items' socks' nResponses').sent } := by
  refine ⟨if response then nResponses + 1 else nResponses, ?_⟩
  rw [storeItems, step]

theorem storeItems_before (type : List UInt8) (sends : ℕ → ℕ → SendAnswer) (count : ℕ) {i : ℕ}
    (before : ∀ n ∈ todo, i < n) (items : Items) (socks : Sockets) (nResponses : ℤ) :
    (storeItems type sends count todo items socks nResponses).items i = items i := by
  induction todo generalizing items socks nResponses with
  | nil => rfl
  | cons n rest ih =>
      rcases step : storeItem type sends count items socks n with ⟨response, items', socks', sent⟩
      obtain ⟨nResponses', run⟩ := storeItems_cons type sends count n rest items socks nResponses step
      have first := storeItem_before type sends count items socks (before n List.mem_cons_self)
      rw [step] at first
      rw [run]
      exact (ih (fun m mem => before m (List.mem_cons_of_mem _ mem)) _ _ _).trans first

/-- Requests go to the servers of the items. -/
theorem storeItems_sent (type : List UInt8) (sends : ℕ → ℕ → SendAnswer) (count : ℕ) {p : ℕ}
    (away : ∀ n ∈ todo, (items n).server ≠ some p) (socks : Sockets) (nResponses : ℤ) :
    ∀ e ∈ (storeItems type sends count todo items socks nResponses).sent, e.1 ≠ p := by
  induction todo generalizing items socks nResponses with
  | nil => exact fun e mem => (nomatch mem)
  | cons n rest ih =>
      rcases step : storeItem type sends count items socks n with ⟨response, items', socks', sent⟩
      obtain ⟨nResponses', run⟩ := storeItems_cons type sends count n rest items socks nResponses step
      obtain ⟨servers, own⟩ := storeItem_servers type sends count items socks n
      rw [step] at servers own
      intro e mem same
      rw [run] at mem
      rcases List.mem_append.mp mem with mem | mem
      · exact away n List.mem_cons_self (same ▸ own e mem)
      · refine ih (fun m at_m at_p => ?_) socks' nResponses' e mem same
        rcases servers m with kept | gone
        · exact away m (List.mem_cons_of_mem _ at_m) (kept.symm.trans at_p)
        · exact (nomatch gone.symm.trans at_p)

theorem Kept.before {item item' left : MemRequest} (kept : Kept item' left)
    (after : item' = item.lost ∨ item' = item) : Kept item left := by
  rcases after with rfl | rfl
  · cases kept with
    | none => exact Kept.lost
    | lost => exact Kept.lost
    | sent served => exact (nomatch served)
  · exact kept

theorem putAll_congr {items' left : Items} (same : ∀ i ∈ todo, items' i = (items i).lost ∨ items' i = items i)
    (caches : ℕ → Cache) : putAll items' left todo caches = putAll items left todo caches := by
  induction todo generalizing caches with
  | nil => rfl
  | cons n rest ih =>
      have first : put caches (items' n) (left n) = put caches (items n) (left n) := by
        rcases same n List.mem_cons_self with after | after
        · rw [after]
          rfl
        · rw [after]
      rw [putAll, List.foldl_cons, first]
      exact ih (fun i mem => same i (List.mem_cons_of_mem _ mem)) _

theorem dropped_or (items : Items) (group : List ℕ) (i : ℕ) :
    dropServer items group i = (items i).lost ∨ dropServer items group i = items i := by
  rw [dropServer, onItems]
  split
  next => exact Or.inl rfl
  next => exact Or.inr rfl

/-- The server of an item replies to its request, which is the next of all that are sent: the item is
stored there, unless it has lost its server, and the connections hold the replies to the later ones. -/
theorem storeItem_step (memcached : Memcached serve) (within : ∀ i ∈ n :: todo, i < count)
    (first : ∀ i ∈ todo, n < i) (storable : Storable (items n)) {sendsWhole : ℕ → Bool}
    (whole : sends n = wholly sendsWhole) (calm : ∀ p, (socks p).Calm)
    {response : Bool} {items' : Items} {socks' : Sockets} {sent later : Sent}
    (step : storeItem (ascii "set") sends count items socks n = (response, items', socks', sent))
    (silent : ∀ p, (∀ i ∈ todo, (items' i).server ≠ some p) → ∀ e ∈ later, e.1 ≠ p)
    (served : serveAll serve caches (sent ++ later) = some (replies, caches'))
    (replied : ∀ p, (socks p).bytes = replies p) : ∃ replies',
      serveAll serve (put caches (items n) (items' n)) later = some (replies', caches') ∧
      (∀ p, (socks' p).Calm) ∧ (∀ p, (socks' p).bytes = replies' p) ∧ Kept (items n) (items' n) ∧
      ∀ i ∈ todo, items' i = (items i).lost ∨ items' i = items i := by
  rcases at_p : (items n).server with _ | p
  · rw [storeItem_none _ at_p] at step
    cases step
    refine ⟨replies, ?_, calm, replied, Kept.none at_p, fun i _ => Or.inr rfl⟩
    rw [put, at_p]
    exact served
  have pieces := sendStore_cases (ascii "set") sendsWhole (items n)
  rw [← whole] at pieces
  rcases pieces with all | ⟨text, cut, torn⟩
  · have single := @storeItem_sent _ _ count socks _ _ _ at_p all
    rw [step] at single
    dsimp only at single
    rw [single, List.singleton_append, serveAll, memcached.set _ _ storable, Option.bind_some] at served
    obtain ⟨⟨replies₁, caches₁⟩, served₁, both⟩ := Option.map_eq_some_iff.mp served
    cases both
    have reply := replied p
    rw [Function.update_self] at reply
    obtain ⟨response', s', step', left, calm'⟩ := storeItem_calm at_p all calm reply
    rw [step] at step'
    cases step'
    refine ⟨replies₁, ?_, ?_, ?_, ?_, fun i mem => Or.inr (Function.update_of_ne (Nat.ne_of_gt (first i mem)) _ _)⟩
    · rw [Function.update_self, put]
      change serveAll serve ((items n).server.elim _ _) later = _
      rw [at_p]
      exact served₁
    · exact calm_update calm calm'
    · intro q
      by_cases here : q = p
      · rw [here, Function.update_self]
        exact left
      · have other := replied q
        rw [Function.update_of_ne here] at other
        rw [Function.update_of_ne here, other]
    · rw [Function.update_self]
      exact Kept.sent at_p
  · rw [storeItem_lost at_p cut] at step
    cases step
    have served := serveAll_torn memcached storable torn served
    have gone : dropServer items (sharing items count n) n = (items n).lost :=
      if_pos (mem_sharing.mpr ⟨within n List.mem_cons_self, Nat.le_refl _, rfl⟩)
    -- the later items that share the server lose it too, so that no reply of it is due
    have none : replies p = [] := serveAll_silent served (silent p fun i mem same => by
      by_cases shares : (items n).server = (items i).server
      · have away : dropServer items (sharing items count n) i = (items i).lost :=
          if_pos (mem_sharing.mpr ⟨within i (List.mem_cons_of_mem _ mem), Nat.le_of_lt (first i mem), shares⟩)
        rw [away] at same
        cases same
      · rcases dropped_or items (sharing items count n) i with away | away
        · rw [away] at same
          cases same
        · rw [away] at same
          exact shares (at_p.trans same.symm))
    refine ⟨replies, ?_, ?_, ?_, ?_, fun i _ => dropped_or _ _ _⟩
    · rw [gone]
      exact served
    · exact calm_update calm trivial
    · intro q
      by_cases here : q = p
      · rw [here, disconnect, Function.update_self, none]
        rfl
      · rw [disconnect, Function.update_of_ne here]
        exact replied q
    · rw [gone]
      exact Kept.lost

/-- `Store`, when the servers reply: every item is stored at its server or has lost it, and nothing is
left on the connections. -/
theorem storeItems_calm (memcached : Memcached serve) (increasing : todo.Pairwise (· < ·))
    (within : ∀ i ∈ todo, i < count) (storable : ∀ i ∈ todo, Storable (items i)) {sendsWhole : ℕ → ℕ → Bool}
    (wholes : ∀ n, sends n = wholly (sendsWhole n)) (calm : ∀ p, (socks p).Calm) {o : Outcome} {nResponses : ℤ}
    (run : storeItems (ascii "set") sends count todo items socks nResponses = o)
    (served : serveAll serve caches o.sent = some (replies, caches'))
    (replied : ∀ p, (socks p).bytes = replies p) :
    (∀ p, (o.socks p).Calm ∧ (o.socks p).bytes = []) ∧ (∀ i ∈ todo, Kept (items i) (o.items i)) ∧
      caches' = putAll items o.items todo caches := by
  induction todo generalizing items socks nResponses caches replies o with
  | nil =>
      subst run
      cases served
      exact ⟨fun p => ⟨calm p, replied p⟩, fun i mem => (nomatch mem), rfl⟩
  | cons n rest ih =>
      obtain ⟨first, increasing⟩ := List.pairwise_cons.mp increasing
      rcases step : storeItem (ascii "set") sends count items socks n with ⟨response, items', socks', sent⟩
      obtain ⟨nResponses', whole⟩ := storeItems_cons (ascii "set") sends count n rest items socks nResponses step
      rw [whole] at run
      subst run
      obtain ⟨replies', served', calm', replied', kept, after⟩ := storeItem_step memcached within first
        (storable n List.mem_cons_self) (wholes n) calm step
        (fun p away => storeItems_sent (ascii "set") sends count away socks' nResponses') served replied
      obtain ⟨idle, rests, stored⟩ := ih increasing (fun i mem => within i (List.mem_cons_of_mem _ mem))
        (fun i mem => by
          have ok := storable i (List.mem_cons_of_mem _ mem)
          rcases after i mem with same | same
          all_goals
            rw [same]
            exact ⟨ok.key, ok.flags, ok.size⟩)
        calm' rfl served' replied'
      have same := storeItems_before (ascii "set") sends count first items' socks' nResponses'
      refine ⟨idle, ?_, ?_⟩
      · intro i mem
        rcases List.mem_cons.mp mem with here | mem
        · subst here
          dsimp only
          rw [same]
          exact kept
        · exact (rests i mem).before (after i mem)
      · rw [stored, putAll_congr after, putAll, putAll, List.foldl_cons]
        dsimp only
        rw [same]

end MemCache

end BloomServer
