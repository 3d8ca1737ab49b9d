import BloomServer.MemCacheReplies

/-! Whole calls of `MemCacheClient` against servers that answer every request. -/
namespace BloomServer
open DecimalText Receiving

namespace MemCache

/-- How a server takes a request: its reply, and what it holds then. -/
abbrev Serve := Cache → List UInt8 → Option (List UInt8 × Cache)

/-- A key that a server takes. -/
structure ValidKey (key : List UInt8) : Prop where
  nonempty : key ≠ []
  short : key.length ≤ 250
  graph : ∀ b ∈ key, 32 < b

/-- An item that a server stores. -/
structure Storable (item : MemRequest) : Prop where
  key : ValidKey item.key
  flags : item.flags < 2 ^ 32
  size : item.data.readable.length ≤ 1000000

/-- The beginning of a storage request, cut off between two of its pieces. -/
def Torn (type : List UInt8) (item : MemRequest) (text : List UInt8) : Prop :=
  text = storeLine type item ∨ text = storeLine type item ++ item.data.readable

/-- What a server makes of the two requests that the client sends it. A storage request that does not
come to its end before its connection is closed is no request. -/
structure Memcached (serve : Serve) : Prop where
  get : ∀ (cache : Cache) (items : Items) (group : List ℕ) (before : List UInt8),
    (∀ i ∈ group, ValidKey (items i).key) → group ≠ [] →
      serve cache (requestText items group before .get) =
        some (getReply cache (group.map fun i => (items i).key), cache)
  set : ∀ (cache : Cache) (item : MemRequest), Storable item →
    serve cache (storeText (ascii "set") item) =
      some (if item.result = .noReply then [] else ascii "STORED\r\n",
        Function.update cache item.key (some (item.flags, item.data.readable)))
  torn : ∀ (cache : Cache) (item : MemRequest) (text : List UInt8), Storable item →
    Torn (ascii "set") item text → serve cache text = some ([], cache)

/-- The servers take what was sent to them; each one's replies, and what they hold then. -/
def serveAll (serve : Serve) (caches : ℕ → Cache) : Sent → Option ((ℕ → List UInt8) × (ℕ → Cache))
  | [] => some (fun _ => [], caches)
  | (p, text) :: sent =>
      (serve (caches p) text).bind fun (reply, cache) =>
        (serveAll serve (Function.update caches p cache) sent).map fun (replies, caches) =>
          (Function.update replies p (reply ++ replies p), caches)

variable {items : Items} {serve : Serve} {caches : ℕ → Cache} {sends : ℕ → Bool}

/-! ### The requests of a call -/

/-- Whatever is sent is sent whole or not at all. -/
def wholly (sends : ℕ → Bool) (p : ℕ) : SendAnswer := if sends p then .whole else .failed

theorem sendBytes_wholly {bytes : List UInt8} (some : bytes ≠ []) (sends : ℕ → Bool) (p : ℕ) :
    sendBytes bytes (wholly sends p) = if sends p = true then .some bytes else none := by
  rw [wholly]
  split
  next => exact if_neg some
  next => rfl

theorem requestText_ne_nil {g : List ℕ} (nonempty : g ≠ []) (items : Items) (before : List UInt8)
    (type : Combined) : requestText items g before type ≠ [] := by
  obtain ⟨i, rest, rfl⟩ := List.exists_cons_of_ne_nil nonempty
  cases type with
  | get => simp [requestText, ascii]
  | del => simp [requestText]

/-- An item whose request has been sent, or could not be. -/
def asked (type : Combined) (sends : ℕ → Bool) (item : MemRequest) : MemRequest :=
  if item.server.any sends then item.requested type else item.lost

theorem requested_same (item : MemRequest) (type : Combined) :
    (item.requested type).server = item.server ∧ (item.requested type).key = item.key := by
  cases type with
  | get => exact ⟨rfl, rfl⟩
  | del =>
      rw [MemRequest.requested]
      split <;> exact ⟨rfl, rfl⟩

theorem asked_same (type : Combined) (sends : ℕ → Bool) (item : MemRequest) :
    (asked type sends item).server = item.server.filter sends ∧ (asked type sends item).key = item.key := by
  obtain ⟨server, key⟩ := requested_same item type
  rw [asked]
  rcases at_p : item.server with _ | p
  · exact ⟨rfl, rfl⟩
  · rw [Option.any_some, Option.filter_some]
    by_cases sent : sends p = true
    · rw [if_pos sent, if_pos sent, server, at_p]
      exact ⟨rfl, key⟩
    · rw [if_neg sent, if_neg sent]
      exact ⟨rfl, rfl⟩

theorem onItems_congr {among : List ℕ} {f g : MemRequest → MemRequest}
    (same : ∀ i ∈ among, f (items i) = g (items i)) : onItems among f items = onItems among g items := by
  funext i
  by_cases mem : i ∈ among
  · rw [onItems, onItems, if_pos mem, if_pos mem, same i mem]
  · rw [onItems, onItems, if_neg mem, if_neg mem]

theorem onItems_comp (among : List ℕ) (f g : MemRequest → MemRequest) (items : Items) :
    onItems among f (onItems among g items) = onItems among (f ∘ g) items := by
  funext i
  by_cases mem : i ∈ among
  · rw [onItems, if_pos mem, onItems, if_pos mem, onItems, if_pos mem]
    rfl
  · rw [onItems, if_neg mem, onItems, if_neg mem, onItems, if_neg mem]

theorem onItems_onItems {first second : List ℕ} (f : MemRequest → MemRequest)
    (apart : ∀ i ∈ first, i ∉ second) (items : Items) :
    onItems second f (onItems first f items) = onItems (first ++ second) f items := by
  funext i
  by_cases one : i ∈ first
  · rw [onItems, if_neg (apart i one), onItems, if_pos one, onItems, if_pos (List.mem_append_left _ one)]
  · by_cases two : i ∈ second
    · rw [onItems, if_pos two, onItems, if_neg one, onItems, if_pos (List.mem_append_right _ two)]
    · rw [onItems, if_neg two, onItems, if_neg one, onItems, if_neg]
      rw [List.mem_append]
      exact fun mem => mem.elim one two

/-- What is sent for the groups of a call. -/
def requests (type : Combined) (sends : ℕ → Bool) (items : Items) : List UInt8 → List (List ℕ) → Sent
  | _, [] => []
  | before, g :: groups =>
      let text := requestText items g before type
      ((serverOf items g).filter sends).elim (requests type sends items text groups) fun p =>
        (p, text) :: requests type sends items text groups

theorem serverOf_congr {items' : Items} {g : List ℕ} (same : ∀ i ∈ g, items' i = items i) :
    serverOf items' g = serverOf items g := by
  rcases g with _ | ⟨i, rest⟩
  · rfl
  · exact congrArg MemRequest.server (same i List.mem_cons_self)

theorem requestText_congr {items' : Items} {g : List ℕ} (same : ∀ i ∈ g, items' i = items i)
    (before : List UInt8) (type : Combined) : requestText items' g before type = requestText items g before type := by
  cases type with
  | get => rw [requestText, requestText, List.flatMap_congr fun i mem => by rw [same i mem]]
  | del => rw [requestText, requestText, List.flatMap_congr fun i mem => by rw [same i mem]]

theorem requests_congr {items' : Items} {groups : List (List ℕ)} (same : ∀ g ∈ groups, ∀ i ∈ g, items' i = items i)
    (type : Combined) (before : List UInt8) :
    requests type sends items' before groups = requests type sends items before groups := by
  induction groups generalizing before with
  | nil => rfl
  | cons g groups ih =>
      rw [requests, requests, serverOf_congr (same g List.mem_cons_self),
        requestText_congr (same g List.mem_cons_self), ih fun h at_h => same h (List.mem_cons_of_mem _ at_h)]

theorem Grouped.congr {items' : Items} {groups : List (List ℕ)} (grouped : Grouped items groups)
    (same : ∀ g ∈ groups, ∀ i ∈ g, items' i = items i) : Grouped items' groups := by
  refine (grouped.filter (fun _ => true) fun g at_g i at_i => ?_).2
  rw [same g at_g i at_i]
  cases (items i).server <;> rfl

/-- A call asks every server that can be sent to for all its items, and takes leave of the others. -/
theorem sendGroups_eq {groups : List (List ℕ)} (type : Combined) (grouped : Grouped items groups)
    (served : ∀ g ∈ groups, serverOf items g ≠ none) (before : List UInt8) (socks : Sockets) :
    ∃ socks', sendGroups type (wholly sends) before items socks groups =
        (onItems groups.flatten (asked type sends) items, socks', requests type sends items before groups) ∧
      ∀ p, socks' p = socks p ∨ sends p = false ∧ socks' p = ⟨[], []⟩ := by
  induction groups generalizing items before socks with
  | nil =>
      refine ⟨socks, ?_, fun p => Or.inl rfl⟩
      rw [List.flatten_nil, onItems_nil]
      rfl
  | cons g groups ih =>
      obtain ⟨p, at_p⟩ := Option.ne_none_iff_exists'.mp (served g List.mem_cons_self)
      have one : ∀ i ∈ g, (items i).server = some p := fun i mem =>
        ((grouped.served g List.mem_cons_self).2 i mem).trans at_p
      have apart : ∀ i ∈ g, i ∉ groups.flatten := fun i mem other =>
        (List.nodup_append.mp grouped.nodup).2.2 i mem i other rfl
      -- the other groups do not see what becomes of this one
      have others : ∀ h ∈ groups, ∀ i ∈ h, onItems g (asked type sends) items i = items i := fun h at_h i at_i =>
        if_neg fun mem => apart i mem (List.mem_flatten_of_mem at_h at_i)
      have rest := ih (grouped.tail.congr others)
        (fun h at_h => serverOf_congr (others h at_h) ▸ served h (List.mem_cons_of_mem _ at_h))
        (requestText items g before type)
      rw [requests_congr others, onItems_onItems _ apart] at rest
      rw [sendGroups, at_p, requests, at_p, List.flatten_cons]
      dsimp only
      rw [sendBytes_wholly (requestText_ne_nil (grouped.served g List.mem_cons_self).1 _ _ _)]
      by_cases sent : sends p = true
      · obtain ⟨socks', run, left⟩ := rest socks
        have first : expected items g type = onItems g (asked type sends) items := by
          refine onItems_congr fun i mem => ?_
          rw [asked, one i mem, Option.any_some, if_pos sent]
        refine ⟨socks', ?_, left⟩
        rw [if_pos sent, first, run, Option.filter_some, if_pos sent]
        rfl
      · obtain ⟨socks', run, left⟩ := rest (disconnect socks p)
        have first : dropServer (expected items g type) g = onItems g (asked type sends) items := by
          have twice : dropServer (expected items g type) g =
              onItems g (MemRequest.lost ∘ fun item => item.requested type) items := onItems_comp _ _ _ _
          rw [twice]
          refine onItems_congr fun i mem => ?_
          rw [asked, one i mem, Option.any_some, if_neg sent]
          cases type with
          | get => rfl
          | del =>
              change (if (items i).result = .noReply then items i else (items i).awaited).lost = _
              split <;> rfl
        refine ⟨socks', ?_, fun q => ?_⟩
        · rw [if_neg sent, first, run, Option.filter_some, if_neg sent]
          rfl
        · rcases left q with same | cut
          · by_cases here : q = p
            · subst here
              refine Or.inr ⟨Bool.eq_false_of_not_eq_true sent, ?_⟩
              rw [same, disconnect, Function.update_self]
            · rw [disconnect, Function.update_of_ne here] at same
              exact Or.inl same
          · exact Or.inr cut

/-! ### Their replies -/

/-- A server replies to the one request that it gets, and holds what it held. -/
theorem serveAll_get (memcached : Memcached serve) {groups : List (List ℕ)} (grouped : Grouped items groups)
    (keys : ∀ g ∈ groups, ∀ i ∈ g, ValidKey (items i).key) (before : List UInt8) : ∃ replies,
      serveAll serve caches (requests .get sends items before groups) = some (replies, caches) ∧
      (∀ g ∈ groups, ∀ p, (serverOf items g).filter sends = some p →
        replies p = getReply (caches p) (g.map fun i => (items i).key)) ∧
      ∀ p, (∀ g ∈ groups, (serverOf items g).filter sends ≠ some p) → replies p = [] := by
  induction groups generalizing before with
  | nil => exact ⟨fun _ => [], rfl, fun g mem => (nomatch mem), fun _ _ => rfl⟩
  | cons g groups ih =>
      obtain ⟨replies, run, asked, others⟩ :=
        ih grouped.tail (fun h at_h => keys h (List.mem_cons_of_mem _ at_h)) (requestText items g before .get)
      rw [requests]
      rcases asks : (serverOf items g).filter sends with _ | p
      · refine ⟨replies, run, ?_, fun p none => others p fun h at_h => none h (List.mem_cons_of_mem _ at_h)⟩
        intro h at_h p at_p
        rcases List.mem_cons.mp at_h with rfl | at_h
        · rw [asks] at at_p
          exact (nomatch at_p)
        · exact asked h at_h p at_p
      · have served := (Option.filter_eq_some_iff.mp asks).1
        have apart : ∀ h ∈ groups, (serverOf items h).filter sends ≠ some p := by
          intro h at_h same
          have equal := served.trans (Option.filter_eq_some_iff.mp same).1.symm
          have none := (List.pairwise_cons.mp grouped.apart).1 h at_h equal
          exact (nomatch none.symm.trans served)
        refine ⟨Function.update replies p (getReply (caches p) (g.map fun i => (items i).key)), ?_, ?_, ?_⟩
        · rw [Option.elim_some, serveAll, memcached.get (caches p) items g before (keys g List.mem_cons_self)
            (grouped.served g List.mem_cons_self).1, Option.bind_some]
          dsimp only
          rw [Function.update_eq_self, run, Option.map_some]
          dsimp only
          rw [others p apart, List.append_nil]
        · intro h at_h q at_q
          rcases List.mem_cons.mp at_h with rfl | at_h
          · rw [asks] at at_q
            cases at_q
            rw [Function.update_self]
          · rw [Function.update_of_ne (fun same => apart h at_h (at_q.trans (congrArg some same))), asked h at_h q at_q]
        · intro q none
          rw [Function.update_of_ne fun same => none g List.mem_cons_self (asks.trans (congrArg some same.symm))]
          exact others q fun h at_h => none h (List.mem_cons_of_mem _ at_h)

/-- An item with what its server has for it. -/
def fetched (caches : ℕ → Cache) (item : MemRequest) : MemRequest :=
  item.server.elim item fun p => answered (caches p) item

theorem calm_update {socks : Sockets} {p : ℕ} {s : ServerSocket} (calm : ∀ q, (socks q).Calm) (one : s.Calm) :
    ∀ q, (Function.update socks p s q).Calm :=
  (Function.forall_update_iff socks fun _ t => t.Calm).mpr ⟨one, fun q _ => calm q⟩

theorem receiveGroups_get {groups : List (List ℕ)} {socks : Sockets} {fuel : ℕ}
    (grouped : Grouped items groups) (valid : ∀ p, (caches p).Valid)
    (distinct : ∀ g ∈ groups, DistinctKeys items g) (enough : ∀ g ∈ groups, g.length < fuel)
    (calm : ∀ p, (socks p).Calm)
    (replied : ∀ g ∈ groups, ∀ p, serverOf items g = some p →
      (socks p).bytes = getReply (caches p) (g.map fun i => (items i).key)) (nResponses : ℕ) :
    ∃ n socks', receiveGroups .get fuel items socks nResponses groups =
        some (n, onItems groups.flatten (fetched caches) items, socks') ∧
      (∀ p, (socks' p).Calm) ∧ (∀ g ∈ groups, ∀ p, serverOf items g = some p → (socks' p).bytes = []) ∧
      ∀ p, (∀ g ∈ groups, serverOf items g ≠ some p) → socks' p = socks p := by
  induction groups generalizing items socks nResponses with
  | nil =>
      refine ⟨nResponses, socks, ?_, calm, fun g mem => absurd mem List.not_mem_nil, fun _ _ => rfl⟩
      rw [List.flatten_nil, onItems_nil]
      rfl
  | cons g groups ih =>
      have apart : ∀ i ∈ g, i ∉ groups.flatten := fun i mem other =>
        (List.nodup_append.mp grouped.nodup).2.2 i mem i other rfl
      obtain ⟨nonempty, one⟩ := grouped.served g List.mem_cons_self
      rw [List.flatten_cons]
      rcases at_p : serverOf items g with _ | p
      · obtain ⟨n, socks', run, calm', read, kept⟩ := ih grouped.tail
          (fun h at_h => distinct h (List.mem_cons_of_mem _ at_h))
          (fun h at_h => enough h (List.mem_cons_of_mem _ at_h)) calm
          (fun h at_h => replied h (List.mem_cons_of_mem _ at_h)) nResponses
        have same : onItems g (fetched caches) items = items := by
          funext i
          by_cases mem : i ∈ g
          · rw [onItems, if_pos mem, fetched, one i mem, at_p]
            rfl
          · exact if_neg mem
        refine ⟨n, socks', ?_, calm', ?_, fun p none => kept p fun h at_h => none h (List.mem_cons_of_mem _ at_h)⟩
        · rw [receiveGroups, at_p, ← onItems_onItems _ apart, same]
          exact run
        · intro h at_h p at_p'
          rcases List.mem_cons.mp at_h with rfl | at_h
          · cases at_p.symm.trans at_p'
          · exact read h at_h p at_p'
      · obtain ⟨n₁, s, got, left, calm₁⟩ := handleGetResponse_calm (valid p) (distinct g List.mem_cons_self)
          (fun _ mem => mem) (List.nodup_append.mp grouped.nodup).1 (calm p)
          ((replied g List.mem_cons_self p at_p).trans (List.append_nil _).symm)
          (enough g List.mem_cons_self) 0
        have first : onItems g (answered (caches p)) items = onItems g (fetched caches) items := by
          refine onItems_congr fun i mem => ?_
          rw [fetched, one i mem, at_p]
          rfl
        rw [first] at got
        have others : ∀ h ∈ groups, ∀ i ∈ h, onItems g (fetched caches) items i = items i := fun h at_h i at_i =>
          if_neg fun mem => apart i mem (List.mem_flatten_of_mem at_h at_i)
        obtain ⟨servers, grouped'⟩ := @Grouped.filter _ _ grouped.tail (onItems g (fetched caches) items)
          (fun _ => true) fun h at_h i at_i => by
            rw [others h at_h i at_i]
            cases (items i).server <;> rfl
        have servers' : ∀ h ∈ groups, serverOf (onItems g (fetched caches) items) h = serverOf items h := by
          intro h at_h
          rw [servers h at_h]
          cases serverOf items h <;> rfl
        have away : ∀ h ∈ groups, serverOf items h ≠ some p := by
          intro h at_h same
          have none := (List.pairwise_cons.mp grouped.apart).1 h at_h (at_p.trans same.symm)
          cases none.symm.trans at_p
        obtain ⟨n, socks', run, calm', read, kept⟩ := ih grouped'
          (fun h at_h i at_i j at_j same => distinct h (List.mem_cons_of_mem _ at_h) i at_i j at_j (by
            rw [others h at_h i at_i, others h at_h j at_j] at same
            exact same))
          (fun h at_h => enough h (List.mem_cons_of_mem _ at_h)) (calm_update calm calm₁)
          (fun h at_h q at_q => by
            rw [servers' h at_h] at at_q
            rw [Function.update_of_ne fun same => away h at_h (at_q.trans (congrArg some same)),
              replied h (List.mem_cons_of_mem _ at_h) q at_q,
              List.map_congr_left fun i at_i => congrArg MemRequest.key (others h at_h i at_i)])
          (nResponses + n₁)
        rw [onItems_onItems _ apart] at run
        refine ⟨n, socks', ?_, calm', ?_, ?_⟩
        · simp only [receiveGroups, at_p, handleResponse, got]
          exact run
        · intro h at_h q at_q
          rcases List.mem_cons.mp at_h with rfl | at_h
          · cases at_p.symm.trans at_q
            rw [kept p fun h at_h => servers' h at_h ▸ away h at_h, Function.update_self, left]
          · exact read h at_h q ((servers' h at_h).trans at_q)
        · intro q none
          rw [kept q fun h at_h => servers' h at_h ▸ none h (List.mem_cons_of_mem _ at_h),
            Function.update_of_ne fun same => none g List.mem_cons_self (at_p.trans (congrArg some same.symm))]

/-! ### A call to get -/

/-- An item as a call to get leaves it: with the value at its server, if it has one that can be
reached. -/
def gotten (c : Client) (reaches : ℕ → Bool) (caches : ℕ → Cache) (item : MemRequest) : MemRequest :=
  ((c.findServer item.key).map HashRing.Point.owner |>.filter reaches).elim item.lost fun p =>
    answered (caches p) { item with server := some p, result := .notFound }

variable {c : Client} {connects : ℕ → Bool} {count fuel : ℕ} {order : List ℕ}

theorem gotten_eq (item : MemRequest) :
    gotten c (fun p => connects p && sends p) caches item =
      if (assign c connects item).server = none then assign c connects item
      else fetched caches (asked .get sends (assign c connects item)) := by
  rw [gotten, assign]
  rcases (c.findServer item.key).map HashRing.Point.owner with _ | p
  · rfl
  · rcases reached : connects p <;> rcases sent : sends p <;>
      simp [asked, fetched, MemRequest.requested, MemRequest.awaited, MemRequest.lost, Option.filter_some, reached, sent]

theorem mem_groups (ordered : Ordered items count order) (i : ℕ) :
    i ∈ (serverGroups items order).flatten ↔ i < count ∧ (items i).server ≠ none := by
  rw [flatten_serverGroups, ordered.perm.mem_iff, List.mem_filter, List.mem_range, decide_eq_true_iff]

theorem Ordered.served (ordered : Ordered items count order) :
    ∀ g ∈ serverGroups items order, serverOf items g ≠ none := by
  intro g mem
  obtain ⟨nonempty, one⟩ := ordered.grouped.served g mem
  obtain ⟨i, at_i⟩ := List.exists_mem_of_ne_nil g nonempty
  rw [← one i at_i]
  exact ((mem_groups ordered i).mp (List.mem_flatten_of_mem mem at_i)).2

theorem combine_sent {o : Outcome} {socks : Sockets} (some : 0 < count) (few : count ≤ maxRequests)
    (ordered : Ordered (assigned c connects count items) count order)
    (run : combine .get c connects (wholly sends) fuel items count order socks = .some o) :
    o.sent = requests .get sends (assigned c connects count items) []
      (serverGroups (assigned c connects count items) order) := by
  obtain ⟨socks', sent, _⟩ := @sendGroups_eq _ sends _ .get ordered.grouped ordered.served [] socks
  rw [combine, if_neg (by omega), if_neg (by omega)] at run
  dsimp only at run
  rw [sent] at run
  obtain ⟨⟨n, items', socks''⟩, _, rfl⟩ := Option.map_eq_some_iff.mp run
  rfl

/-- Sending and receiving for some groups, when every server that is asked replies. -/
theorem sendReceive_get {groups : List (List ℕ)} (memcached : Memcached serve) (grouped : Grouped items groups)
    (served : ∀ g ∈ groups, serverOf items g ≠ none) (keys : ∀ g ∈ groups, ∀ i ∈ g, ValidKey (items i).key)
    (distinct : ∀ g ∈ groups, DistinctKeys items g) (valid : ∀ p, (caches p).Valid)
    (enough : ∀ g ∈ groups, g.length < fuel) : ∃ replies,
      serveAll serve caches (requests .get sends items [] groups) = some (replies, caches) ∧
      ∀ socks : Sockets, (∀ p, (socks p).Calm) → (∀ p, (socks p).bytes = replies p) →
        ∃ socks₁ n socks₂,
          sendGroups .get (wholly sends) [] items socks groups =
            (onItems groups.flatten (asked .get sends) items, socks₁, requests .get sends items [] groups) ∧
          receiveGroups .get fuel (onItems groups.flatten (asked .get sends) items) socks₁ 0 groups =
            some (n, onItems groups.flatten (fetched caches ∘ asked .get sends) items, socks₂) ∧
          ∀ p, (socks₂ p).Calm ∧ (socks₂ p).bytes = [] := by
  obtain ⟨replies, run, replied, silent⟩ := @serveAll_get _ _ caches sends memcached _ grouped keys []
  refine ⟨replies, run, fun socks calm bytes => ?_⟩
  obtain ⟨socks₁, sent, kept⟩ := @sendGroups_eq _ sends _ .get grouped served [] socks
  -- once asked, the items of the servers that could not be sent to have none
  have items' : ∀ g ∈ groups, ∀ i ∈ g, onItems groups.flatten (asked .get sends) items i = asked .get sends (items i) :=
    fun g at_g i at_i => if_pos (List.mem_flatten_of_mem at_g at_i)
  have keys' : ∀ g ∈ groups, ∀ i ∈ g, (onItems groups.flatten (asked .get sends) items i).key = (items i).key :=
    fun g at_g i at_i => (congrArg MemRequest.key (items' g at_g i at_i)).trans (asked_same .get sends (items i)).2
  obtain ⟨servers', grouped'⟩ := grouped.filter sends fun g at_g i at_i =>
    (congrArg MemRequest.server (items' g at_g i at_i)).trans (asked_same .get sends (items i)).1
  obtain ⟨n, socks₂, received, calm', read, others⟩ := receiveGroups_get grouped' valid
    (fun g at_g i at_i j at_j same => distinct g at_g i at_i j at_j (by
      rw [keys' g at_g i at_i, keys' g at_g j at_j] at same
      exact same))
    enough
    (fun p => by
      rcases kept p with same | ⟨_, cut⟩
      · exact same ▸ calm p
      · exact cut ▸ trivial)
    (fun g at_g p at_p => by
      rw [servers' g at_g] at at_p
      rcases kept p with same | ⟨no, _⟩
      · rw [same, bytes p, replied g at_g p at_p, List.map_congr_left (keys' g at_g)]
      · exact absurd (Option.filter_eq_some_iff.mp at_p).2 (by rw [no]; decide)) 0
  rw [onItems_comp] at received
  refine ⟨socks₁, n, socks₂, sent, received, fun p => ⟨calm' p, ?_⟩⟩
  by_cases asks : ∃ g ∈ groups, (serverOf items g).filter sends = some p
  · obtain ⟨g, at_g, at_p⟩ := asks
    exact read g at_g p ((servers' g at_g).trans at_p)
  · have quiet : ∀ g ∈ groups, (serverOf items g).filter sends ≠ some p := fun g at_g at_p => asks ⟨g, at_g, at_p⟩
    rw [others p fun g at_g at_p => quiet g at_g ((servers' g at_g).symm.trans at_p)]
    rcases kept p with same | ⟨_, cut⟩
    · rw [same, bytes p, silent p quiet]
    · rw [cut]
      rfl

theorem assigned_key (c : Client) (connects : ℕ → Bool) (count : ℕ) (items : Items) (i : ℕ) :
    (assigned c connects count items i).key = (items i).key := by
  rw [assigned]
  split <;> rfl

/-- A call to get, when every server that is asked replies: it returns, every item gets what its server
has for it, and nothing is left on the connections. -/
theorem combine_get (memcached : Memcached serve) (some : 0 < count) (few : count ≤ maxRequests)
    (ordered : Ordered (assigned c connects count items) count order)
    (keys : ∀ i < count, ValidKey (items i).key)
    (distinct : DistinctKeys items (List.range count)) (valid : ∀ p, (caches p).Valid)
    (enough : count < fuel) : ∃ replies,
      serveAll serve caches (requests .get sends (assigned c connects count items) []
        (serverGroups (assigned c connects count items) order)) = .some (replies, caches) ∧
      ∀ socks : Sockets, (∀ p, (socks p).Calm) → (∀ p, (socks p).bytes = replies p) →
        ∃ o, combine .get c connects (wholly sends) fuel items count order socks = .some o ∧
          (∀ i < count, o.items i = gotten c (fun p => connects p && sends p) caches (items i)) ∧
          ∀ p, (o.socks p).Calm ∧ (o.socks p).bytes = [] := by
  have grouped := ordered.grouped
  have mem := mem_groups ordered
  have member : ∀ g ∈ serverGroups (assigned c connects count items) order, ∀ i ∈ g, i ∈ List.range count :=
    fun g at_g i at_i => List.mem_range.mpr ((mem i).mp (List.mem_flatten_of_mem at_g at_i)).1
  have short : ∀ g ∈ serverGroups (assigned c connects count items) order, g.length < fuel := by
    intro g at_g
    have nodup := (List.nodup_flatten.mp grouped.nodup).1 g at_g
    have length := (nodup.subperm (member g at_g)).length_le
    rw [List.length_range] at length
    omega
  obtain ⟨replies, served, answer⟩ := sendReceive_get memcached grouped ordered.served
    (fun g at_g i at_i => assigned_key c connects count items i ▸ keys i (List.mem_range.mp (member g at_g i at_i)))
    (fun g at_g i at_i j at_j same => distinct i (member g at_g i at_i) j (member g at_g j at_j) (by
      rw [assigned_key, assigned_key] at same
      exact same)) valid short
  refine ⟨replies, served, fun socks calm bytes => ?_⟩
  obtain ⟨socks₁, n, socks₂, sent, received, idle⟩ := answer socks calm bytes
  have run : combine .get c connects (wholly sends) fuel items count order socks = .some
      ⟨n, onItems (serverGroups (assigned c connects count items) order).flatten (fetched caches ∘ asked .get sends)
        (assigned c connects count items), socks₂, requests .get sends (assigned c connects count items) []
          (serverGroups (assigned c connects count items) order)⟩ := by
    rw [combine, if_neg (by omega), if_neg (by omega)]
    dsimp only
    rw [sent]
    dsimp only
    rw [received]
    rfl
  refine ⟨_, run, fun i small => ?_, idle⟩
  · have at_i : assigned c connects count items i = assign c connects (items i) := if_pos small
    rw [gotten_eq, ← at_i]
    by_cases none : (assigned c connects count items i).server = .none
    · rw [if_pos none]
      exact if_neg fun among => ((mem i).mp among).2 none
    · rw [if_neg none]
      exact if_pos ((mem i).mpr ⟨small, none⟩)

end MemCache

end BloomServer
