import BloomServer.MemCacheSocket

/-! The requests of `MemCacheClient`: storing items one by one, and getting or deleting them with
one request for all items of a server. -/
namespace BloomServer
open DecimalText HashRing Receiving

namespace MemCache

inductive MCResult
  | ok
  | noReply
  | notStored
  | notFound
  | noServer
  deriving DecidableEq

/-- The committed bytes of a `ReadWriteBuffer`, and how many of them have been read. -/
structure ReadWriteBuffer where
  written : List UInt8
  readIdx : ℕ
  deriving DecidableEq

namespace ReadWriteBuffer

def empty : ReadWriteBuffer := ⟨[], 0⟩

/-- `GetReadBuffer`, as far as `GetReadSize` reaches. -/
def readable (b : ReadWriteBuffer) : List UInt8 := b.written.drop b.readIdx

/-- `GetWriteBuffer`, filled and committed. -/
def write (b : ReadWriteBuffer) (bytes : List UInt8) : ReadWriteBuffer :=
  { b with written := b.written ++ bytes }

/-- `CommitReadBytes` of all that can be read. -/
def readAll (b : ReadWriteBuffer) : ReadWriteBuffer := { b with readIdx := b.written.length }

end ReadWriteBuffer

structure MemRequest where
  server : Option ℕ
  key : List UInt8
  flags : ℕ
  expiry : ℤ
  cas : ℕ
  result : MCResult
  data : ReadWriteBuffer
  deriving DecidableEq

/-- The array of a call. -/
abbrev Items := ℕ → MemRequest

/-- The sockets of the servers. -/
abbrev Sockets := ℕ → ServerSocket

/-- Some of the items changed. -/
def onItems (among : List ℕ) (f : MemRequest → MemRequest) (items : Items) : Items := fun i =>
  if i ∈ among then f (items i) else items i

/-- A request whose server connection is lost. -/
def MemRequest.lost (item : MemRequest) : MemRequest := { item with server := none, result := .noServer }

/-- A request that is not found until it is. -/
def MemRequest.awaited (item : MemRequest) : MemRequest := { item with result := .notFound }

def dropServer (items : Items) (group : List ℕ) : Items := onItems group MemRequest.lost items

/-! ### Replies -/

/-- The value of a reply that is for an item of the group: its flags, its number for a later
`cas`, its data and the end of its line. -/
def handleItem (v : ValueLine) (i : ℕ) (items : Items) (s : ServerSocket) :
    Bool × Items × ServerSocket :=
  let cas := strtoul v.after.tail
  let more := v.after.head? = some 32
  let item := { items i with flags := v.flags, cas := if more then cas.1 else (items i).cas }
  if more ∧ cas.2.head? ≠ some 13 then (false, Function.update items i item, s)
  else
    let (ok, data, s) := receiveData v.nBytes [] s
    let item := { item with data := item.data.write data }
    if ok = false then (false, Function.update items i item, s)
    else
      let items := Function.update items i { item with result := .ok }
      match s.getByte with
      | (none, s) => (false, items, s)
      | (some cr, s) =>
          if cr ≠ 13 then (false, items, s)
          else
            match s.getByte with
            | (none, s) => (false, items, s)
            | (some lf, s) => (decide (lf = 10), items, s)

/-- What is discarded of a value that no item waits for, as an `int`; `DiscardBytes` takes a negative
one for nothing. -/
def ValueLine.discarded (v : ValueLine) : ℕ := (Int.bmod (v.nBytes + 2) (2 ^ 32)).toNat

/-- One line of a reply and what follows it: the end of the loop, by an exception or not, or the
items, the number of values found and the socket it goes on with. -/
def handleValue (group : List ℕ) (items : Items) (nFound : ℕ) (s : ServerSocket) :
    Option Bool × Items × ℕ × ServerSocket :=
  match receiveLine s with
  | (none, s) => (some false, items, nFound, s)
  | (some line, s) =>
      if line = ascii "END\r\n" then (some true, items, nFound, s)
      else
        match parseValue line with
        | none => (some false, items, nFound, s)
        | some v =>
            match group.find? fun i => (items i).key = v.key with
            | none =>
                match discardBytes v.discarded s with
                | (none, s) => (some false, items, nFound, s)
                | (some (), s) => (none, items, nFound, s)
            | some i =>
                match handleItem v i items s with
                | (false, items, s) => (some false, items, nFound, s)
                | (true, items, s) => (none, items, nFound + 1, s)

/-- `HandleGetResponse`: whether it did not throw, the items, and the number of values found. -/
def handleGetResponse (group : List ℕ) : ℕ → Items → ℕ → ServerSocket →
    Option (Bool × Items × ℕ × ServerSocket)
  | 0, _, _, _ => none
  | fuel + 1, items, nFound, s =>
      match handleValue group items nFound s with
      | (some ok, items, nFound, s) => some (ok, items, nFound, s)
      | (none, items, nFound, s) => handleGetResponse group fuel items nFound s

/-- `HandleDelResponse`: whether it did not throw, the items, and the number of replies. -/
def handleDelResponse : List ℕ → Items → ℕ → ServerSocket → Bool × Items × ℕ × ServerSocket
  | [], items, nResponses, s => (true, items, nResponses, s)
  | i :: group, items, nResponses, s =>
      if (items i).result = .noReply then handleDelResponse group items nResponses s
      else
        match receiveLine s with
        | (none, s) => (false, items, nResponses, s)
        | (some line, s) =>
            if line = ascii "DELETED\r\n" then
              handleDelResponse group (Function.update items i { items i with result := .ok })
                (nResponses + 1) s
            else if line = ascii "NOT_FOUND\r\n" then
              handleDelResponse group (Function.update items i { items i with result := .notFound })
                (nResponses + 1) s
            else (false, items, nResponses, s)

/-- `HandleStoreResponse`: the result, if it did not throw. -/
def handleStoreResponse (s : ServerSocket) : Option MCResult × ServerSocket :=
  match receiveLine s with
  | (none, s) => (none, s)
  | (some line, s) =>
      if line = ascii "STORED\r\n" then (some .ok, s)
      else if line = ascii "NOT_STORED\r\n" then (some .notStored, s)
      else (none, s)

/-! ### Requests -/

inductive Combined
  | get
  | del
  deriving DecidableEq

/-- The request of a group of items; the one of a deletion goes on behind the last one. -/
def requestText (items : Items) (group : List ℕ) (before : List UInt8) : Combined → List UInt8
  | .get => ascii "get" ++ group.flatMap (fun i => 32 :: (items i).key) ++ ascii "\r\n"
  | .del => before ++ group.flatMap fun i =>
      ascii "delete " ++ (items i).key ++ 32 :: printInt (items i).expiry ++
        (if (items i).result = .noReply then ascii " noreply" else []) ++ ascii "\r\n"

/-- An item once its request is made; without a reply to come its result stays. -/
def MemRequest.requested (item : MemRequest) : Combined → MemRequest
  | .get => item.awaited
  | .del => if item.result = .noReply then item else item.awaited

/-- The items of a group once their request is made. -/
def expected (items : Items) (group : List ℕ) (type : Combined) : Items :=
  onItems group (fun item => item.requested type) items

/-- Items of one server, one after another. -/
def serverGroups (items : Items) : List ℕ → List (List ℕ)
  | [] => []
  | i :: rest =>
      (i :: rest.takeWhile fun j => (items j).server = (items i).server) ::
        serverGroups items (rest.dropWhile fun j => (items j).server = (items i).server)
termination_by order => order.length
decreasing_by exact Nat.lt_succ_of_le (List.length_dropWhile_le _ _)

/-- What `send` does with the bytes it is given: an error, so many of them, or all. -/
inductive SendAnswer
  | failed
  | part (count : ℕ)
  | whole
  deriving DecidableEq

/-- `SendBytes`: what has been sent, or the exception. That some of the bytes were not goes unnoticed,
and to send nothing is an error. -/
def sendBytes (bytes : List UInt8) : SendAnswer → Option (List UInt8)
  | .failed => none
  | .part count => if bytes.take count = [] then none else some (bytes.take count)
  | .whole => if bytes = [] then none else some bytes

/-- `SendBytes` of one piece after the other: what has been sent, and whether none threw. -/
def sendPieces : List (List UInt8 × SendAnswer) → List UInt8 × Bool
  | [] => ([], true)
  | (bytes, answer) :: rest =>
      match sendBytes bytes answer with
      | none => ([], false)
      | some taken => (taken ++ (sendPieces rest).1, (sendPieces rest).2)

/-- What was sent to whom. -/
abbrev Sent := List (ℕ × List UInt8)

/-- What a call leaves: the number of responses, the items, the sockets, and what was sent. -/
structure Outcome where
  nResponses : ℤ
  items : Items
  socks : Sockets
  sent : Sent

/-- `Disconnect`, seen from the next connection. -/
def disconnect (socks : Sockets) (p : ℕ) : Sockets := Function.update socks p ⟨[], []⟩

/-- The server of a group. -/
def serverOf (items : Items) (group : List ℕ) : Option ℕ := group.head?.bind fun i => (items i).server

/-- The loop that sends all requests; `sends` is what becomes of the one to a server. -/
def sendGroups (type : Combined) (sends : ℕ → SendAnswer) (before : List UInt8) (items : Items)
    (socks : Sockets) : List (List ℕ) → Items × Sockets × Sent
  | [] => (items, socks, [])
  | group :: groups =>
      let text := requestText items group before type
      let asked := expected items group type
      match serverOf items group with
      | none => sendGroups type sends text asked socks groups
      | some p =>
          match sendBytes text (sends p) with
          | some taken =>
              let (items, socks, sent) := sendGroups type sends text asked socks groups
              (items, socks, (p, taken) :: sent)
          | none => sendGroups type sends text (dropServer asked group) (disconnect socks p) groups

/-- The responses of a server to the items of a group. -/
def handleResponse (fuel : ℕ) (group : List ℕ) (items : Items) (s : ServerSocket) :
    Combined → Option (Bool × Items × ℕ × ServerSocket)
  | .get => handleGetResponse group fuel items 0 s
  | .del => some (handleDelResponse group items 0 s)

/-- The loop that receives the responses. -/
def receiveGroups (type : Combined) (fuel : ℕ) (items : Items) (socks : Sockets) (nResponses : ℕ) :
    List (List ℕ) → Option (ℕ × Items × Sockets)
  | [] => some (nResponses, items, socks)
  | group :: groups =>
      match serverOf items group with
      | none => receiveGroups type fuel items socks nResponses groups
      | some p =>
          match handleResponse fuel group items (socks p) type with
          | none => none
          | some (true, items, n, s) =>
              receiveGroups type fuel items (Function.update socks p s) (nResponses + n) groups
          | some (false, items, _, _) =>
              receiveGroups type fuel (dropServer items group) (disconnect socks p) nResponses groups

/-- The server of an item is looked up; one that cannot be connected is none. -/
def assign (c : Client) (connects : ℕ → Bool) (item : MemRequest) : MemRequest :=
  let server := ((c.findServer item.key).map HashRing.Point.owner).filter connects
  { item with server, result := if server = none then .noServer else item.result }

/-- The items of a call get their servers. -/
def assigned (c : Client) (connects : ℕ → Bool) (count : ℕ) (items : Items) : Items := fun i =>
  if i < count then assign c connects (items i) else items i

/-- An order of the items that `std::sort` may leave: those with a server, by server. -/
structure Ordered (items : Items) (count : ℕ) (order : List ℕ) : Prop where
  perm : order.Perm ((List.range count).filter fun i => (items i).server ≠ none)
  sorted : order.Pairwise fun i j => (items i).server.getD 0 ≤ (items j).server.getD 0

def maxRequests : ℕ := 50

/-- `Combine`, with the order in which the items are sorted. -/
def combine (type : Combined) (c : Client) (connects : ℕ → Bool) (sends : ℕ → SendAnswer) (fuel : ℕ)
    (items : Items) (count : ℕ) (order : List ℕ) (socks : Sockets) : Option Outcome :=
  if count < 1 then some ⟨0, items, socks, []⟩
  else if maxRequests < count then some ⟨-1, items, socks, []⟩
  else
    let items := assigned c connects count items
    let groups := serverGroups items order
    let (items, socks, sent) := sendGroups type sends [] items socks groups
    (receiveGroups type fuel items socks 0 groups).map fun (n, items, socks) => ⟨n, items, socks, sent⟩

/-- The line of a storage request. -/
def storeLine (type : List UInt8) (item : MemRequest) : List UInt8 :=
  type ++ 32 :: (item.key ++ 32 :: (decimal item.flags ++ 32 :: (printInt item.expiry ++
    32 :: (decimal (item.data.readable.length % 2 ^ 32) ++
      ((if type.head? = some 99 then 32 :: decimal item.cas else []) ++
        ((if item.result = .noReply then ascii " noreply" else []) ++ [13, 10]))))))

/-- A storage request, with its data. -/
def storeText (type : List UInt8) (item : MemRequest) : List UInt8 :=
  storeLine type item ++ (item.data.readable ++ [13, 10])

/-- A storage request is sent in three pieces. -/
def sendStore (type : List UInt8) (sends : ℕ → SendAnswer) (item : MemRequest) : List UInt8 × Bool :=
  sendPieces [(storeLine type item, sends 0), (item.data.readable, sends 1), ([13, 10], sends 2)]

/-- The items from one on that share its server. -/
def sharing (items : Items) (count n : ℕ) : List ℕ :=
  (List.range count).filter fun i => n ≤ i ∧ (items n).server = (items i).server

/-- An item whose data has been sent. -/
def MemRequest.sent (item : MemRequest) : MemRequest := { item with data := item.data.readAll }

/-- One item of `Store`; `sends` is what becomes of the pieces of its request. Whether there was a
response, the items, the sockets, and what was sent. -/
def storeItem (type : List UInt8) (sends : ℕ → ℕ → SendAnswer) (count : ℕ) (items : Items)
    (socks : Sockets) (n : ℕ) : Bool × Items × Sockets × Sent :=
  match (items n).server with
  | none => (false, items, socks, [])
  | some p =>
      let pieces := sendStore type (sends n) (items n)
      let sent := if pieces.1 = [] then [] else [(p, pieces.1)]
      if pieces.2 = true then
        let items := Function.update items n (items n).sent
        if (items n).result = .noReply then (false, items, socks, sent)
        else
          match handleStoreResponse (socks p) with
          | (some result, s) =>
              (true, Function.update items n { items n with result }, Function.update socks p s, sent)
          | (none, _) => (false, dropServer items (sharing items count n), disconnect socks p, sent)
      else (false, dropServer items (sharing items count n), disconnect socks p, sent)

/-- The loop of `Store`. -/
def storeItems (type : List UInt8) (sends : ℕ → ℕ → SendAnswer) (count : ℕ) :
    List ℕ → Items → Sockets → ℤ → Outcome
  | [], items, socks, nResponses => ⟨nResponses, items, socks, []⟩
  | n :: rest, items, socks, nResponses =>
      let (response, items, socks, sent) := storeItem type sends count items socks n
      let o := storeItems type sends count rest items socks (if response then nResponses + 1 else nResponses)
      { o with sent := sent ++ o.sent }

/-- `Store`. -/
def store (type : List UInt8) (c : Client) (connects : ℕ → Bool) (sends : ℕ → ℕ → SendAnswer)
    (items : Items) (count : ℕ) (socks : Sockets) : Outcome :=
  storeItems type sends count (List.range count) (assigned c connects count items) socks 0

/-! ### The groups of a call -/

variable {items : Items} {order : List ℕ}

/-- Groups of one server each, or of none, and no server in two of them. -/
structure Grouped (items : Items) (groups : List (List ℕ)) : Prop where
  served : ∀ g ∈ groups, g ≠ [] ∧ ∀ i ∈ g, (items i).server = serverOf items g
  apart : groups.Pairwise fun g h => serverOf items g = serverOf items h → serverOf items g = none
  nodup : groups.flatten.Nodup

theorem Grouped.tail {g : List ℕ} {groups : List (List ℕ)} (grouped : Grouped items (g :: groups)) :
    Grouped items groups where
  served h mem := grouped.served h (List.mem_cons_of_mem _ mem)
  apart := (List.pairwise_cons.mp grouped.apart).2
  nodup := (List.nodup_append.mp grouped.nodup).2.1

/-- Groups stay apart when some of the servers are lost. -/
theorem Grouped.filter {groups : List (List ℕ)} (grouped : Grouped items groups) {items' : Items}
    (keep : ℕ → Bool)
    (filtered : ∀ g ∈ groups, ∀ i ∈ g, (items' i).server = (items i).server.filter keep) :
    (∀ g ∈ groups, serverOf items' g = (serverOf items g).filter keep) ∧ Grouped items' groups := by
  have servers : ∀ g ∈ groups, serverOf items' g = (serverOf items g).filter keep := by
    intro g mem
    rcases g with _ | ⟨i, rest⟩
    · exact absurd rfl (grouped.served [] mem).1
    · exact filtered _ mem i List.mem_cons_self
  refine ⟨servers, ?_, ?_, grouped.nodup⟩
  · intro g mem
    refine ⟨(grouped.served g mem).1, fun i at_i => ?_⟩
    rw [servers g mem, filtered g mem i at_i, (grouped.served g mem).2 i at_i]
  · refine List.Pairwise.imp_of_mem ?_ grouped.apart
    intro g h at_g at_h apart same
    rw [servers g at_g, servers h at_h] at same
    rw [servers g at_g]
    rcases one : (serverOf items g).filter keep with _ | p
    · rfl
    · rw [one] at same
      have at_p := (Option.filter_eq_some_iff.mp one).1
      rw [apart (at_p.trans (Option.filter_eq_some_iff.mp same.symm).1.symm)] at at_p
      exact (nomatch at_p)

theorem flatten_serverGroups (items : Items) (order : List ℕ) :
    (serverGroups items order).flatten = order := by
  induction order using serverGroups.induct items with
  | case1 =>
      rw [serverGroups]
      rfl
  | case2 i rest ih =>
      rw [serverGroups, List.flatten_cons, ih, List.cons_append, List.takeWhile_append_dropWhile]

/-- In a sorted order the items behind a group have another server. -/
theorem ne_of_dropWhile {i j : ℕ} {rest : List ℕ} (served : ∀ k ∈ i :: rest, (items k).server ≠ none)
    (sorted : (i :: rest).Pairwise fun i j => (items i).server.getD 0 ≤ (items j).server.getD 0)
    (mem : j ∈ rest.dropWhile fun j => (items j).server = (items i).server) :
    (items j).server ≠ (items i).server := by
  induction rest with
  | nil => exact (nomatch mem)
  | cons k rest ih =>
      obtain ⟨first, others⟩ := List.pairwise_cons.mp sorted
      by_cases same : (items k).server = (items i).server
      · rw [List.dropWhile_cons, if_pos (decide_eq_true same)] at mem
        refine ih (fun l at_l => served l ?_) ?_ mem
        · rcases List.mem_cons.mp at_l with rfl | at_l
          · exact List.mem_cons_self
          · exact List.mem_cons_of_mem _ (List.mem_cons_of_mem _ at_l)
        · exact List.pairwise_cons.mpr ⟨fun l at_l => first l (List.mem_cons_of_mem _ at_l),
            (List.pairwise_cons.mp others).2⟩
      · rw [List.dropWhile_cons, if_neg fun holds => same (of_decide_eq_true holds)] at mem
        intro equal
        have up : (items i).server.getD 0 ≤ (items k).server.getD 0 := first k List.mem_cons_self
        have down : (items k).server.getD 0 ≤ (items j).server.getD 0 := by
          rcases List.mem_cons.mp mem with rfl | mem
          · exact Nat.le_refl _
          · exact (List.pairwise_cons.mp others).1 j mem
        rw [equal] at down
        obtain ⟨p, at_i⟩ := Option.ne_none_iff_exists'.mp (served i List.mem_cons_self)
        obtain ⟨q, at_k⟩ := Option.ne_none_iff_exists'.mp
          (served k (List.mem_cons_of_mem _ List.mem_cons_self))
        rw [at_i, at_k] at up down
        rw [at_i, at_k] at same
        exact same (congrArg some (Nat.le_antisymm down up))

theorem served_serverGroups (items : Items) (order : List ℕ) : ∀ g ∈ serverGroups items order,
    g ≠ [] ∧ ∀ i ∈ g, (items i).server = serverOf items g := by
  induction order using serverGroups.induct items with
  | case1 =>
      rw [serverGroups]
      exact fun _ mem => (nomatch mem)
  | case2 i rest ih =>
      rw [serverGroups]
      intro g mem
      rcases List.mem_cons.mp mem with rfl | mem
      · refine ⟨List.cons_ne_nil _ _, fun j at_j => ?_⟩
        rcases List.mem_cons.mp at_j with rfl | at_j
        · rfl
        · exact of_decide_eq_true (List.mem_takeWhile_imp (p := fun j : ℕ => decide
            ((items j).server = (items i).server)) at_j)
      · exact ih g mem

theorem apart_serverGroups (served : ∀ i ∈ order, (items i).server ≠ none)
    (sorted : order.Pairwise fun i j => (items i).server.getD 0 ≤ (items j).server.getD 0) :
    (serverGroups items order).Pairwise fun g h => serverOf items g ≠ serverOf items h := by
  induction order using serverGroups.induct items with
  | case1 =>
      rw [serverGroups]
      exact List.Pairwise.nil
  | case2 i rest ih =>
      have back := (List.dropWhile_sublist (l := rest) fun j => (items j).server = (items i).server)
      have later := ih (fun j mem => served j (List.mem_cons_of_mem _ (back.subset mem)))
        ((List.pairwise_cons.mp sorted).2.sublist back)
      rw [serverGroups]
      refine List.pairwise_cons.mpr ⟨?_, later⟩
      intro h mem equal
      obtain ⟨some, one⟩ := served_serverGroups items _ h mem
      obtain ⟨k, at_k⟩ := List.exists_mem_of_ne_nil h some
      have after : k ∈ (serverGroups items
          (rest.dropWhile fun j => (items j).server = (items i).server)).flatten :=
        List.mem_flatten_of_mem mem at_k
      rw [flatten_serverGroups] at after
      exact ne_of_dropWhile served sorted after ((one k at_k).trans equal.symm)

theorem grouped_serverGroups (served : ∀ i ∈ order, (items i).server ≠ none) (nodup : order.Nodup)
    (sorted : order.Pairwise fun i j => (items i).server.getD 0 ≤ (items j).server.getD 0) :
    Grouped items (serverGroups items order) where
  served := served_serverGroups items order
  apart := (apart_serverGroups served sorted).imp fun apart same => absurd same apart
  nodup := by
    rw [flatten_serverGroups]
    exact nodup

theorem Ordered.grouped {count : ℕ} (ordered : Ordered items count order) :
    Grouped items (serverGroups items order) := by
  refine grouped_serverGroups (fun i mem => ?_) ?_ ordered.sorted
  · exact of_decide_eq_true (List.mem_filter.mp (ordered.perm.mem_iff.mp mem)).2
  · exact ordered.perm.nodup_iff.mpr (List.nodup_range.filter _)

end MemCache

end BloomServer
