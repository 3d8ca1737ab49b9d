import BloomServer.MemCacheCalls

/-! `Combine` for deletions: its request is not started anew for the next server, which therefore
deletes, and answers for, the items of the servers before it as well. -/
namespace BloomServer
open DecimalText LabelledRun Receiving

namespace MemCache

/-- The line that deletes an item. -/
def deletion (item : MemRequest) : List UInt8 :=
  ascii "delete " ++ item.key ++ 32 :: printInt item.expiry ++
    (if item.result = .noReply then ascii " noreply" else []) ++ ascii "\r\n"

/-- A server's answer to one of them. -/
def deletionReply (deleted : Bool) : List UInt8 := if deleted then ascii "DELETED\r\n" else ascii "NOT_FOUND\r\n"

/-- The items of a group that are answered for. -/
def replying (items : Items) (group : List ℕ) : List ℕ := group.filter fun i => (items i).result ≠ .noReply

variable {items : Items} {sends : ℕ → Bool} {socks : Sockets} {fuel : ℕ}

theorem requestText_del (items : Items) (g : List ℕ) (before : List UInt8) :
    requestText items g before .del = before ++ g.flatMap fun i => deletion (items i) := rfl

/-- The request to a server goes on behind all that was requested from the ones before. -/
theorem mem_requests_del {before after : List (List ℕ)} {g : List ℕ} {p : ℕ} (served : serverOf items g = some p)
    (sent : sends p = true) (text : List UInt8) :
    (p, text ++ (before.flatten ++ g).flatMap fun i => deletion (items i)) ∈
      requests .del sends items text (before ++ g :: after) := by
  induction before generalizing text with
  | nil =>
      rw [List.nil_append, requests, served, Option.filter_some, if_pos sent, requestText_del]
      exact List.mem_cons_self
  | cons h before ih =>
      have later := ih (requestText items h text .del)
      rw [requestText_del, List.append_assoc, ← List.flatMap_append, ← List.append_assoc] at later
      rw [List.cons_append, requests, List.flatten_cons]
      cases (serverOf items h).filter sends with
      | none => exact later
      | some q => exact List.mem_cons_of_mem _ later

/-! ### The answers -/

theorem receiveLine_deletion {s : ServerSocket} {tail : List UInt8} {b : Bool} (calm : s.Calm)
    (bytes : s.bytes = deletionReply b ++ tail) : ∃ s' : ServerSocket,
      receiveLine s = (some (deletionReply b), s') ∧ s'.bytes = tail ∧ s'.Calm := by
  cases b with
  | true =>
      have line : s.bytes = ascii "DELETED\r" ++ 10 :: tail := bytes
      exact receiveLineFrom_calm calm line (by decide) []
  | false =>
      have line : s.bytes = ascii "NOT_FOUND\r" ++ 10 :: tail := bytes
      exact receiveLineFrom_calm calm line (by decide) []

theorem replying_congr {items' : Items} {g : List ℕ}
    (same : ∀ i ∈ g, (items' i).result = .noReply ↔ (items i).result = .noReply) :
    replying items' g = replying items g :=
  List.filter_congr fun i mem => decide_eq_decide.mpr (not_congr (same i mem))

/-- The items of a group take as many answers as are due to them, whoever they are for. -/
theorem handleDelResponse_calm {s : ServerSocket} {g : List ℕ} {answers : List Bool} {tail : List UInt8}
    (nodup : g.Nodup) (calm : s.Calm) (bytes : s.bytes = answers.flatMap deletionReply ++ tail)
    (due : answers.length = (replying items g).length) (nResponses : ℕ) : ∃ items' n, ∃ s' : ServerSocket,
      handleDelResponse g items nResponses s = (true, items', n, s') ∧ s'.bytes = tail ∧ s'.Calm ∧
      ∀ i ∉ g, items' i = items i := by
  induction g generalizing items s answers nResponses with
  | nil =>
      cases List.length_eq_zero_iff.mp due
      exact ⟨items, nResponses, s, rfl, bytes, calm, fun i _ => rfl⟩
  | cons i g ih =>
      obtain ⟨new, nodup⟩ := List.nodup_cons.mp nodup
      by_cases quiet : (items i).result = .noReply
      · rw [replying, List.filter_cons_of_neg (by simpa using quiet)] at due
        obtain ⟨items', n, s', run, left, calm', others⟩ := ih nodup calm bytes due nResponses
        refine ⟨items', n, s', ?_, left, calm', fun j mem => others j fun at_j => mem (List.mem_cons_of_mem _ at_j)⟩
        rw [handleDelResponse, if_pos quiet, run]
      · rw [replying, List.filter_cons_of_pos (by simpa using quiet), List.length_cons] at due
        rcases answers with _ | ⟨b, answers⟩
        · exact (nomatch due)
        rw [List.flatMap_cons, List.append_assoc] at bytes
        obtain ⟨s₁, read, left₁, calm₁⟩ := receiveLine_deletion calm bytes
        have step : handleDelResponse (i :: g) items nResponses s = handleDelResponse g
            (Function.update items i { items i with result := if b then .ok else .notFound }) (nResponses + 1) s₁ := by
          rw [handleDelResponse, if_neg quiet, read]
          dsimp only
          cases b with
          | true => exact if_pos rfl
          | false => exact (if_neg (by decide)).trans (if_pos rfl)
        have same : ∀ j ∈ g, Function.update items i { items i with result := if b then .ok else .notFound } j =
            items j := fun j mem => Function.update_of_ne (fun here => new (by rw [← here]; exact mem)) _ _
        have due' : answers.length = (replying (Function.update items i
            { items i with result := if b then .ok else .notFound }) g).length := by
          rw [@replying_congr items _ g fun j mem => by rw [same j mem]]
          exact Nat.succ.inj due
        obtain ⟨items', n, s', run, left, calm', others⟩ := ih nodup calm₁ left₁ due' (nResponses + 1)
        refine ⟨items', n, s', step.trans run, left, calm', fun j away => ?_⟩
        have other : j ≠ i := by
          rintro rfl
          exact away List.mem_cons_self
        rw [others j fun mem => away (List.mem_cons_of_mem _ mem), Function.update_of_ne other]

/-- Every server's answers to its group are taken from the front of what it has answered. -/
theorem receiveGroups_del {groups : List (List ℕ)} {tails : List ℕ → List UInt8} (grouped : Grouped items groups)
    (calm : ∀ p, (socks p).Calm)
    (answered : ∀ g ∈ groups, ∀ p, serverOf items g = some p → ∃ answers : List Bool,
      answers.length = (replying items g).length ∧ (socks p).bytes = answers.flatMap deletionReply ++ tails g)
    (nResponses : ℕ) : ∃ n items' socks',
      receiveGroups .del fuel items socks nResponses groups = some (n, items', socks') ∧
      (∀ p, (socks' p).Calm) ∧ (∀ g ∈ groups, ∀ p, serverOf items g = some p → (socks' p).bytes = tails g) ∧
      ∀ p, (∀ g ∈ groups, serverOf items g ≠ some p) → socks' p = socks p := by
  induction groups generalizing items socks nResponses with
  | nil => exact ⟨nResponses, items, socks, rfl, calm, fun g mem => absurd mem List.not_mem_nil, fun _ _ => rfl⟩
  | cons g groups ih =>
      have apart : ∀ i ∈ g, i ∉ groups.flatten := fun i mem other =>
        (List.nodup_append.mp grouped.nodup).2.2 i mem i other rfl
      rcases at_p : serverOf items g with _ | p
      · obtain ⟨n, items', socks', run, calm', read, kept⟩ := ih grouped.tail calm
          (fun h at_h => answered h (List.mem_cons_of_mem _ at_h)) nResponses
        refine ⟨n, items', socks', ?_, calm', ?_, fun p none => kept p fun h at_h => none h (List.mem_cons_of_mem _ at_h)⟩
        · rw [receiveGroups, at_p]
          exact run
        · intro h at_h p at_p'
          rcases List.mem_cons.mp at_h with rfl | at_h
          · cases at_p.symm.trans at_p'
          · exact read h at_h p at_p'
      · obtain ⟨answers, due, bytes⟩ := answered g List.mem_cons_self p at_p
        obtain ⟨items₁, n₁, s, got, left, calm₁, same⟩ := handleDelResponse_calm
          (List.nodup_append.mp grouped.nodup).1 (calm p) bytes due 0
        have others : ∀ h ∈ groups, ∀ i ∈ h, items₁ i = items i := fun h at_h i at_i =>
          same i fun mem => apart i mem (List.mem_flatten_of_mem at_h at_i)
        have servers : ∀ h ∈ groups, serverOf items₁ h = serverOf items h := fun h at_h =>
          serverOf_congr (others h at_h)
        have away : ∀ h ∈ groups, serverOf items h ≠ some p := by
          intro h at_h same
          have none := (List.pairwise_cons.mp grouped.apart).1 h at_h (at_p.trans same.symm)
          cases none.symm.trans at_p
        obtain ⟨n, items', socks', run, calm', read, kept⟩ := ih (grouped.tail.congr others) (calm_update calm calm₁)
          (fun h at_h q at_q => by
            rw [servers h at_h] at at_q
            rw [Function.update_of_ne fun same => away h at_h (at_q.trans (congrArg some same)),
              @replying_congr items _ h fun i at_i => by rw [others h at_h i at_i]]
            exact answered h (List.mem_cons_of_mem _ at_h) q at_q)
          (nResponses + n₁)
        refine ⟨n, items', socks', ?_, calm', ?_, ?_⟩
        · simp only [receiveGroups, at_p, handleResponse, got]
          exact run
        · intro h at_h q at_q
          rcases List.mem_cons.mp at_h with rfl | at_h
          · cases at_p.symm.trans at_q
            rw [kept p fun h at_h => servers h at_h ▸ away h at_h, Function.update_self, left]
          · exact read h at_h q ((servers h at_h).trans at_q)
        · intro q none
          rw [kept q fun h at_h => servers h at_h ▸ none h (List.mem_cons_of_mem _ at_h),
            Function.update_of_ne fun same => none g List.mem_cons_self (at_p.trans (congrArg some same.symm))]

/-! ### What is left on the connections -/

variable {c : Client} {connects : ℕ → Bool} {count : ℕ} {order : List ℕ}

theorem asked_quiet {item : MemRequest} (sent : item.server.any sends = true) :
    (asked .del sends item).result = .noReply ↔ item.result = .noReply := by
  rw [asked, if_pos sent, MemRequest.requested]
  split
  next => rfl
  next loud => exact ⟨by rintro ⟨⟩, fun quiet => absurd quiet loud⟩

theorem replies_ne_nil {answers : List Bool} (some : answers ≠ []) : answers.flatMap deletionReply ≠ [] := by
  obtain ⟨b, rest, rfl⟩ := List.exists_cons_of_ne_nil some
  rw [List.flatMap_cons]
  refine List.append_ne_nil_of_left_ne_nil ?_ _
  cases b <;> decide

/-- Behind an answer that is not its own, a reply to get is not understood. -/
theorem handleGetResponse_stale {s : ServerSocket} {answers : List Bool} (calm : s.Calm)
    (bytes : s.bytes = answers.flatMap deletionReply) (some : s.bytes ≠ []) (group : List ℕ) (fuel : ℕ)
    (items : Items) : ∃ s', handleGetResponse group (fuel + 1) items 0 s = .some (false, items, 0, s') := by
  rcases answers with _ | ⟨b, answers⟩
  · exact absurd bytes some
  · rw [List.flatMap_cons] at bytes
    obtain ⟨s', read, _, _⟩ := receiveLine_deletion calm bytes
    refine ⟨s', ?_⟩
    have stale : deletionReply b ≠ ascii "END\r\n" ∧ parseValue (deletionReply b) = none := by
      cases b <;> decide
    rw [handleGetResponse, handleValue, read]
    dsimp only
    rw [if_neg stale.1, stale.2]

theorem replying_append (items : Items) (first second : List ℕ) :
    replying items (first ++ second) = replying items first ++ replying items second := List.filter_append ..

/-- Sending and receiving for some groups: what a server has answered beyond its own group stays. -/
theorem sendReceive_del {groups : List (List ℕ)} (grouped : Grouped items groups)
    (served : ∀ g ∈ groups, serverOf items g ≠ none) (calm : ∀ p, (socks p).Calm) {answers : ℕ → List Bool}
    (replied : ∀ p, (socks p).bytes = (answers p).flatMap deletionReply)
    (enough : ∀ g ∈ groups, ∀ p, serverOf items g = some p → sends p = true →
      (replying items g).length ≤ (answers p).length) : ∃ socks₁ n items' socks₂,
      sendGroups .del (wholly sends) [] items socks groups =
        (onItems groups.flatten (asked .del sends) items, socks₁, requests .del sends items [] groups) ∧
      receiveGroups .del fuel (onItems groups.flatten (asked .del sends) items) socks₁ 0 groups =
        some (n, items', socks₂) ∧
      (∀ p, (socks₂ p).Calm) ∧ ∀ g ∈ groups, ∀ p, serverOf items g = some p → sends p = true →
        (socks₂ p).bytes = ((answers p).drop (replying items g).length).flatMap deletionReply := by
  obtain ⟨socks₁, sent, kept⟩ := @sendGroups_eq _ sends _ .del grouped served [] socks
  have items' : ∀ g ∈ groups, ∀ i ∈ g, onItems groups.flatten (asked .del sends) items i = asked .del sends (items i) :=
    fun g at_g i at_i => if_pos (List.mem_flatten_of_mem at_g at_i)
  obtain ⟨servers', grouped'⟩ := grouped.filter sends fun g at_g i at_i =>
    (congrArg MemRequest.server (items' g at_g i at_i)).trans (asked_same .del sends (items i)).1
  have due : ∀ g ∈ groups, ∀ p, (serverOf items g).filter sends = some p →
      replying (onItems groups.flatten (asked .del sends) items) g = replying items g := by
    intro g at_g p at_p
    obtain ⟨own, sends_p⟩ := Option.filter_eq_some_iff.mp at_p
    refine replying_congr fun i at_i => ?_
    rw [items' g at_g i at_i]
    refine asked_quiet ?_
    rw [(grouped.served g at_g).2 i at_i, own]
    exact sends_p
  obtain ⟨n, left, socks₂, received, calm', read, _⟩ := @receiveGroups_del _ socks₁ fuel groups
    (fun g => ((serverOf items g).elim [] answers |>.drop (replying items g).length).flatMap deletionReply)
    grouped'
    (fun p => by
      rcases kept p with same | ⟨_, cut⟩
      · exact same ▸ calm p
      · exact cut ▸ trivial)
    (fun g at_g p at_p => by
      rw [servers' g at_g] at at_p
      obtain ⟨own, sends_p⟩ := Option.filter_eq_some_iff.mp at_p
      refine ⟨(answers p).take (replying items g).length, ?_, ?_⟩
      · rw [due g at_g p at_p, List.length_take, Nat.min_eq_left (enough g at_g p own sends_p)]
      · rcases kept p with same | ⟨no, _⟩
        · rw [same, replied, own, Option.elim_some, ← List.flatMap_append, List.take_append_drop]
        · exact absurd sends_p (by rw [no]; decide)) 0
  refine ⟨socks₁, n, left, socks₂, sent, received, calm', fun g at_g p own sends_p => ?_⟩
  have at_p : (serverOf items g).filter sends = some p := Option.filter_eq_some_iff.mpr ⟨own, sends_p⟩
  rw [read g at_g p ((servers' g at_g).trans at_p), own]
  rfl

/-- An item that has a server is deleted as it was handed in. -/
theorem assigned_served {i : ℕ} (served : (assigned c connects count items i).server ≠ none) :
    (assigned c connects count items i).result = (items i).result ∧
      deletion (assigned c connects count items i) = deletion (items i) := by
  have result : (assigned c connects count items i).result = (items i).result := by
    rw [assigned] at served ⊢
    split at served
    next small =>
      rw [if_pos small]
      exact if_neg served
    next large => rw [if_neg large]
  have expiry : (assigned c connects count items i).expiry = (items i).expiry := by
    rw [assigned]
    split <;> rfl
  refine ⟨result, ?_⟩
  rw [deletion, deletion, assigned_key, result, expiry]

/-- When the requests are sent whole or not at all, and the servers answer every deletion that they are
sent, a call to delete returns; each server has been sent the deletions of all groups up to its own, and
what it has answered beyond its own group stays on its connection: exactly where no item of the groups
before is answered for is the connection ready for the next call, elsewhere a reply to get is not
understood. -/
theorem combined_deletes_pile_up (some : 0 < count) (few : count ≤ maxRequests)
    (ordered : Ordered (assigned c connects count items) count order) (calm : ∀ p, (socks p).Calm)
    {answers : ℕ → List Bool} (replied : ∀ p, (socks p).bytes = (answers p).flatMap deletionReply)
    (every : ∀ {before after : List (List ℕ)} {g : List ℕ} {p : ℕ},
      serverGroups (assigned c connects count items) order = before ++ g :: after →
      serverOf (assigned c connects count items) g = .some p → sends p = true →
        (answers p).length = (replying items (before.flatten ++ g)).length) :
    ∃ o, combine .del c connects (wholly sends) fuel items count order socks = .some o ∧
      ∀ {before after : List (List ℕ)} {g : List ℕ} {p : ℕ},
        serverGroups (assigned c connects count items) order = before ++ g :: after →
        serverOf (assigned c connects count items) g = .some p → sends p = true →
          (p, (before.flatten ++ g).flatMap fun i => deletion (items i)) ∈ o.sent ∧
          (o.socks p).bytes = ((answers p).drop (replying items g).length).flatMap deletionReply ∧
          ((o.socks p).bytes = [] ↔ ∀ i ∈ before.flatten, (items i).result = .noReply) ∧
          ∀ (group : List ℕ) (fuel : ℕ) (items' : Items), (o.socks p).bytes ≠ [] → ∃ s,
            handleGetResponse group (fuel + 1) items' 0 (o.socks p) = .some (false, items', 0, s) := by
  have grouped := ordered.grouped
  have same : ∀ {before after : List (List ℕ)} {g : List ℕ},
      serverGroups (assigned c connects count items) order = before ++ g :: after → ∀ i ∈ before.flatten ++ g,
        (assigned c connects count items i).result = (items i).result ∧
          deletion (assigned c connects count items i) = deletion (items i) := by
    intro before after g groups i mem
    refine assigned_served ((mem_groups ordered i).mp ?_).2
    rw [groups, List.flatten_append, List.flatten_cons, ← List.append_assoc]
    exact List.mem_append_left _ mem
  have due : ∀ {before after : List (List ℕ)} {g : List ℕ},
      serverGroups (assigned c connects count items) order = before ++ g :: after →
        replying (assigned c connects count items) g = replying items g ∧
        replying (assigned c connects count items) (before.flatten ++ g) = replying items (before.flatten ++ g) :=
    fun groups => ⟨replying_congr fun i mem => by rw [(same groups i (List.mem_append_right _ mem)).1],
      replying_congr fun i mem => by rw [(same groups i mem).1]⟩
  obtain ⟨socks₁, n, items', socks₂, sent, received, calm', left⟩ := sendReceive_del
    grouped ordered.served calm replied (fun g at_g p own sends_p => by
      obtain ⟨before, after, groups⟩ := List.append_of_mem at_g
      rw [every groups own sends_p, (due groups).1, replying_append, List.length_append]
      exact Nat.le_add_left _ _)
  have run : combine .del c connects (wholly sends) fuel items count order socks = .some ⟨n, items', socks₂,
      requests .del sends (assigned c connects count items) [] (serverGroups (assigned c connects count items) order)⟩ := by
    rw [combine, if_neg (by omega), if_neg (by omega)]
    dsimp only
    rw [sent]
    dsimp only
    rw [received]
    rfl
  refine ⟨_, run, fun {before after g p} groups own sends_p => ?_⟩
  have bytes := left g (groups ▸ List.mem_append_right _ List.mem_cons_self) p own sends_p
  rw [(due groups).1] at bytes
  refine ⟨?_, bytes, ?_, fun group fuel items' some => handleGetResponse_stale (calm' p) bytes some group fuel items'⟩
  · have mem := @mem_requests_del _ _ before after _ _ own sends_p []
    rw [List.nil_append, ← groups, List.flatMap_congr fun i mem => (same groups i mem).2] at mem
    exact mem
  · have length := every groups own sends_p
    rw [replying_append, List.length_append] at length
    dsimp only
    rw [bytes]
    constructor
    · intro none i mem
      by_contra loud
      have among : i ∈ replying items before.flatten := List.mem_filter.mpr ⟨mem, decide_eq_true loud⟩
      have positive := List.length_pos_of_mem among
      refine replies_ne_nil (List.ne_nil_of_length_pos ?_) none
      rw [List.length_drop]
      omega
    · intro quiet
      have none : replying items before.flatten = [] :=
        List.filter_eq_nil_iff.mpr fun i mem loud => of_decide_eq_true loud (quiet i mem)
      rw [none, List.length_nil, Nat.zero_add] at length
      rw [List.drop_of_length_le (Nat.le_of_eq length)]
      rfl

def firstServer : Server := ⟨1, ⟨(10, 0, 0, 1), 11211⟩⟩
def secondServer : Server := ⟨2, ⟨(10, 0, 0, 2), 11211⟩⟩

def twoServers : Client := ⟨[firstServer, secondServer],
  [⟨82485, 1⟩, ⟨82493, 2⟩, ⟨82763, 1⟩, ⟨82771, 2⟩, ⟨82778, 1⟩, ⟨82786, 2⟩, ⟨83263, 1⟩, ⟨83271, 2⟩,
    ⟨84069, 1⟩, ⟨84077, 2⟩, ⟨84455, 1⟩, ⟨84463, 2⟩, ⟨84774, 1⟩, ⟨84782, 2⟩]⟩

/-- Adding two servers makes this ring. -/
theorem twoServers_run : Run RingStep Client.empty
    [.add (some secondServer.endpoint) true, .add (some firstServer.endpoint) true] twoServers := by
  have first := Client.empty.addServer_step (s := firstServer) (by decide) (by decide)
  have perm : twoServers.ring.Perm (firstServer.points ++ secondServer.points) := by decide +kernel
  refine (Run.single first).snoc (.added (by decide) (by decide) ?_ ?_)
  · change List.Pairwise _ twoServers.ring
    decide
  · exact perm.trans (List.Perm.append_right _ (HashRing.sort_perm _).symm)

/-- The key of the second record goes to the second server. -/
def secondKey : List UInt8 := ascii "ccccvvvvvvvvvvvvvvvvvvvvvvvvvvvvvvvvv"

def twoRecords : Items := fun i => ⟨none, if i = 0 then ascii "a" else secondKey, 0, 0, 0, .ok, .empty⟩

/-- The second server has not got the first record, and has got its own. -/
def twoAnswers : ℕ → List Bool
  | 1 => [true]
  | 2 => [false, true]
  | _ => []

theorem twoRecords_groups :
    serverGroups (assigned twoServers (fun _ => true) 2 twoRecords) [0, 1] = [[0], [1]] := by
  have first : (assigned twoServers (fun _ => true) 2 twoRecords 0).server = some 1 := by decide +kernel
  have second : (assigned twoServers (fun _ => true) 2 twoRecords 1).server = some 2 := by decide +kernel
  simp [serverGroups, first, second]

def twoSockets : Sockets := fun p =>
  ⟨[], if twoAnswers p = [] then [] else [.again, .bytes ((twoAnswers p).flatMap deletionReply)]⟩

theorem combined_deletes_pile_up_two : (∃ T, Run RingStep Client.empty T twoServers) ∧ ∃ o, combine .del twoServers (fun _ => true) (wholly fun _ => true) 0
    twoRecords 2 [0, 1] twoSockets = some o ∧ (o.socks 1).bytes = [] ∧ (o.socks 2).bytes = ascii "DELETED\r\n" ∧
      (2, ascii "delete a 0\r\ndelete " ++ secondKey ++ ascii " 0\r\n") ∈ o.sent := by
  have calm : ∀ p, (twoSockets p).Calm := by
    intro p
    rw [ServerSocket.Calm, twoSockets]
    dsimp only
    split
    next => exact trivial
    next some => exact ⟨replies_ne_nil some, trivial⟩
  have replied : ∀ p, (twoSockets p).bytes = (twoAnswers p).flatMap deletionReply := by
    intro p
    rw [Reader.bytes, twoSockets]
    dsimp only
    split
    next none =>
      rw [none]
      rfl
    next => exact List.append_nil _
  have ordered : Ordered (assigned twoServers (fun _ => true) 2 twoRecords) 2 [0, 1] :=
    ⟨by decide +kernel, by decide +kernel⟩
  have owners : serverOf (assigned twoServers (fun _ => true) 2 twoRecords) [0] = some 1 ∧
      serverOf (assigned twoServers (fun _ => true) 2 twoRecords) [1] = some 2 := by decide +kernel
  obtain ⟨o, run, each⟩ := @combined_deletes_pile_up _ (fun _ => true) _ 0 _ _ _ _ (by decide) (by decide)
    ordered calm _ replied (by
      intro before after g p groups own _
      rw [twoRecords_groups] at groups
      rcases before with _ | ⟨first, _ | ⟨second, rest⟩⟩
      · cases groups
        cases owners.1.symm.trans own
        rfl
      · cases groups
        cases owners.2.symm.trans own
        rfl
      · have length := congrArg List.length groups
        simp only [List.length_append, List.length_cons, List.length_nil] at length
        omega)
  have one := @each [] [[1]] _ _ twoRecords_groups owners.1 rfl
  have two := @each [[0]] [] _ _ twoRecords_groups owners.2 rfl
  refine ⟨⟨_, twoServers_run⟩, o, run, ?_, ?_, ?_⟩
  · rw [one.2.1]
    rfl
  · rw [two.2.1]
    decide
  · exact two.1

end MemCache

end BloomServer
