import BloomServer.MemCacheClient

/-! What the calls of `MemCacheClient` leave in the items and on the connections, when the servers
answer every request. -/
namespace BloomServer
open DecimalText Receiving

namespace MemCache

/-- What a server holds under its keys: flags and data. -/
abbrev Cache := List UInt8 → Option (ℕ × List UInt8)

/-- Everything in a cache can be told in a reply. -/
def Cache.Valid (cache : Cache) : Prop := ∀ key v, cache key = some v → Value.Valid ⟨key, v.1, v.2⟩

/-- The reply to a request for some keys. -/
def getReply (cache : Cache) (keys : List (List UInt8)) : List UInt8 :=
  keys.flatMap (fun key => (cache key).elim [] fun v => Value.text ⟨key, v.1, v.2⟩) ++ ascii "END\r\n"

/-- An item with its value. -/
def MemRequest.found (item : MemRequest) (v : ℕ × List UInt8) : MemRequest :=
  { item with flags := v.1, result := .ok, data := item.data.write v.2 }

/-- An item with the value that a cache has for it, if it has one. -/
def answered (cache : Cache) (item : MemRequest) : MemRequest := (cache item.key).elim item item.found

theorem onItems_cons {i : ℕ} {among : List ℕ} (new : i ∉ among) (f : MemRequest → MemRequest) (items : Items) :
    onItems (i :: among) f items = onItems among f (Function.update items i (f (items i))) := by
  funext j
  by_cases same : j = i
  · subst same
    rw [onItems, if_pos List.mem_cons_self, onItems, if_neg new, Function.update_self]
  · rw [onItems, onItems, Function.update_of_ne same]
    exact if_congr (by rw [List.mem_cons, or_iff_right same]) rfl rfl

theorem onItems_nil (f : MemRequest → MemRequest) (items : Items) : onItems [] f items = items :=
  funext fun _ => if_neg List.not_mem_nil

variable {s : ServerSocket} {items : Items} {group : List ℕ} {cache : Cache} {tail : List UInt8}

theorem handleItem_calm {key data : List UInt8} {flags : ℕ} (calm : s.Calm)
    (bytes : s.bytes = data ++ 13 :: 10 :: tail) (i : ℕ) (items : Items) :
    ∃ s' : ServerSocket, handleItem ⟨key, flags, data.length, [13, 10]⟩ i items s =
      (true, Function.update items i ((items i).found (flags, data)), s') ∧ s'.bytes = tail ∧ s'.Calm := by
  obtain ⟨s₁, got, left₁, calm₁⟩ := receiveData_calm calm bytes []
  obtain ⟨s₂, cr, left₂, calm₂⟩ := getByte_calm calm₁ left₁
  obtain ⟨s₃, lf, left₃, calm₃⟩ := getByte_calm calm₂ left₂
  refine ⟨s₃, ?_, left₃, calm₃⟩
  have single : ([13, 10] : List UInt8).head? ≠ some 32 := by decide
  rw [List.nil_append] at got
  rw [handleItem]
  simp only [got, cr, lf, single, false_and, if_false, Bool.true_eq_false]
  rfl

/-- The items of a group are told apart by their keys. -/
def DistinctKeys (items : Items) (group : List ℕ) : Prop :=
  ∀ i ∈ group, ∀ j ∈ group, (items i).key = (items j).key → i = j

theorem find_key (distinct : DistinctKeys items group) {i : ℕ} (mem : i ∈ group) :
    group.find? (fun j => (items j).key = (items i).key) = some i := by
  rcases found : group.find? (fun j => decide ((items j).key = (items i).key)) with _ | j
  · exact absurd (List.find?_eq_none.mp found i mem) (by simp)
  · have same := List.find?_some found
    rw [distinct j (List.mem_of_find?_eq_some found) i mem (of_decide_eq_true same)]

theorem handleValue_end (calm : s.Calm) (bytes : s.bytes = ascii "END\r\n" ++ tail) (group : List ℕ)
    (items : Items) (nFound : ℕ) : ∃ s' : ServerSocket,
      handleValue group items nFound s = (some true, items, nFound, s') ∧ s'.bytes = tail ∧ s'.Calm := by
  have line : s.bytes = ascii "END\r" ++ 10 :: tail := bytes
  obtain ⟨s', read, left, calm'⟩ := receiveLineFrom_calm calm line (by decide) []
  refine ⟨s', ?_, left, calm'⟩
  rw [handleValue, receiveLine, read]
  exact if_pos rfl

theorem handleValue_calm {i : ℕ} {v : ℕ × List UInt8} (ok : Value.Valid ⟨(items i).key, v.1, v.2⟩)
    (distinct : DistinctKeys items group) (mem : i ∈ group) (calm : s.Calm)
    (bytes : s.bytes = Value.text ⟨(items i).key, v.1, v.2⟩ ++ tail) (nFound : ℕ) :
    ∃ s' : ServerSocket, handleValue group items nFound s =
      (none, Function.update items i ((items i).found v), nFound + 1, s') ∧ s'.bytes = tail ∧ s'.Calm := by
  have front : s.bytes = Value.line ⟨(items i).key, v.1, v.2⟩ ++ 10 :: (v.2 ++ 13 :: 10 :: tail) := by
    rw [bytes, Value.text]
    simp only [List.append_assoc, List.cons_append, List.nil_append]
  obtain ⟨s₁, read, left₁, calm₁⟩ := receiveLineFrom_calm calm front (Value.not_mem_line ok) []
  obtain ⟨s₂, item, left₂, calm₂⟩ :=
    @handleItem_calm _ _ (items i).key v.2 v.1 calm₁ left₁ i items
  refine ⟨s₂, ?_, left₂, calm₂⟩
  rw [handleValue, receiveLine, read]
  simp only [List.nil_append]
  rw [if_neg (Value.line_ne_end _), Value.parseValue_line ok]
  simp only [find_key distinct mem, item]

/-- A reply gives every item of the group that the server has a value for this value. -/
theorem handleGetResponse_calm {todo : List ℕ} {fuel : ℕ} (valid : cache.Valid)
    (distinct : DistinctKeys items group) (within : ∀ i ∈ todo, i ∈ group) (nodup : todo.Nodup)
    (calm : s.Calm) (bytes : s.bytes = getReply cache (todo.map fun i => (items i).key) ++ tail)
    (enough : todo.length < fuel) (nFound : ℕ) : ∃ n, ∃ s' : ServerSocket,
      handleGetResponse group fuel items nFound s =
        some (true, onItems todo (answered cache) items, n, s') ∧ s'.bytes = tail ∧ s'.Calm := by
  induction todo generalizing items s fuel nFound with
  | nil =>
      obtain ⟨fuel, rfl⟩ := Nat.exists_eq_succ_of_ne_zero (Nat.ne_of_gt enough)
      obtain ⟨s', run, left, calm'⟩ := handleValue_end calm bytes group items nFound
      refine ⟨nFound, s', ?_, left, calm'⟩
      rw [handleGetResponse, run, onItems_nil]
  | cons i todo ih =>
      obtain ⟨new, nodup⟩ := List.nodup_cons.mp nodup
      have within' := fun j mem => within j (List.mem_cons_of_mem _ mem)
      rw [List.map_cons, getReply, List.flatMap_cons] at bytes
      rcases held : cache (items i).key with _ | v
      · rw [held, Option.elim_none, List.nil_append] at bytes
        obtain ⟨n, s', run, left, calm'⟩ :=
          ih distinct within' nodup calm bytes (Nat.lt_of_succ_lt enough) nFound
        refine ⟨n, s', ?_, left, calm'⟩
        have kept : answered cache (items i) = items i := by
          rw [answered, held]
          rfl
        rw [run, onItems_cons new, kept, Function.update_eq_self]
      · obtain ⟨fuel, rfl⟩ := Nat.exists_eq_succ_of_ne_zero (Nat.ne_of_gt (Nat.zero_lt_of_lt enough))
        rw [held, Option.elim_some, List.append_assoc, List.append_assoc, ← List.append_assoc _ _ tail] at bytes
        obtain ⟨s₁, value, left₁, calm₁⟩ :=
          handleValue_calm (valid _ _ held) distinct (within i List.mem_cons_self) calm bytes nFound
        have same : ∀ j, (Function.update items i ((items i).found v) j).key = (items j).key := by
          intro j
          by_cases here : j = i
          · rw [here, Function.update_self]
            rfl
          · rw [Function.update_of_ne here]
        have keys : (todo.map fun j => (Function.update items i ((items i).found v) j).key) =
            todo.map fun j => (items j).key := List.map_congr_left fun j _ => same j
        have distinct' : DistinctKeys (Function.update items i ((items i).found v)) group := by
          intro j at_j k at_k equal
          rw [same, same] at equal
          exact distinct j at_j k at_k equal
        obtain ⟨n, s', run, left, calm'⟩ := ih distinct' within' nodup calm₁
          (by rw [left₁, keys]; rfl) (Nat.lt_of_succ_lt_succ enough) (nFound + 1)
        refine ⟨n, s', ?_, left, calm'⟩
        rw [handleGetResponse, value]
        simp only
        rw [run, onItems_cons new, answered, held]
        rfl

end MemCache

end BloomServer
