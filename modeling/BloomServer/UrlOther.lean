import BloomServer.UrlNode
import BloomServer.Library.CallSequence

/-! The auxiliary data of a `UrlNode`: the array `other`, whose size is kept in `maxtype`. What
follows a pointer that leads nowhere, or frees one that was never set, is undefined. -/
namespace BloomServer
open ByteCodec CallSequence

theorem take_ne_nil {c : UInt8} {rest : CString} {len : Int32} (positive : 0 < len.toInt) :
    (c :: rest).take len.toInt.toNat ≠ [] := by
  have some : len.toInt.toNat ≠ 0 := by omega
  intro none
  rcases List.take_eq_nil_iff.mp none with zero | empty
  · exact some zero
  · exact List.cons_ne_nil c rest empty

/-- The largest `int`. -/
def intMax : Int := 2 ^ 31 - 1

/-- An `Other` in the array; `data` is `none` where the constructor has left the pointer unset. A
block of `len + 1` bytes has been allocated where it is set. -/
structure Other where
  len : Int32
  positive : 0 < len.toInt
  data : Option { text : CString // text ≠ [] }
  room : data.isSome → len.toInt < intMax

/-- `_Other(int len, char *data)`: up to `len` bytes of a text are copied, unless it is empty.
`len + 1` is an `int`, so that there is no block for the largest one. -/
def Other.new (len : Int32) (positive : 0 < len.toInt) : CString → Option Other
  | [] => some ⟨len, positive, none, fun set => absurd set Bool.false_ne_true⟩
  | c :: rest =>
      if room : len.toInt < intMax then
        some ⟨len, positive, some ⟨(c :: rest).take len.toInt.toNat, take_ne_nil positive⟩,
          fun _ => room⟩
      else none

/-- An element of the array: a pointer never set, a null pointer, or an `Other`. -/
inductive Slot
  | unset
  | null
  | other (o : Other)

/-- The destructor may look at the slot, and delete what it holds. -/
def Slot.deletable : Slot → Bool
  | .unset => false
  | .null => true
  | .other o => o.data.isSome

/-- `copyother` passes over the slot. -/
def Slot.isNull : Slot → Bool
  | .null => true
  | .unset | .other _ => false

/-- A `UrlNode`: the members that are serialized, `maxtype` among them, and the array. -/
structure OtherNode where
  u : UrlNode
  other : Option (List Slot)

namespace OtherNode

/-- The constructor without arguments. `u` has what the other members hold. -/
def new (u : UrlNode) : OtherNode := ⟨{ u with maxtype := -1 }, none⟩

/-- `malloc` and `memset` for `type + 1` slots. -/
def allocate (type : Int32) : Option (List Slot) :=
  if 0 ≤ type.toInt ∧ type.toInt < intMax then
    some (List.replicate (type.toInt.toNat + 1) .null)
  else none

/-- `realloc` to `type + 1` slots, and the loop that clears those from `maxtype + 1` on. -/
def reallocate (slots : List Slot) (maxtype type : Int32) : Option (List Slot) :=
  if -1 ≤ maxtype.toInt ∧ type.toInt < intMax then
    some ((List.range (type.toInt.toNat + 1)).map fun (i : Nat) =>
      if maxtype.toInt < (i : Int) then .null else slots[i]?.getD .unset)
  else none

/-- `other[type] = new Other(len, data)`, after the deletion of an `Other` that is there. -/
def replace (slots : List Slot) (type : Int32) (o : Other) : Option (List Slot) :=
  if 0 ≤ type.toInt then
    match slots[type.toInt.toNat]? with
    | none => none
    | some slot =>
        if slot.deletable then some (slots.set type.toInt.toNat (.other o)) else none
  else none

def insertother (type : Int32) (data : Option CString) (len : Int32) (nd : OtherNode) :
    Option OtherNode :=
  match data with
  | none => some nd
  | some text =>
      if positive : 0 < len.toInt then
        if type.toInt ≤ nd.u.maxtype.toInt then
          match nd.other with
          | some slots => do
              let o ← Other.new len positive text
              let slots ← replace slots type o
              return { nd with other := some slots }
          | none => do
              let slots ← allocate type
              let o ← Other.new len positive text
              let slots ← replace slots type o
              return { nd with other := some slots }
        else
          match nd.other with
          | some slots => do
              let slots ← reallocate slots nd.u.maxtype type
              let o ← Other.new len positive text
              let slots ← replace slots type o
              return ⟨{ nd.u with maxtype := type }, some slots⟩
          | none => do
              let slots ← allocate type
              let o ← Other.new len positive text
              let slots ← replace slots type o
              return ⟨{ nd.u with maxtype := type }, some slots⟩
      else some nd

/-- One round of the loop of `copyother`. -/
def copySlot (src : Option (List Slot)) (nd : OtherNode) (i : Nat) : Option OtherNode :=
  match src.bind fun slots => slots[i]? with
  | none => none
  | some .unset => none
  | some .null => some nd
  | some (.other o) =>
      match o.data with
      | none => none
      | some text => nd.insertother (Int32.ofNat i) (some text.1) o.len

/-- `copyother` from the array of another node. -/
def copyother (src : Option (List Slot)) (srcmax : Int32) (nd : OtherNode) : Option OtherNode :=
  (List.range (srcmax.toInt + 1).toNat).foldlM (copySlot src) nd

/-- The constructor that is given the array of another node. -/
def newFrom (u : UrlNode) (src : OtherNode) : Option OtherNode :=
  match src.other with
  | none => some (new u)
  | some slots => (new u).copyother (some slots) src.u.maxtype

/-- `getothervalue`; the inner `none` is `NULL`. -/
def getothervalue (type : Int32) (nd : OtherNode) : Option (Option CString) :=
  if type.toInt ≤ nd.u.maxtype.toInt then
    match nd.other with
    | none => some none
    | some slots =>
        if 0 ≤ type.toInt then
          match slots[type.toInt.toNat]? with
          | none => none
          | some .unset => none
          | some .null => some none
          | some (.other o) =>
              match o.data with
              | none => none
              | some text => some (some text.1)
        else none
  else some none

/-- One round of the loop of the destructor: the slot is there, and its content can be deleted. -/
def deletableAt (nd : OtherNode) (i : Nat) : Bool :=
  match nd.other.bind fun slots => slots[i]? with
  | none => false
  | some slot => slot.deletable

/-- The destructor. -/
def destroy (nd : OtherNode) : Option Unit :=
  if (List.range (nd.u.maxtype.toInt + 1).toNat).all nd.deletableAt then some () else none

/-- `unserialize`: the members of the record, `maxtype` among them. The array stays as it is. -/
def unserialize (nd : OtherNode) (bytes : List UInt8) : Option OtherNode := do
  let (u, _) ← nd.u.unserialize bytes
  return { nd with u := u }

/-- There is no array and `maxtype` is -1, or the array has `maxtype + 1` slots, and what they hold
has its data. -/
def WellFormed (nd : OtherNode) : Prop :=
  (nd.other = none ∧ nd.u.maxtype = -1) ∨
  ∃ slots, nd.other = some slots ∧ (slots.length : Int) = nd.u.maxtype.toInt + 1 ∧
    ∀ slot ∈ slots, slot.deletable

end OtherNode

/-! ### The nodes of the crawler -/

/-- The nodes in the order of their construction, `none` once destroyed, and the records that have
been written. -/
structure OtherState where
  nodes : List (Option OtherNode)
  saved : List (List UInt8)

inductive OtherCall
  | create (u : UrlNode)
  | createFrom (u : UrlNode) (src : Nat)
  | insertother (node : Nat) (type : Int32) (data : Option CString) (len : Int32)
  | copyother (node src : Nat)
  | getothervalue (node : Nat) (type : Int32)
  | serialize (node : Nat)
  | unserialize (node record : Nat)
  | reload (u : UrlNode) (record : Nat)
  | destroy (node : Nat)

namespace OtherState

/-- A node that has been constructed and not been destroyed. -/
def node (s : OtherState) (i : Nat) : Option OtherNode := (s.nodes[i]?).join

def push (s : OtherState) (nd : OtherNode) : OtherState := { s with nodes := s.nodes ++ [some nd] }

def write (s : OtherState) (i : Nat) (nd : Option OtherNode) : OtherState :=
  { s with nodes := s.nodes.set i nd }

/-- One call; a call on a node or a record that is not there does not occur. A node copied onto
itself deletes each text before it copies it. -/
def exec (s : OtherState) : OtherCall → Option OtherState
  | .create u => some (s.push (.new u))
  | .createFrom u src =>
      match s.node src with
      | none => some s
      | some from_ => do
          let nd ← OtherNode.newFrom u from_
          return s.push nd
  | .insertother i type data len =>
      match s.node i with
      | none => some s
      | some nd => do
          let nd ← nd.insertother type data len
          return s.write i (some nd)
  | .copyother i src =>
      match s.node i, s.node src with
      | some nd, some from_ =>
          if i = src then
            if (nd.other.getD []).all Slot.isNull then some s else none
          else do
            let nd ← nd.copyother from_.other from_.u.maxtype
            return s.write i (some nd)
      | _, _ => some s
  | .getothervalue i type =>
      match s.node i with
      | none => some s
      | some nd => do
          let _ ← nd.getothervalue type
          return s
  | .serialize i =>
      match s.node i with
      | none => some s
      | some nd => some { s with saved := s.saved ++ [(nd.u.serialize []).2] }
  | .unserialize i record =>
      match s.node i, s.saved[record]? with
      | some nd, some bytes => do
          let nd ← nd.unserialize bytes
          return s.write i (some nd)
      | _, _ => some s
  | .reload u record =>
      match s.saved[record]? with
      | none => some s
      | some bytes => do
          -- `get_unfetched_urls` reads the record into a new node
          let nd ← (OtherNode.new u).unserialize bytes
          -- `urlnode->other = NULL`
          return s.push { nd with other := none }
  | .destroy i =>
      match s.node i with
      | none => some s
      | some nd => do
          nd.destroy
          return s.write i none

end OtherState

/-! ### What one call does to one node -/

namespace OtherNode

variable {nd : OtherNode} {slots : List Slot} {type len : Int32} {positive : 0 < len.toInt}
  {text : CString} {o : Other}

theorem new_data_isSome (new : Other.new len positive text = some o) :
    o.data.isSome ↔ text ≠ [] := by
  cases text with
  | nil =>
      cases new
      exact iff_of_false Bool.false_ne_true fun differ => differ rfl
  | cons c rest =>
      rw [Other.new] at new
      split_ifs at new
      cases new
      exact iff_of_true rfl (List.cons_ne_nil c rest)

theorem new_len (new : Other.new len positive text = some o) : o.len = len := by
  cases text with
  | nil =>
      cases new
      rfl
  | cons c rest =>
      rw [Other.new] at new
      split_ifs at new
      cases new
      rfl

/-- The constructor has no block only for a text and the largest length. -/
theorem new_eq_none_iff :
    Other.new len positive text = none ↔ text ≠ [] ∧ ¬ len.toInt < intMax := by
  cases text with
  | nil => exact iff_of_false nofun fun both => both.1 rfl
  | cons c rest =>
      rw [Other.new]
      split_ifs with room
      · exact iff_of_false nofun fun both => both.2 room
      · exact iff_of_true rfl ⟨List.cons_ne_nil c rest, room⟩

/-- A node that is well formed, and whose array is not larger than an `int` can say. -/
structure Good (nd : OtherNode) : Prop where
  wellFormed : nd.WellFormed
  bound : nd.u.maxtype.toInt < intMax

theorem good_new (u : UrlNode) : (new u).Good :=
  ⟨Or.inl ⟨rfl, rfl⟩, (by decide : (-1 : Int32).toInt < intMax)⟩

/-- The new `Other` is in the array, among slots that are as they should be. -/
structure Filled (o : Other) (nd : OtherNode) : Prop where
  slots : ∃ slots, nd.other = some slots ∧ (slots.length : Int) = nd.u.maxtype.toInt + 1 ∧
    Slot.other o ∈ slots ∧ ∀ slot ∈ slots, slot = .other o ∨ slot.deletable
  bound : nd.u.maxtype.toInt < intMax

theorem Filled.wellFormed_iff (filled : Filled o nd) : nd.WellFormed ↔ o.data.isSome := by
  obtain ⟨slots, array, length, mem, others⟩ := filled.slots
  constructor
  · rintro (⟨none, -⟩ | ⟨slots', array', -, all⟩)
    · cases array.symm.trans none
    · obtain rfl := Option.some.inj (array.symm.trans array')
      exact all _ mem
  · intro set
    refine Or.inr ⟨slots, array, length, fun slot here => ?_⟩
    rcases others slot here with rfl | fine
    · exact set
    · exact fine

theorem replace_eq_some (low : 0 ≤ type.toInt) (inside : type.toInt.toNat < slots.length)
    (all : ∀ slot ∈ slots, slot.deletable) (o : Other) :
    ∃ slots', replace slots type o = some slots' ∧ slots'.length = slots.length ∧
      Slot.other o ∈ slots' ∧ ∀ slot ∈ slots', slot = .other o ∨ slot.deletable := by
  refine ⟨slots.set type.toInt.toNat (.other o), ?_, List.length_set, List.mem_set inside _, ?_⟩
  · have fine := all _ (List.getElem_mem inside)
    simp only [replace, if_pos low, List.getElem?_eq_getElem inside, if_pos fine]
  · intro slot mem
    exact (List.mem_or_eq_of_mem_set mem).symm.imp id (all slot)

theorem allocate_eq_some (low : 0 ≤ type.toInt) (high : type.toInt < intMax) :
    ∃ slots, allocate type = some slots ∧ slots.length = type.toInt.toNat + 1 ∧
      ∀ slot ∈ slots, slot.deletable := by
  refine ⟨_, if_pos ⟨low, high⟩, List.length_replicate, fun slot mem => ?_⟩
  rw [List.eq_of_mem_replicate mem]
  rfl

theorem reallocate_eq_some {maxtype : Int32} (length : (slots.length : Int) = maxtype.toInt + 1)
    (all : ∀ slot ∈ slots, slot.deletable) (high : type.toInt < intMax) :
    ∃ slots', reallocate slots maxtype type = some slots' ∧
      slots'.length = type.toInt.toNat + 1 ∧ ∀ slot ∈ slots', slot.deletable := by
  refine ⟨_, if_pos ⟨by omega, high⟩, by rw [List.length_map, List.length_range], ?_⟩
  intro slot mem
  obtain ⟨i, -, rfl⟩ := List.mem_map.mp mem
  split_ifs with beyond
  · rfl
  · have inside : i < slots.length := by omega
    rw [List.getElem?_eq_getElem inside, Option.getD_some]
    exact all _ (List.getElem_mem inside)

/-- A type that is no index is never stored. -/
theorem insertother_eq_none (good : nd.Good) (positive : 0 < len.toInt)
    (wrong : ¬ (0 ≤ type.toInt ∧ type.toInt < intMax)) :
    nd.insertother type (some text) len = none := by
  have fails : allocate type = none := if_neg wrong
  simp only [insertother, dif_pos positive]
  rcases good.wellFormed with ⟨array, empty⟩ | ⟨slots, array, length, -⟩
  · simp only [array, fails]
    split_ifs <;> rfl
  · simp only [array]
    split_ifs with old
    · have low : ¬ 0 ≤ type.toInt := fun low => wrong ⟨low, old.trans_lt good.bound⟩
      simp only [replace, if_neg low]
      cases Other.new len positive text <;> rfl
    · have high : ¬ type.toInt < intMax := fun high => wrong ⟨by omega, high⟩
      have stuck : reallocate slots nd.u.maxtype type = none := if_neg fun both => high both.2
      rw [stuck]
      rfl

/-- Without a block for the text nothing is stored. -/
theorem insertother_no_block (positive : 0 < len.toInt)
    (none : Other.new len positive text = none) :
    nd.insertother type (some text) len = Option.none := by
  simp only [insertother, dif_pos positive, none]
  cases array : nd.other with
  | none =>
      cases allocate type <;> exact ite_self Option.none
  | some slots =>
      cases grown : reallocate slots nd.u.maxtype type <;> simp only [grown] <;>
        exact ite_self Option.none

theorem insertother_filled (good : nd.Good) (low : 0 ≤ type.toInt) (high : type.toInt < intMax)
    (new : Other.new len positive text = some o) :
    ∃ nd', nd.insertother type (some text) len = some nd' ∧ Filled o nd' := by
  simp only [insertother, dif_pos positive, new]
  rcases good.wellFormed with ⟨array, empty⟩ | ⟨slots, array, length, all⟩
  · have beyond : ¬ type.toInt ≤ nd.u.maxtype.toInt := by
      rw [empty]
      change ¬ type.toInt ≤ -1
      omega
    obtain ⟨slots, alloc, size, fine⟩ := allocate_eq_some low high
    obtain ⟨slots', put, same, mem, others⟩ := replace_eq_some low (by omega) fine o
    simp only [array, if_neg beyond, alloc]
    refine ⟨⟨{ nd.u with maxtype := type }, some slots'⟩, ?_, ⟨slots', rfl, ?_, mem, others⟩, high⟩
    · change (replace slots type _ >>= _) = _
      rw [put]
      rfl
    · change (slots'.length : Int) = type.toInt + 1
      omega
  · by_cases old : type.toInt ≤ nd.u.maxtype.toInt
    · obtain ⟨slots', put, same, mem, others⟩ := replace_eq_some low (by omega) all o
      simp only [array, if_pos old]
      refine ⟨{ nd with other := some slots' }, ?_, ⟨slots', rfl, ?_, mem, others⟩, good.bound⟩
      · change (replace slots type _ >>= _) = _
        rw [put]
        rfl
      · change (slots'.length : Int) = nd.u.maxtype.toInt + 1
        omega
    · obtain ⟨slots₁, grow, size, fine⟩ := reallocate_eq_some length all high
      obtain ⟨slots', put, same, mem, others⟩ := replace_eq_some low (by omega) fine o
      simp only [array, if_neg old, grow]
      refine ⟨⟨{ nd.u with maxtype := type }, some slots'⟩, ?_, ⟨slots', rfl, ?_, mem, others⟩, high⟩
      · change (replace slots₁ type _ >>= _) = _
        rw [put]
        rfl
      · change (slots'.length : Int) = type.toInt + 1
        omega

theorem insertother_null (nd : OtherNode) (type len : Int32) :
    nd.insertother type none len = some nd := rfl

theorem insertother_empty (nd : OtherNode) (type : Int32) (data : Option CString)
    (none : ¬ 0 < len.toInt) : nd.insertother type data len = some nd := by
  cases data with
  | none => rfl
  | some text => simp only [insertother, dif_neg none]

/-- Inserting a text keeps a node well formed exactly if the type is an index, the text is not
empty, and its length leaves room for the NUL. -/
theorem insertother_good_iff (good : nd.Good) (positive : 0 < len.toInt) :
    (∃ nd', nd.insertother type (some text) len = some nd' ∧ nd'.WellFormed) ↔
      0 ≤ type.toInt ∧ type.toInt < intMax ∧ text ≠ [] ∧ len.toInt < intMax := by
  by_cases index : 0 ≤ type.toInt ∧ type.toInt < intMax
  · cases new : Other.new len positive text with
    | none =>
        rw [insertother_no_block positive new]
        refine iff_of_false ?_ fun meets => (new_eq_none_iff.mp new).2 meets.2.2.2
        rintro ⟨nd', run, -⟩
        cases run
    | some o =>
        obtain ⟨nd', run, filled⟩ := insertother_filled good index.1 index.2 new
        rw [run]
        constructor
        · rintro ⟨nd'', same, wellFormed⟩
          obtain rfl := Option.some.inj same
          have set := filled.wellFormed_iff.mp wellFormed
          exact ⟨index.1, index.2, (new_data_isSome new).mp set, new_len new ▸ o.room set⟩
        · rintro ⟨-, -, nonempty, -⟩
          exact ⟨nd', rfl, filled.wellFormed_iff.mpr ((new_data_isSome new).mpr nonempty)⟩
  · rw [insertother_eq_none good positive index]
    constructor
    · rintro ⟨nd', run, -⟩
      cases run
    · rintro ⟨low, high, -⟩
      exact absurd ⟨low, high⟩ index

/-- Whatever is inserted, `maxtype` stays below the largest `int`. -/
theorem insertother_bound (good : nd.Good) {data : Option CString} {nd' : OtherNode}
    (run : nd.insertother type data len = some nd') : nd'.u.maxtype.toInt < intMax := by
  cases data with
  | none => cases run; exact good.bound
  | some text =>
      by_cases positive : 0 < len.toInt
      · by_cases index : 0 ≤ type.toInt ∧ type.toInt < intMax
        · cases new : Other.new len positive text with
          | none =>
              rw [insertother_no_block positive new] at run
              cases run
          | some o =>
              obtain ⟨nd'', run', filled⟩ := insertother_filled good index.1 index.2 new
              obtain rfl := Option.some.inj (run.symm.trans run')
              exact filled.bound
        · rw [insertother_eq_none good positive index] at run
          cases run
      · rw [insertother_empty nd type _ positive] at run
        cases run
        exact good.bound

/-- Copying a slot of a well-formed array. -/
theorem copySlot_good {i : Nat} (good : nd.Good) (inside : i < slots.length)
    (short : (slots.length : Int) ≤ intMax) (all : ∀ slot ∈ slots, slot.deletable) :
    ∃ nd', copySlot (some slots) nd i = some nd' ∧ nd'.Good := by
  have fine := all _ (List.getElem_mem inside)
  have read : (some slots).bind (fun slots => slots[i]?) = some slots[i] :=
    List.getElem?_eq_getElem inside
  rw [copySlot, read]
  cases slot : slots[i] with
  | unset => rw [slot] at fine; cases fine
  | null => exact ⟨nd, rfl, good⟩
  | other o =>
      rw [slot] at fine
      obtain ⟨text, data⟩ := Option.isSome_iff_exists.mp fine
      have index : (Int32.ofNat i).toInt = i := by
        rw [Int32.toInt_ofNat_of_lt]
        have high : (2 : Int) ^ 31 - 1 = intMax := rfl
        omega
      simp only [data]
      have meets : 0 ≤ (Int32.ofNat i).toInt ∧ (Int32.ofNat i).toInt < intMax ∧ text.1 ≠ [] ∧
          o.len.toInt < intMax := ⟨by omega, by omega, text.2, o.room fine⟩
      obtain ⟨nd', run, wellFormed⟩ := (insertother_good_iff good o.positive).mpr meets
      exact ⟨nd', run, wellFormed, insertother_bound good run⟩

theorem foldlM_copySlot_good {is : List Nat} (good : nd.Good) (inside : ∀ i ∈ is, i < slots.length)
    (short : (slots.length : Int) ≤ intMax) (all : ∀ slot ∈ slots, slot.deletable) :
    ∃ nd', is.foldlM (copySlot (some slots)) nd = some nd' ∧ nd'.Good := by
  induction is generalizing nd with
  | nil => exact ⟨nd, rfl, good⟩
  | cons i is ih =>
      obtain ⟨nd₁, first, good₁⟩ := copySlot_good good (inside i List.mem_cons_self) short all
      obtain ⟨nd', rest, good'⟩ := ih good₁ fun j mem => inside j (List.mem_cons_of_mem i mem)
      refine ⟨nd', ?_, good'⟩
      rw [List.foldlM_cons, first]
      exact rest

/-- The array of a well-formed node is copied whole. -/
theorem copyother_good {src : OtherNode} (good : nd.Good) (source : src.Good) :
    ∃ nd', nd.copyother src.other src.u.maxtype = some nd' ∧ nd'.Good := by
  have bound := source.bound
  rcases source.wellFormed with ⟨-, empty⟩ | ⟨slots, array, length, all⟩
  · rw [empty]
    exact ⟨nd, rfl, good⟩
  · rw [array]
    refine foldlM_copySlot_good good (fun i mem => ?_) (by omega) all
    have below := List.mem_range.mp mem
    omega

theorem newFrom_good {src : OtherNode} (source : src.Good) (u : UrlNode) :
    ∃ nd, newFrom u src = some nd ∧ nd.Good := by
  rw [newFrom]
  cases array : src.other with
  | none => exact ⟨_, rfl, good_new u⟩
  | some slots =>
      have copied := copyother_good (good_new u) source
      rw [array] at copied
      exact copied

theorem getothervalue_isSome_iff (wellFormed : nd.WellFormed) :
    (nd.getothervalue type).isSome ↔ 0 ≤ type.toInt ∨ nd.other = none := by
  rw [getothervalue]
  rcases wellFormed with ⟨array, -⟩ | ⟨slots, array, length, all⟩
  · simp only [array, or_true, iff_true]
    split_ifs <;> rfl
  · simp only [array, reduceCtorEq, or_false]
    by_cases low : 0 ≤ type.toInt
    · rw [if_pos low]
      refine iff_of_true ?_ low
      split_ifs with old
      · have inside : type.toInt.toNat < slots.length := by omega
        have fine := all _ (List.getElem_mem inside)
        rw [List.getElem?_eq_getElem inside]
        cases slot : slots[type.toInt.toNat] with
        | unset => rw [slot] at fine; cases fine
        | null => rfl
        | other o =>
            rw [slot] at fine
            obtain ⟨text, data⟩ := Option.isSome_iff_exists.mp fine
            simp only [data, Option.isSome_some]
      · rfl
    · have old : type.toInt ≤ nd.u.maxtype.toInt := by omega
      rw [if_pos old, if_neg low]
      exact iff_of_false (by decide) low

theorem destroy_eq_some (wellFormed : nd.WellFormed) : nd.destroy = some () := by
  refine if_pos (List.all_eq_true.mpr fun i mem => ?_)
  have below := List.mem_range.mp mem
  rcases wellFormed with ⟨-, empty⟩ | ⟨slots, array, length, all⟩
  · rw [empty] at below
    exact absurd below (Nat.not_lt_zero i)
  · have inside : i < slots.length := by omega
    simp only [deletableAt, array, Option.bind_some, List.getElem?_eq_getElem inside]
    exact all _ (List.getElem_mem inside)

end OtherNode
/-! ### Sequences of calls -/

namespace OtherState

/-- Every node of the process is well formed. -/
def WellFormed (s : OtherState) : Prop := ∀ i nd, s.node i = some nd → nd.WellFormed

/-- What all calls keep: no array outgrows an `int`, and every record was written by a node. -/
structure Bounded (s : OtherState) : Prop where
  nodes : ∀ i nd, s.node i = some nd → nd.u.maxtype.toInt < intMax
  saved : ∀ bytes ∈ s.saved, ∃ u : UrlNode, bytes = u.bytes ∧ u.maxtype.toInt < intMax

/-- What a call has to meet: an inserted text is not empty, its type is an index and its length
leaves room for the NUL, a node that holds something is not copied onto itself, a value is asked for
at an index or of a node without an array, and a record was written by a node with the `maxtype` of
the one it is read into, which is -1 for the new node of a reload. -/
def Meets (s : OtherState) : OtherCall → Prop
  | .insertother i type data len => ∀ nd, s.node i = some nd → ∀ text, data = some text →
      0 < len.toInt → 0 ≤ type.toInt ∧ type.toInt < intMax ∧ text ≠ [] ∧ len.toInt < intMax
  | .copyother i src => i = src → ∀ nd, s.node i = some nd → (nd.other.getD []).all Slot.isNull
  | .getothervalue i type => ∀ nd, s.node i = some nd → 0 ≤ type.toInt ∨ nd.other = none
  | .unserialize i record => ∀ nd, s.node i = some nd → ∀ v : UrlNode,
      s.saved[record]? = some v.bytes → v.maxtype = nd.u.maxtype
  | .reload _ record => ∀ v : UrlNode, s.saved[record]? = some v.bytes → v.maxtype = -1
  | .create _ | .createFrom _ _ | .serialize _ | .destroy _ => True

variable {s : OtherState} {nd nd' : OtherNode} {i j : Nat}

theorem node_push : (s.push nd).node i = if i = s.nodes.length then some nd else s.node i := by
  simp only [node, push]
  split_ifs with last
  · rw [last, List.getElem?_append_right (Nat.le_refl _), Nat.sub_self]
    rfl
  · by_cases old : i < s.nodes.length
    · rw [List.getElem?_append_left old]
    · rw [List.getElem?_eq_none (by rw [List.length_append, List.length_singleton]; omega),
        List.getElem?_eq_none (Nat.le_of_not_lt old)]

theorem node_write {new : Option OtherNode} (here : s.node i = some nd) :
    (s.write i new).node j = if i = j then new else s.node j := by
  have inside : i < s.nodes.length := by
    by_contra out
    rw [node, List.getElem?_eq_none (Nat.le_of_not_lt out)] at here
    cases here
  simp only [node, write, List.getElem?_set]
  split_ifs with same
  · rfl
  · rfl

theorem wellFormed_push (start : s.WellFormed) : (s.push nd).WellFormed ↔ nd.WellFormed := by
  constructor
  · intro all
    exact all s.nodes.length nd (by rw [node_push, if_pos rfl])
  · intro good i nd' here
    rw [node_push] at here
    split_ifs at here with last
    · obtain rfl := Option.some.inj here
      exact good
    · exact start i nd' here

theorem wellFormed_write (start : s.WellFormed) (here : s.node i = some nd) :
    (s.write i (some nd')).WellFormed ↔ nd'.WellFormed := by
  constructor
  · intro all
    exact all i nd' (by rw [node_write here, if_pos rfl])
  · intro good j nd'' there
    rw [node_write here] at there
    split_ifs at there with same
    · obtain rfl := Option.some.inj there
      exact good
    · exact start j nd'' there

theorem Bounded.push (bounded : s.Bounded) (bound : nd.u.maxtype.toInt < intMax) :
    (s.push nd).Bounded := by
  refine ⟨fun i nd' here => ?_, bounded.saved⟩
  rw [node_push] at here
  split_ifs at here with last
  · obtain rfl := Option.some.inj here
    exact bound
  · exact bounded.nodes i nd' here

theorem Bounded.write {new : Option OtherNode} (bounded : s.Bounded) (here : s.node i = some nd)
    (bound : ∀ nd', new = some nd' → nd'.u.maxtype.toInt < intMax) : (s.write i new).Bounded := by
  refine ⟨fun j nd'' there => ?_, bounded.saved⟩
  rw [node_write here] at there
  split_ifs at there with same
  · exact bound nd'' there
  · exact bounded.nodes j nd'' there

theorem good (bounded : s.Bounded) (start : s.WellFormed) (here : s.node i = some nd) : nd.Good :=
  ⟨start i nd here, bounded.nodes i nd here⟩

/-- A record gives the `maxtype` of the node that wrote it. -/
theorem unserialize_bytes (nd : OtherNode) (v : UrlNode) :
    nd.unserialize v.bytes = some { nd with u := v.readBack } := by
  have read := UrlNode.reads_bytes v nd.u []
  rw [List.append_nil] at read
  rw [OtherNode.unserialize, read]
  rfl

/-- Only one `maxtype` can have been written to a record. -/
theorem maxtype_of_bytes {v w : UrlNode} (same : v.bytes = w.bytes) : v.maxtype = w.maxtype := by
  have left := unserialize_bytes (OtherNode.new v) v
  rw [same, unserialize_bytes (OtherNode.new v) w] at left
  exact (congrArg (fun nd => nd.u.maxtype) (Option.some.inj left)).symm

/-- Other members over the array of a well-formed node. -/
theorem wellFormed_with_iff (fine : nd.WellFormed) (u : UrlNode) :
    OtherNode.WellFormed { nd with u := u } ↔ u.maxtype = nd.u.maxtype := by
  constructor
  · intro after
    rcases fine with ⟨none, empty⟩ | ⟨slots, array, length, -⟩
    · rcases after with ⟨-, empty'⟩ | ⟨slots', array', -⟩
      · exact empty'.trans empty.symm
      · cases none.symm.trans array'
    · rcases after with ⟨none', -⟩ | ⟨slots', array', length', -⟩
      · cases array.symm.trans none'
      · obtain rfl := Option.some.inj (array.symm.trans array')
        apply Int32.toInt_inj.mp
        change (slots.length : Int) = u.maxtype.toInt + 1 at length'
        omega
  · intro same
    rcases fine with ⟨none, empty⟩ | ⟨slots, array, length, all⟩
    · exact Or.inl ⟨none, same.trans empty⟩
    · refine Or.inr ⟨slots, array, ?_, all⟩
      change (slots.length : Int) = u.maxtype.toInt + 1
      rw [same]
      exact length

theorem exists_bind_iff {α β : Type} {x : Option α} {g : α → β} {Q : β → Prop} :
    (∃ b, (x >>= fun a => some (g a)) = some b ∧ Q b) ↔ ∃ a, x = some a ∧ Q (g a) := by
  cases x with
  | none => exact iff_of_false (by rintro ⟨b, none, -⟩; cases none) (by rintro ⟨a, none, -⟩; cases none)
  | some a =>
      constructor
      · rintro ⟨b, same, holds⟩
        cases same
        exact ⟨a, rfl, holds⟩
      · rintro ⟨a', same, holds⟩
        cases same
        exact ⟨_, rfl, holds⟩

/-- What is asked of a record is asked of the node that wrote it. -/
theorem forall_written_iff {record : Nat} {v : UrlNode} {m : Int32}
    (there : s.saved[record]? = some v.bytes) :
    (∀ w : UrlNode, s.saved[record]? = some w.bytes → w.maxtype = m) ↔ v.maxtype = m := by
  constructor
  · exact fun all => all v there
  · intro same w other
    have bytes := Option.some.inj (other.symm.trans there)
    exact (maxtype_of_bytes bytes).trans same

/-- What one call keeps and what it may spoil. -/
theorem exec_wellFormed_iff (bounded : s.Bounded) (start : s.WellFormed) (call : OtherCall) :
    (∃ s', s.exec call = some s' ∧ s'.WellFormed) ↔ s.Meets call := by
  have stays : ∃ s', some s = some s' ∧ s'.WellFormed := ⟨s, rfl, start⟩
  cases call with
  | create u =>
      exact iff_of_true ⟨_, rfl, (wellFormed_push start).mpr (OtherNode.good_new u).wellFormed⟩ trivial
  | createFrom u src =>
      refine iff_of_true ?_ trivial
      cases here : s.node src with
      | none => simp only [exec, here]; exact stays
      | some from_ =>
          obtain ⟨nd, run, fine⟩ := OtherNode.newFrom_good (good bounded start here) u
          simp only [exec, here, run]
          exact ⟨_, rfl, (wellFormed_push start).mpr fine.wellFormed⟩
  | insertother i type data len =>
      cases here : s.node i with
      | none => simp only [exec, Meets, here]; exact iff_of_true stays nofun
      | some nd =>
          have fine := good bounded start here
          simp only [exec, Meets, here, Option.some.injEq, forall_eq']
          change (∃ s', (nd.insertother type data len >>= fun nd => some (s.write i (some nd))) =
            some s' ∧ s'.WellFormed) ↔ _
          rw [exists_bind_iff]
          simp only [wellFormed_write start here]
          cases data with
          | none => exact iff_of_true ⟨nd, rfl, fine.wellFormed⟩ nofun
          | some text =>
              simp only [Option.some.injEq, forall_eq']
              by_cases positive : 0 < len.toInt
              · rw [OtherNode.insertother_good_iff fine positive]
                exact ⟨fun meets _ => meets, fun meets => meets positive⟩
              · rw [OtherNode.insertother_empty nd type _ positive]
                exact iff_of_true ⟨nd, rfl, fine.wellFormed⟩ fun long => absurd long positive
  | copyother i src =>
      cases here : s.node i with
      | none =>
          refine iff_of_true ?_ ?_
          · simp only [exec, here]
            exact stays
          · intro _ nd there
            cases here.symm.trans there
      | some nd =>
          by_cases same : i = src
          · subst same
            simp only [exec, Meets, here, if_pos, Option.some.injEq, forall_eq', forall_const]
            split_ifs with empty
            · exact iff_of_true stays empty
            · refine iff_of_false ?_ empty
              rintro ⟨s', none, -⟩
              cases none
          · refine iff_of_true ?_ fun again => absurd again same
            cases there : s.node src with
            | none => simp only [exec, here, there]; exact stays
            | some from_ =>
                obtain ⟨nd', run, fine⟩ := OtherNode.copyother_good (good bounded start here)
                  (good bounded start there)
                simp only [exec, here, there, if_neg same, run]
                exact ⟨_, rfl, (wellFormed_write start here).mpr fine.wellFormed⟩
  | getothervalue i type =>
      cases here : s.node i with
      | none => simp only [exec, Meets, here]; exact iff_of_true stays nofun
      | some nd =>
          simp only [exec, Meets, here, Option.some.injEq, forall_eq']
          rw [← OtherNode.getothervalue_isSome_iff (start i nd here)]
          change (∃ s', (nd.getothervalue type >>= fun _ => some s) = some s' ∧ s'.WellFormed) ↔ _
          rw [exists_bind_iff, Option.isSome_iff_exists]
          exact exists_congr fun value => and_iff_left start
  | serialize i =>
      refine iff_of_true ?_ trivial
      cases here : s.node i with
      | none => simp only [exec, here]; exact stays
      | some nd => simp only [exec, here]; exact ⟨_, rfl, start⟩
  | unserialize i record =>
      cases here : s.node i with
      | none => simp only [exec, Meets, here]; exact iff_of_true stays nofun
      | some nd =>
          cases there : s.saved[record]? with
          | none =>
              simp only [exec, Meets, here, there]
              exact iff_of_true stays nofun
          | some bytes =>
              obtain ⟨v, rfl, -⟩ := bounded.saved bytes (List.mem_of_getElem? there)
              simp only [Meets, here, Option.some.injEq, forall_eq', forall_written_iff there]
              refine Iff.trans ?_ (wellFormed_with_iff (start i nd here) v.readBack)
              simp only [exec, here, there, unserialize_bytes]
              change (∃ s', some (s.write i (some _)) = some s' ∧ s'.WellFormed) ↔ _
              simp only [Option.some.injEq, exists_eq_left', wellFormed_write start here]
  | reload u record =>
      cases there : s.saved[record]? with
      | none => simp only [exec, Meets, there]; exact iff_of_true stays nofun
      | some bytes =>
          obtain ⟨v, rfl, -⟩ := bounded.saved bytes (List.mem_of_getElem? there)
          simp only [Meets, forall_written_iff there]
          have new := wellFormed_with_iff (OtherNode.good_new u).wellFormed v.readBack
          refine Iff.trans ?_ new
          simp only [exec, there, unserialize_bytes]
          change (∃ s', some (s.push _) = some s' ∧ s'.WellFormed) ↔ _
          simp only [Option.some.injEq, exists_eq_left', wellFormed_push start]
          exact Iff.rfl
  | destroy i =>
      refine iff_of_true ?_ trivial
      cases here : s.node i with
      | none => simp only [exec, here]; exact stays
      | some nd =>
          simp only [exec, here, OtherNode.destroy_eq_some (start i nd here)]
          refine ⟨_, rfl, fun j nd' there => ?_⟩
          rw [node_write here] at there
          split_ifs at there with same
          exact start j nd' there

/-- Every call keeps the bounds. -/
theorem exec_bounded {s' : OtherState} (bounded : s.Bounded) (start : s.WellFormed) {call : OtherCall}
    (run : s.exec call = some s') : s'.Bounded := by
  cases call with
  | create u =>
      cases run
      exact bounded.push (OtherNode.good_new u).bound
  | createFrom u src =>
      cases here : s.node src with
      | none => simp only [exec, here] at run; cases run; exact bounded
      | some from_ =>
          obtain ⟨nd, new, fine⟩ := OtherNode.newFrom_good (good bounded start here) u
          simp only [exec, here, new] at run
          cases run
          exact bounded.push fine.bound
  | insertother i type data len =>
      cases here : s.node i with
      | none => simp only [exec, here] at run; cases run; exact bounded
      | some nd =>
          simp only [exec, here] at run
          obtain ⟨nd', insert, rfl⟩ := Option.map_eq_some_iff.mp
            ((Option.map_eq_bind (f := fun nd' => s.write i (some nd'))).trans run)
          refine bounded.write here fun nd'' same => ?_
          obtain rfl := Option.some.inj same
          exact OtherNode.insertother_bound (good bounded start here) insert
  | copyother i src =>
      cases here : s.node i with
      | none => simp only [exec, here] at run; cases run; exact bounded
      | some nd =>
          cases there : s.node src with
          | none => simp only [exec, here, there] at run; cases run; exact bounded
          | some from_ =>
              obtain ⟨nd', copy, fine⟩ := OtherNode.copyother_good (good bounded start here)
                (good bounded start there)
              simp only [exec, here, there, copy] at run
              split_ifs at run
              · cases run
                exact bounded
              · cases run
                refine bounded.write here fun nd'' same => ?_
                obtain rfl := Option.some.inj same
                exact fine.bound
  | getothervalue i type =>
      cases here : s.node i with
      | none => simp only [exec, here] at run; cases run; exact bounded
      | some nd =>
          simp only [exec, here] at run
          obtain ⟨-, -, same⟩ := Option.bind_eq_some_iff.mp run
          obtain rfl := Option.some.inj same
          exact bounded
  | serialize i =>
      cases here : s.node i with
      | none => simp only [exec, here] at run; cases run; exact bounded
      | some nd =>
          simp only [exec, here] at run
          cases run
          refine ⟨bounded.nodes, fun bytes mem => ?_⟩
          rcases List.mem_append.mp mem with old | new
          · exact bounded.saved bytes old
          · rw [List.mem_singleton.mp new, UrlNode.serialize_eq, List.nil_append]
            exact ⟨nd.u, rfl, bounded.nodes i nd here⟩
  | unserialize i record =>
      cases here : s.node i with
      | none => simp only [exec, here] at run; cases run; exact bounded
      | some nd =>
          cases there : s.saved[record]? with
          | none => simp only [exec, here, there] at run; cases run; exact bounded
          | some bytes =>
              obtain ⟨v, rfl, bound⟩ := bounded.saved bytes (List.mem_of_getElem? there)
              simp only [exec, here, there, unserialize_bytes] at run
              cases run
              refine bounded.write here fun nd' same => ?_
              obtain rfl := Option.some.inj same
              exact bound
  | reload u record =>
      cases there : s.saved[record]? with
      | none => simp only [exec, there] at run; cases run; exact bounded
      | some bytes =>
          obtain ⟨v, rfl, bound⟩ := bounded.saved bytes (List.mem_of_getElem? there)
          simp only [exec, there, unserialize_bytes] at run
          cases run
          have small : ({ OtherNode.new u with u := v.readBack } : OtherNode).u.maxtype.toInt < intMax :=
            bound
          exact bounded.push small
  | destroy i =>
      cases here : s.node i with
      | none => simp only [exec, here] at run; cases run; exact bounded
      | some nd =>
          simp only [exec, here, OtherNode.destroy_eq_some (start i nd here)] at run
          cases run
          exact bounded.write here nofun

/-- Before the first node there is nothing. -/
def initial : OtherState := ⟨[], []⟩

end OtherState

/-- In a sequence of calls all nodes stay well formed, and no call touches what is not there, exactly
if every call meets its condition. -/
theorem others_safe_iff (calls : List OtherCall) :
    Safe OtherState.exec OtherState.WellFormed .initial calls ↔
      Throughout OtherState.exec OtherState.Meets .initial calls := by
  have nothing : ∀ i, OtherState.initial.node i = none := fun _ => rfl
  refine safe_iff_throughout (I := OtherState.Bounded) ?_ ?_ ?_ ?_ calls
  · exact fun _ _ _ bounded start run => OtherState.exec_bounded bounded start run
  · exact fun _ call bounded start => OtherState.exec_wellFormed_iff bounded start call
  · refine ⟨fun i nd here => ?_, nofun⟩
    rw [nothing] at here
    cases here
  · intro i nd here
    rw [nothing] at here
    cases here

/-- A node with a cookie that is written to the database and reloaded has `maxtype` 0 and no array:
its destructor follows the null pointer. -/
theorem not_others_safe : ¬ ∀ calls, Safe OtherState.exec OtherState.WellFormed .initial calls := by
  intro all
  obtain ⟨-, s₁, create, -, s₂, insert, -, s₃, save, -, s₄, reload, last⟩ :=
    all [.create UrlNode.login, .insertother 0 0 (some [97]) 1, .serialize 0, .reload UrlNode.login 0]
  cases create
  cases insert
  cases save
  let v : UrlNode := { UrlNode.login with maxtype := 0 }
  have written : (v.serialize []).2 = v.bytes := by rw [UrlNode.serialize_eq, List.nil_append]
  change ((OtherNode.new UrlNode.login).unserialize (v.serialize []).2 >>= _) = some s₄ at reload
  rw [written, OtherState.unserialize_bytes] at reload
  cases reload
  rcases last 1 _ rfl with ⟨-, empty⟩ | ⟨slots, array, -⟩
  · exact absurd empty (by decide)
  · cases array

end BloomServer
