import BloomServer.DbStore
import BloomServer.Library.LinkedChain
import Mathlib.Logic.Function.Basic

/-! The pointers and records of an index file, apart from the bytes they are made of. -/
namespace BloomServer
open DecimalText LinkedChain

/-- The pointer that stands at an offset, and the record behind it. -/
structure Layout where
  ptr : ℕ → ℕ
  record : ℕ → Option IndexRec

/-- The offsets of the pointer to the free list and of those of the hash table. -/
def Head (c : ℕ) : Prop := c % ptrSz = 0 ∧ c + 1 < idxBase

instance (c : ℕ) : Decidable (Head c) := inferInstanceAs (Decidable (_ ∧ _))

/-- The bytes a record takes, its pointer and its length included. -/
def IndexRec.extent (r : IndexRec) : ℕ := ptrSz + (idxlenSz + r.idxlen)

namespace Layout

/-- A place where a pointer stands. -/
def Cell (L : Layout) (a : ℕ) : Prop := Head a ∨ (L.record a).isSome

instance (L : Layout) (a : ℕ) : Decidable (L.Cell a) := inferInstanceAs (Decidable (_ ∨ _))

def setPtr (L : Layout) (a v : ℕ) : Layout := { L with ptr := Function.update L.ptr a v }

def put (L : Layout) (offset : ℕ) (r : IndexRec) (v : ℕ) : Layout where
  ptr := Function.update L.ptr offset v
  record := Function.update L.record offset (some r)

end Layout

/-- The bytes of a pointer. -/
def ptrText (p : ℕ) : List UInt8 := padLeft ptrSz (decimal p)

/-- The index file is the hash table, and one record after another behind it. -/
structure LaidOut (f : ByteFile) (L : Layout) : Prop where
  base : idxBase ≤ f.size
  small : ∀ a, L.ptr a ≤ ptrMax
  head : ∀ c, Head c → f.At c (ptrText (L.ptr c))
  pointer : ∀ offset r, L.record offset = some r → f.At offset (ptrText (L.ptr offset))
  image : ∀ offset r, L.record offset = some r → f.At (offset + ptrSz) r.image
  valid : ∀ offset r, L.record offset = some r → r.Valid
  behind : ∀ offset r, L.record offset = some r → idxBase ≤ offset
  apart : ∀ offset r offset' r', L.record offset = some r → L.record offset' = some r' →
    offset < offset' → offset + r.extent ≤ offset'
  tiled : ∀ i, idxBase ≤ i → i < f.size →
    ∃ offset r, L.record offset = some r ∧ offset ≤ i ∧ i < offset + r.extent

theorem length_ptrText {p : ℕ} (small : p ≤ ptrMax) : (ptrText p).length = ptrSz := length_ptr small

/-- Two pointers of the table are the same or do not touch. -/
theorem Head.apart {c c' : ℕ} (h : Head c) (h' : Head c') (other : c ≠ c') :
    c + ptrSz ≤ c' ∨ c' + ptrSz ≤ c := by
  obtain ⟨h, _⟩ := h
  obtain ⟨h', _⟩ := h'
  unfold ptrSz at *
  omega

theorem Head.lt {c : ℕ} (h : Head c) : c + ptrSz < idxBase := by
  obtain ⟨aligned, low⟩ := h
  unfold idxBase ptrSz nhashDef at *
  omega

theorem head_freeOff : Head freeOff := by decide

theorem head_dbChainOff (key : List UInt8) : Head (dbChainOff key) := by
  have low : dbHash key < nhashDef := Nat.mod_lt _ (by decide)
  unfold Head dbChainOff hashOff idxBase ptrSz at *
  omega

theorem dbChainOff_ne_freeOff (key : List UInt8) : dbChainOff key ≠ freeOff := by
  unfold dbChainOff hashOff freeOff ptrSz
  omega

namespace LaidOut

variable {f : ByteFile} {L : Layout} {a offset v : ℕ} {r r' : IndexRec}

/-- A record ends where the file does, or before. -/
theorem extent_le (h : LaidOut f L) (held : L.record offset = some r) :
    offset + r.extent ≤ f.size := by
  have inside := (h.image offset r held).inside
  rw [(h.valid offset r held).readable.length_image] at inside
  unfold IndexRec.extent
  omega

theorem extent_pos (r : IndexRec) : ptrSz < r.extent := by
  unfold IndexRec.extent idxlenSz
  omega

theorem not_head (h : LaidOut f L) (held : L.record offset = some r) : ¬ Head offset := by
  intro head
  have low := head.lt
  have high := h.behind offset r held
  omega

theorem at_cell (h : LaidOut f L) (cell : L.Cell a) : f.At a (ptrText (L.ptr a)) := by
  rcases cell with head | held
  · exact h.head a head
  · obtain ⟨r, held⟩ := Option.isSome_iff_exists.mp held
    exact h.pointer a r held

theorem readptr (h : LaidOut f L) (cell : L.Cell a) : dbReadptr f a = some (L.ptr a) :=
  dbReadptr_of_at (h.small a) (h.at_cell cell)

theorem readidx (h : LaidOut f L) (held : L.record offset = some r) :
    dbReadidx f offset = some (r.dbd offset (L.ptr offset)) :=
  dbReadidx_of_at (h.valid offset r held).readable (h.small offset) (h.pointer offset r held)
    (h.image offset r held)

/-- A pointer does not touch another one. -/
theorem cell_apart (h : LaidOut f L) (cell : L.Cell a) {b : ℕ} (cell' : L.Cell b)
    (other : a ≠ b) : a + ptrSz ≤ b ∨ b + ptrSz ≤ a := by
  have behind {c : ℕ} (held : (L.record c).isSome) : idxBase ≤ c := by
    obtain ⟨r, held⟩ := Option.isSome_iff_exists.mp held
    exact h.behind c r held
  rcases cell with head | held
  · rcases cell' with head' | held'
    · exact head.apart head' other
    · have low := head.lt
      have high := behind held'
      omega
  · rcases cell' with head' | held'
    · have low := head'.lt
      have high := behind held
      omega
    · obtain ⟨r, held⟩ := Option.isSome_iff_exists.mp held
      obtain ⟨r', held'⟩ := Option.isSome_iff_exists.mp held'
      rcases Nat.lt_or_gt_of_ne other with before | after
      · have room := h.apart a r b r' held held' before
        have size := extent_pos r
        omega
      · have room := h.apart b r' a r held' held after
        have size := extent_pos r'
        omega

/-- A pointer does not touch what stands behind another one. -/
theorem cell_apart_image (h : LaidOut f L) (cell : L.Cell a) (held : L.record offset = some r) :
    a + ptrSz ≤ offset + ptrSz ∨ offset + r.extent ≤ a := by
  by_cases same : a = offset
  · omega
  · rcases cell with head | held'
    · have low := head.lt
      have high := h.behind offset r held
      omega
    · obtain ⟨r', held'⟩ := Option.isSome_iff_exists.mp held'
      rcases Nat.lt_or_gt_of_ne same with before | after
      · omega
      · exact Or.inr (h.apart offset r a r' held held' after)

theorem size_setPtr (h : LaidOut f L) (cell : L.Cell a) (small : v ≤ ptrMax) :
    (f.pwrite (ptrText v) a).size = f.size := by
  have place := (h.at_cell cell).inside
  rw [length_ptrText (h.small a)] at place
  apply ByteFile.size_pwrite_inside
  rwa [length_ptrText small]

/-- Writing a pointer changes that pointer. -/
theorem setPtr (h : LaidOut f L) (cell : L.Cell a) (small : v ≤ ptrMax) :
    LaidOut (f.pwrite (ptrText v) a) (L.setPtr a v) := by
  have place := (h.at_cell cell).inside
  rw [length_ptrText (h.small a)] at place
  have size := h.size_setPtr cell small
  have pointers {b : ℕ} (cell' : L.Cell b) (stands : f.At b (ptrText (L.ptr b))) :
      (f.pwrite (ptrText v) a).At b (ptrText ((L.setPtr a v).ptr b)) := by
    change (f.pwrite (ptrText v) a).At b (ptrText (Function.update L.ptr a v b))
    by_cases same : b = a
    · subst same
      rw [Function.update_self]
      exact ByteFile.at_pwrite f fun _ => by omega
    · rw [Function.update_of_ne same]
      apply stands.pwrite
      rw [length_ptrText (h.small b), length_ptrText small]
      exact h.cell_apart cell' cell same
  constructor
  · rw [size]
    exact h.base
  · intro b
    change Function.update L.ptr a v b ≤ ptrMax
    by_cases same : b = a
    · rw [same, Function.update_self]
      exact small
    · rw [Function.update_of_ne same]
      exact h.small b
  · intro c head
    exact pointers (Or.inl head) (h.head c head)
  · intro offset r held
    exact pointers (Or.inr (Option.isSome_iff_exists.mpr ⟨r, held⟩)) (h.pointer offset r held)
  · intro offset r held
    apply (h.image offset r held).pwrite
    have clear := h.cell_apart_image cell held
    rw [(h.valid offset r held).readable.length_image, length_ptrText small]
    unfold IndexRec.extent at clear
    omega
  · exact h.valid
  · exact h.behind
  · exact h.apart
  · rw [size]
    exact h.tiled

end LaidOut

/-- The file after `_db_writeidx` has written a record. -/
def writeRecord (f : ByteFile) (offset : ℕ) (r : IndexRec) (v : ℕ) : ByteFile :=
  (f.pwrite (ptrText v ++ padLeft idxlenSz (decimal r.idxlen)) offset).pwrite r.line
    (offset + (ptrSz + idxlenSz))

section WriteRecord

variable {f : ByteFile} {offset v : ℕ} {r : IndexRec}

theorem length_lead (valid : r.Readable) (small : v ≤ ptrMax) :
    (ptrText v ++ padLeft idxlenSz (decimal r.idxlen)).length = ptrSz + idxlenSz := by
  rw [List.length_append, length_ptrText small, length_idxlen valid.short]

theorem writeRecord_at (f : ByteFile) (offset : ℕ) (valid : r.Readable) (small : v ≤ ptrMax) :
    (writeRecord f offset r v).At offset (ptrText v) ∧
      (writeRecord f offset r v).At (offset + ptrSz) r.image := by
  have lead := length_lead valid small
  have first : (f.pwrite (ptrText v ++ padLeft idxlenSz (decimal r.idxlen)) offset).At offset
      (ptrText v ++ padLeft idxlenSz (decimal r.idxlen)) :=
    ByteFile.at_pwrite f fun none => absurd lead (by rw [none]; decide)
  have kept : (writeRecord f offset r v).At offset
      (ptrText v ++ padLeft idxlenSz (decimal r.idxlen)) := by
    apply first.pwrite
    omega
  have second : (writeRecord f offset r v).At (offset + (ptrSz + idxlenSz)) r.line := by
    apply ByteFile.at_pwrite
    intro _
    have inside := first.inside
    omega
  have parts := ByteFile.at_append.mp kept
  rw [length_ptrText small] at parts
  refine ⟨parts.1, ByteFile.at_append.mpr ⟨parts.2, ?_⟩⟩
  rw [length_idxlen valid.short, Nat.add_assoc]
  exact second

theorem at_writeRecord {a : ℕ} {data : List UInt8} (h : f.At a data) (valid : r.Readable)
    (small : v ≤ ptrMax) (clear : a + data.length ≤ offset ∨ offset + r.extent ≤ a) :
    (writeRecord f offset r v).At a data := by
  have lead := length_lead valid small
  have line := valid.length_line
  unfold IndexRec.extent at clear
  exact (h.pwrite (by omega)).pwrite (by omega)

theorem size_writeRecord_inside (valid : r.Readable) (small : v ≤ ptrMax)
    (within : offset + r.extent ≤ f.size) : (writeRecord f offset r v).size = f.size := by
  have lead := length_lead valid small
  have line := valid.length_line
  unfold IndexRec.extent at within
  have first : (f.pwrite (ptrText v ++ padLeft idxlenSz (decimal r.idxlen)) offset).size = f.size :=
    ByteFile.size_pwrite_inside (by omega)
  unfold writeRecord
  rw [ByteFile.size_pwrite_inside (by omega), first]

theorem size_writeRecord_end (valid : r.Readable) (small : v ≤ ptrMax) :
    (writeRecord f f.size r v).size = f.size + r.extent := by
  have lead := length_lead valid small
  have line := valid.length_line
  have first : (f.pwrite (ptrText v ++ padLeft idxlenSz (decimal r.idxlen)) f.size).size =
      f.size + (ptrSz + idxlenSz) := by
    rw [ByteFile.size_pwrite_end, lead]
  unfold writeRecord
  rw [← first, ByteFile.size_pwrite_end, first, line]
  unfold IndexRec.extent
  omega

end WriteRecord

namespace LaidOut

variable {f : ByteFile} {L : Layout} {offset v : ℕ} {r r' : IndexRec}

/-- A record is written where no other one is. -/
theorem put (h : LaidOut f L) (valid : r'.Valid) (small : v ≤ ptrMax) (within : offset ≤ f.size)
    (behind : idxBase ≤ offset) (clear : ∀ b q, L.record b = some q → b ≠ offset →
      b + q.extent ≤ offset ∨ offset + r'.extent ≤ b)
    (tiled : ∀ i, idxBase ≤ i → i < (writeRecord f offset r' v).size →
      (offset ≤ i ∧ i < offset + r'.extent) ∨
        ∃ b q, L.record b = some q ∧ b ≠ offset ∧ b ≤ i ∧ i < b + q.extent) :
    LaidOut (writeRecord f offset r' v) (L.put offset r' v) := by
  obtain ⟨pointer, image⟩ := writeRecord_at f offset valid.readable small
  have split {b : ℕ} {q : IndexRec} (there : (L.put offset r' v).record b = some q) :
      (b = offset ∧ q = r') ∨ (b ≠ offset ∧ L.record b = some q) := by
    change Function.update L.record offset (some r') b = some q at there
    by_cases self : b = offset
    · rw [self, Function.update_self] at there
      exact Or.inl ⟨self, (Option.some.inj there).symm⟩
    · rw [Function.update_of_ne self] at there
      exact Or.inr ⟨self, there⟩
  have elsewhere {b : ℕ} (other : b ≠ offset) : (L.put offset r' v).ptr b = L.ptr b := by
    change Function.update L.ptr offset v b = _
    rw [Function.update_of_ne other]
  have self : (L.put offset r' v).ptr offset = v := by
    change Function.update L.ptr offset v offset = _
    rw [Function.update_self]
  have larger : f.size ≤ (writeRecord f offset r' v).size :=
    ByteFile.size_le_pwrite.trans ByteFile.size_le_pwrite
  constructor
  · exact h.base.trans larger
  · intro b
    by_cases same : b = offset
    · rw [same, self]
      exact small
    · rw [elsewhere same]
      exact h.small b
  · intro c head
    have low := head.lt
    rw [elsewhere (by omega)]
    apply at_writeRecord (h.head c head) valid.readable small
    rw [length_ptrText (h.small c)]
    omega
  · intro b q there
    rcases split there with ⟨rfl, rfl⟩ | ⟨other, held⟩
    · rw [self]
      exact pointer
    · rw [elsewhere other]
      apply at_writeRecord (h.pointer b q held) valid.readable small
      have size := extent_pos q
      have apart := clear b q held other
      rw [length_ptrText (h.small b)]
      omega
  · intro b q there
    rcases split there with ⟨rfl, rfl⟩ | ⟨other, held⟩
    · exact image
    · apply at_writeRecord (h.image b q held) valid.readable small
      have apart := clear b q held other
      rw [(h.valid b q held).readable.length_image]
      unfold IndexRec.extent at apart ⊢
      omega
  · intro b q there
    rcases split there with ⟨_, rfl⟩ | ⟨_, held⟩
    · exact valid
    · exact h.valid b q held
  · intro b q there
    rcases split there with ⟨rfl, _⟩ | ⟨_, held⟩
    · exact behind
    · exact h.behind b q held
  · intro b q b' q' there there' before
    rcases split there with ⟨rfl, rfl⟩ | ⟨other, held⟩
    · rcases split there' with ⟨same, _⟩ | ⟨other', held'⟩
      · omega
      · have size := extent_pos q'
        have apart := clear b' q' held' other'
        omega
    · rcases split there' with ⟨rfl, rfl⟩ | ⟨other', held'⟩
      · have size := extent_pos q'
        have apart := clear b q held other
        omega
      · exact h.apart b q b' q' held held' before
  · intro i low high
    rcases tiled i low high with here | ⟨b, q, held, other, there⟩
    · refine ⟨offset, r', ?_, here⟩
      change Function.update L.record offset (some r') offset = _
      rw [Function.update_self]
    · refine ⟨b, q, ?_, there⟩
      change Function.update L.record offset (some r') b = _
      rw [Function.update_of_ne other]
      exact held

/-- A record may be written over one of the same length. -/
theorem put_inside (h : LaidOut f L) (held : L.record offset = some r) (valid : r'.Valid)
    (same : r'.idxlen = r.idxlen) (small : v ≤ ptrMax) :
    LaidOut (writeRecord f offset r' v) (L.put offset r' v) := by
  have extent : r'.extent = r.extent := by
    unfold IndexRec.extent
    rw [same]
  have within : offset + r'.extent ≤ f.size := by
    rw [extent]
    exact h.extent_le held
  apply h.put valid small (Nat.le_of_add_right_le within) (h.behind offset r held)
  · intro b q there other
    rcases Nat.lt_or_gt_of_ne other with before | after
    · exact Or.inl (h.apart b q offset r there held before)
    · rw [extent]
      exact Or.inr (h.apart offset r b q held there after)
  · intro i low high
    rw [size_writeRecord_inside valid.readable small within] at high
    obtain ⟨b, q, there, before, after⟩ := h.tiled i low high
    by_cases self : b = offset
    · subst self
      rw [held] at there
      cases there
      rw [extent]
      exact Or.inl ⟨before, after⟩
    · exact Or.inr ⟨b, q, there, self, before, after⟩

/-- A record may be written at the end. -/
theorem put_end (h : LaidOut f L) (valid : r'.Valid) (small : v ≤ ptrMax) :
    LaidOut (writeRecord f f.size r' v) (L.put f.size r' v) := by
  apply h.put valid small (Nat.le_refl _) h.base
  · intro b q there _
    exact Or.inl (h.extent_le there)
  · intro i low high
    rw [size_writeRecord_end valid.readable small] at high
    by_cases inside : i < f.size
    · obtain ⟨b, q, there, before, after⟩ := h.tiled i low inside
      exact Or.inr ⟨b, q, there, by omega, before, after⟩
    · exact Or.inl ⟨by omega, high⟩

/-- Nothing stands at the end. -/
theorem record_size (h : LaidOut f L) : L.record f.size = none := by
  by_contra held
  obtain ⟨r, held⟩ := Option.ne_none_iff_exists'.mp held
  have room := h.extent_le held
  have size := extent_pos r
  omega

end LaidOut
end BloomServer
