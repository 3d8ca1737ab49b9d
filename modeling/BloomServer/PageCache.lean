import BloomServer.Library.CallSequence
import BloomServer.Library.WeighedMap
import BloomServer.UrlNode

/-! `PageManager`: the fetched pages of a record are kept in memory until the last of them is there,
and the counter `totalpagebufsize` says how many bytes that takes. The database is left out. -/
namespace BloomServer
open CallSequence WeighedMap

/-- The length of a buffer, an `int`. -/
structure Length where
  bytes : ℕ
  fits : bytes < 2 ^ 31
  deriving DecidableEq

/-- The sum of two `int`s; overflow is undefined. -/
def intSum (a b : ℤ) : Option ℤ := if -2 ^ 31 ≤ a + b ∧ a + b < 2 ^ 31 then some (a + b) else none

def Length.add (a b : Length) : Option Length :=
  if fits : a.bytes + b.bytes < 2 ^ 31 then some ⟨a.bytes + b.bytes, fits⟩ else none

def maxFinalNextPageToFetch : ℕ := 30

abbrev PageSlot := Fin (maxFinalNextPageToFetch + 1)

/-- `PAGEBUF` -/
structure PageBuf where
  pages : PageSlot → Option Length
  totalpage : ℤ
  nowpage : ℤ
  taskid : Int32
  batchid : Int32
  totallength : Length
  urlnodeid : UInt64

/-- The place of a page; elsewhere the array is left. -/
def pageSlot (page : Int32) : Option PageSlot :=
  if h : 0 ≤ page.toInt ∧ page.toInt ≤ 30 then
    some ⟨page.toInt.toNat, by unfold maxFinalNextPageToFetch; omega⟩
  else none

/-- A page that has not been there goes into its place. -/
def PageBuf.addPage (pagebuf : PageBuf) (slot : PageSlot) (buffer : Length) (nextpage : Int32) :
    Option PageBuf := do
  let totalpage ← intSum pagebuf.totalpage (if 1 < nextpage then 1 else 0)
  let nowpage ← intSum pagebuf.nowpage 1
  let totallength ← pagebuf.totallength.add buffer
  let pages := Function.update pagebuf.pages slot (some buffer)
  return { pagebuf with pages, totalpage, nowpage, totallength }

structure PageManager where
  totalpagebufsize : UInt64
  pagemap : AList fun _ : UInt64 => PageBuf

/-- `4 *1024*100*30` -/
def maxpagebufsize : UInt64 := 12288000

namespace PageManager

def new : PageManager := ⟨0, ∅⟩

/-- The result is an `int`, and `-1` if the limit is reached. -/
def increaseTotalBufSize (s : PageManager) (addsize : UInt64) : Int32 × PageManager :=
  if s.totalpagebufsize + addsize < maxpagebufsize then
    ((s.totalpagebufsize + addsize).toUInt32.toInt32,
      { s with totalpagebufsize := s.totalpagebufsize + addsize })
  else (-1, s)

def decreaseTotalBufSize (s : PageManager) (decreasesize : UInt64) : PageManager :=
  { s with totalpagebufsize := s.totalpagebufsize - decreasesize }

def findInMap (s : PageManager) (id : UInt64) : Bool := (s.pagemap.lookup id).isSome

/-- 1 for a page that is kept, 0 for one that is there already. -/
def saveInMap (s : PageManager) (buffer : Length) (urlnode : UrlNode) :
    Option (Int32 × PageManager) := do
  let slot ← pageSlot urlnode.page
  match s.pagemap.lookup urlnode.id with
  | some pagebuf =>
      if pagebuf.pages slot = none then
        let pagebuf ← pagebuf.addPage slot buffer urlnode.nextpage
        return (1, { s with pagemap := s.pagemap.insert urlnode.id pagebuf })
      else return (0, s)
  | none =>
      let pagebuf : PageBuf :=
        { pages := Function.update (fun _ => none) slot (some buffer)
          totalpage := urlnode.nextpage.toInt
          nowpage := 1
          taskid := urlnode.taskid
          batchid := urlnode.taskbatch
          totallength := buffer
          urlnodeid := urlnode.id }
      return (1, { s with pagemap := s.pagemap.insert urlnode.id pagebuf })

/-- The record leaves the map for the database; the last page has not been counted. -/
def mergePage (s : PageManager) (id : UInt64) (lastcontentlen : ℤ) : Option PageManager :=
  match s.pagemap.lookup id with
  | none => some s
  | some pagebuf => do
      let decrease ← intSum pagebuf.totallength.bytes (-lastcontentlen)
      return { s with pagemap := s.pagemap.erase id }.decreaseTotalBufSize (.ofInt decrease)

def erasecontentMap (s : PageManager) (id : UInt64) : PageManager :=
  match s.pagemap.lookup id with
  | none => s
  | some pagebuf =>
      { s with pagemap := s.pagemap.erase id }.decreaseTotalBufSize
        (.ofNat pagebuf.totallength.bytes)

def altermaptotalpageforced (s : PageManager) (id : UInt64) : Option PageManager :=
  match s.pagemap.lookup id with
  | none => some s
  | some pagebuf =>
      let pagebuf := { pagebuf with totalpage := pagebuf.nowpage }
      { s with pagemap := s.pagemap.insert id pagebuf }.mergePage id 0

/-- `SaveInMap` and, for a page that has been kept, `MergePage`. -/
def saveAndMerge (s : PageManager) (buffer : Length) (urlnode : UrlNode) : Option PageManager := do
  let (ret, s) ← s.saveInMap buffer urlnode
  if ret = 1 then s.mergePage urlnode.id buffer.bytes else return s

/-- What does not go into the map is written to the database at once. -/
def savePage (s : PageManager) (urlnode : UrlNode) (buffer : Length) (findInDb : Bool) :
    Option PageManager :=
  if findInDb then some s
  else if s.findInMap urlnode.id then
    if 1 < urlnode.nextpage then
      let (ret, s) := s.increaseTotalBufSize (.ofNat buffer.bytes)
      if 0 < ret then (s.saveInMap buffer urlnode).map (·.2) else s.saveAndMerge buffer urlnode
    else s.saveAndMerge buffer urlnode
  else
    if 1 < urlnode.nextpage then
      let (ret, s) := s.increaseTotalBufSize (.ofNat buffer.bytes)
      if 0 < ret then (s.saveInMap buffer urlnode).map (·.2) else some s
    else some s

end PageManager

/-- The calls, with the buffer made of the page and the answer of the database. -/
inductive PageCall
  | savePage (urlnode : UrlNode) (buffer : Length) (findInDb : Bool)
  | mergePage (id : UInt64) (lastcontentlen : Int32)
  | erasecontentMap (id : UInt64)
  | altermaptotalpageforced (id : UInt64)

def PageManager.call (s : PageManager) : PageCall → Option PageManager
  | .savePage urlnode buffer findInDb => s.savePage urlnode buffer findInDb
  | .mergePage id lastcontentlen => s.mergePage id lastcontentlen.toInt
  | .erasecontentMap id => some (s.erasecontentMap id)
  | .altermaptotalpageforced id => s.altermaptotalpageforced id

namespace PageManager

/-- The bytes of all records in the map. -/
def bytes (s : PageManager) : ℕ := weight (fun pagebuf => pagebuf.totallength.bytes) s.pagemap

/-- The counter says what the map holds, and that is below the limit. -/
structure Accounted (s : PageManager) : Prop where
  exact : s.totalpagebufsize.toNat = s.bytes
  within : s.bytes < maxpagebufsize.toNat

/-- The bytes of one record. -/
def held (s : PageManager) (id : UInt64) : ℕ :=
  (s.pagemap.lookup id).elim 0 fun pagebuf => pagebuf.totallength.bytes

/-- The bytes of the other records. -/
def others (s : PageManager) (id : UInt64) : ℕ :=
  weight (fun pagebuf => pagebuf.totallength.bytes) (s.pagemap.erase id)

/-- The page is in the map already. -/
def Stored (s : PageManager) (urlnode : UrlNode) : Prop :=
  ∃ pagebuf slot, s.pagemap.lookup urlnode.id = some pagebuf ∧ pageSlot urlnode.page = some slot ∧
    pagebuf.pages slot ≠ none

variable {s s' : PageManager} {id : UInt64} {buffer : Length} {urlnode : UrlNode}
  {pagebuf : PageBuf}

theorem bytes_eq (s : PageManager) (id : UInt64) : s.bytes = s.held id + s.others id := by
  unfold bytes held others
  cases here : s.pagemap.lookup id with
  | none =>
      rw [erase_of_lookup_none here]
      exact (Nat.zero_add _).symm
  | some pagebuf => exact weight_erase _ here

theorem held_of_lookup (here : s.pagemap.lookup id = some pagebuf) :
    s.held id = pagebuf.totallength.bytes := by
  unfold held
  rw [here]
  rfl

theorem Accounted.total_lt (acc : s.Accounted) : s.totalpagebufsize.toNat < 12288000 := by
  have within : s.bytes < 12288000 := acc.within
  rw [acc.exact]
  exact within

theorem Accounted.held_le (acc : s.Accounted) (id : UInt64) :
    s.held id ≤ s.totalpagebufsize.toNat := by
  rw [acc.exact, s.bytes_eq id]
  exact Nat.le_add_right ..

/-! ### The parts of the operations -/

/-- With room, the counter goes up, and the result is above 0 unless there is nothing to count. -/
theorem increase_of_room (buffer : Length)
    (room : s.totalpagebufsize.toNat + buffer.bytes < 12288000) :
    ∃ ret, s.increaseTotalBufSize (.ofNat buffer.bytes) =
        (ret, { s with totalpagebufsize := s.totalpagebufsize + .ofNat buffer.bytes }) ∧
      (s.totalpagebufsize + .ofNat buffer.bytes).toNat =
        s.totalpagebufsize.toNat + buffer.bytes ∧
      (0 < ret ↔ 0 < s.totalpagebufsize.toNat + buffer.bytes) := by
  have sum : (s.totalpagebufsize + UInt64.ofNat buffer.bytes).toNat =
      s.totalpagebufsize.toNat + buffer.bytes := by
    rw [UInt64.toNat_add, UInt64.toNat_ofNat']
    omega
  have below : s.totalpagebufsize + UInt64.ofNat buffer.bytes < maxpagebufsize := by
    rw [UInt64.lt_iff_toNat_lt, sum]
    exact room
  unfold increaseTotalBufSize
  rw [if_pos below]
  refine ⟨_, rfl, sum, ?_⟩
  rw [Int32.lt_iff_toInt_lt]
  generalize s.totalpagebufsize + UInt64.ofNat buffer.bytes = total at *
  rw [← sum]
  have small : total.toUInt32.toInt32.toInt = total.toNat := by
    have bits : total.toUInt32.toInt32.toInt = total.toUInt32.toBitVec.toInt := rfl
    have low : total.toUInt32.toBitVec.toNat = total.toNat := by
      change total.toUInt32.toNat = _
      rw [UInt64.toNat_toUInt32]
      omega
    rw [bits, BitVec.toInt_eq_toNat_of_lt (by omega), low]
  rw [small]
  simp

/-- Without room nothing happens. -/
theorem increase_of_full (acc : s.Accounted) (buffer : Length)
    (full : 12288000 ≤ s.totalpagebufsize.toNat + buffer.bytes) :
    s.increaseTotalBufSize (.ofNat buffer.bytes) = (-1, s) := by
  have fits := buffer.fits
  have low := acc.total_lt
  have sum : (s.totalpagebufsize + UInt64.ofNat buffer.bytes).toNat =
      s.totalpagebufsize.toNat + buffer.bytes := by
    rw [UInt64.toNat_add, UInt64.toNat_ofNat']
    omega
  unfold increaseTotalBufSize
  apply if_neg
  rw [UInt64.lt_iff_toNat_lt, sum]
  exact Nat.not_lt.mpr full

theorem length_addPage {slot : PageSlot} {nextpage : Int32}
    {pagebuf' : PageBuf} (run : pagebuf.addPage slot buffer nextpage = some pagebuf') :
    pagebuf'.totallength.bytes = pagebuf.totallength.bytes + buffer.bytes := by
  obtain ⟨totalpage, -, run⟩ := Option.bind_eq_some_iff.mp run
  obtain ⟨nowpage, -, run⟩ := Option.bind_eq_some_iff.mp run
  obtain ⟨totallength, sum, run⟩ := Option.bind_eq_some_iff.mp run
  cases run
  unfold Length.add at sum
  split_ifs at sum
  cases sum
  rfl

/-- What becomes of a page that is kept, or is there already. -/
theorem saveInMap_cases {ret : Int32} (run : s.saveInMap buffer urlnode = some (ret, s')) :
    (ret = 0 ∧ s' = s ∧ s.Stored urlnode) ∨
    (ret = 1 ∧ ¬ s.Stored urlnode ∧ s'.totalpagebufsize = s.totalpagebufsize ∧
      (s'.pagemap.lookup urlnode.id).isSome = true ∧
      s'.held urlnode.id = s.held urlnode.id + buffer.bytes ∧
      s'.others urlnode.id = s.others urlnode.id) := by
  unfold saveInMap at run
  obtain ⟨slot, place, run⟩ := Option.bind_eq_some_iff.mp run
  cases here : s.pagemap.lookup urlnode.id with
  | none =>
      rw [here] at run
      cases run
      right
      refine ⟨rfl, ?_, rfl, ?_, ?_, ?_⟩
      · rintro ⟨pagebuf, -, found, -⟩
        rw [here] at found
        cases found
      · rw [AList.lookup_insert]
        rfl
      · unfold held
        rw [here, AList.lookup_insert]
        exact (Nat.zero_add _).symm
      · unfold others
        rw [erase_insert]
  | some pagebuf =>
      rw [here] at run
      dsimp only at run
      split_ifs at run with free
      · obtain ⟨pagebuf', added, run⟩ := Option.bind_eq_some_iff.mp run
        cases run
        right
        refine ⟨rfl, ?_, rfl, ?_, ?_, ?_⟩
        · rintro ⟨found, slot', same, place', taken⟩
          rw [here] at same
          rw [place] at place'
          cases same
          cases place'
          exact taken free
        · rw [AList.lookup_insert]
          rfl
        · rw [held_of_lookup here, held_of_lookup (AList.lookup_insert _)]
          exact length_addPage added
        · unfold others
          rw [erase_insert]
      · cases run
        exact Or.inl ⟨rfl, rfl, pagebuf, slot, here, place, free⟩

/-- A record that leaves takes its bytes along, less those said to be uncounted. -/
theorem mergePage_eq {lastcontentlen : ℤ} (here : (s.pagemap.lookup id).isSome = true)
    (run : s.mergePage id lastcontentlen = some s') :
    s'.totalpagebufsize = s.totalpagebufsize - .ofInt (s.held id - lastcontentlen) ∧
      s'.bytes = s.others id := by
  obtain ⟨pagebuf, found⟩ := Option.isSome_iff_exists.mp here
  unfold mergePage at run
  rw [found] at run
  obtain ⟨decrease, sum, run⟩ := Option.bind_eq_some_iff.mp run
  cases run
  unfold intSum at sum
  split_ifs at sum
  cases sum
  refine ⟨?_, rfl⟩
  unfold decreaseTotalBufSize
  rw [held_of_lookup found, Int.sub_eq_add_neg]

theorem mergePage_range {lastcontentlen : ℤ} (here : (s.pagemap.lookup id).isSome = true)
    (run : s.mergePage id lastcontentlen = some s') :
    -2 ^ 31 ≤ s.held id - lastcontentlen ∧ s.held id - lastcontentlen < 2 ^ 31 := by
  obtain ⟨pagebuf, found⟩ := Option.isSome_iff_exists.mp here
  unfold mergePage at run
  rw [found] at run
  obtain ⟨decrease, sum, -⟩ := Option.bind_eq_some_iff.mp run
  unfold intSum at sum
  split_ifs at sum with range
  rw [held_of_lookup found]
  exact range

/-! ### The operations -/

theorem ofInt_natCast (n : ℕ) (fits : n < 2 ^ 64) : UInt64.ofInt (n : ℤ) = .ofNat n := by
  unfold UInt64.ofInt
  congr 1
  omega

theorem toNat_sub_ofInt (a : UInt64) (z : ℤ) :
    ((a - .ofInt z).toNat : ℤ) = (a.toNat - z) % 2 ^ 64 := by
  have digits : ((UInt64.ofInt z).toNat : ℤ) = z % 2 ^ 64 := by
    unfold UInt64.ofInt
    rw [UInt64.toNat_ofNat']
    omega
  have whole := (UInt64.ofInt z).toNat_lt
  rw [UInt64.toNat_sub]
  omega

/-- A record that leaves has to take exactly the bytes along that have been counted for it. -/
theorem Accounted.remove_iff {z : ℤ} (acc : s.Accounted) (small : -2 ^ 31 ≤ z ∧ z < 2 ^ 31)
    (total : s'.totalpagebufsize = s.totalpagebufsize - .ofInt z) (bytes : s'.bytes = s.others id) :
    s'.Accounted ↔ z = s.held id := by
  have low := acc.total_lt
  have whole := s.bytes_eq id
  have exact' := acc.exact
  have left := toNat_sub_ofInt s.totalpagebufsize z
  rw [← total] at left
  constructor
  · rintro ⟨same, -⟩
    omega
  · intro same
    have within : s.bytes < 12288000 := acc.within
    refine ⟨by omega, ?_⟩
    change s'.bytes < 12288000
    omega

theorem Accounted.saveAndMerge (acc : s.Accounted)
    (run : s.saveAndMerge buffer urlnode = some s') : s'.Accounted := by
  obtain ⟨⟨ret, s₁⟩, saved, rest⟩ := Option.bind_eq_some_iff.mp run
  rcases saveInMap_cases saved with ⟨rfl, rfl, -⟩ | ⟨rfl, -, total, here, held, others⟩
  · cases rest
    exact acc
  · obtain ⟨left, bytes⟩ := mergePage_eq here rest
    have counted : (s₁.held urlnode.id : ℤ) - buffer.bytes = s.held urlnode.id := by
      rw [held]
      omega
    rw [counted, total] at left
    have low := acc.total_lt
    have part := acc.held_le urlnode.id
    exact (acc.remove_iff (by omega) left (bytes.trans others)).mpr rfl

/-- A counted page is accounted for, unless it has been there already. -/
theorem Accounted.saveInMap_iff {ret : Int32} (acc : s.Accounted)
    (room : s.totalpagebufsize.toNat + buffer.bytes < 12288000)
    (sum : (s.totalpagebufsize + .ofNat buffer.bytes).toNat =
      s.totalpagebufsize.toNat + buffer.bytes)
    (run : saveInMap { s with totalpagebufsize := s.totalpagebufsize + .ofNat buffer.bytes } buffer
      urlnode = some (ret, s')) :
    s'.Accounted ↔ ¬ (s.Stored urlnode ∧ buffer.bytes ≠ 0) := by
  have exact' := acc.exact
  rcases saveInMap_cases run with ⟨-, rfl, stored⟩ | ⟨-, absent, total, -, held, others⟩
  · constructor
    · rintro ⟨same, -⟩ ⟨-, some⟩
      have bytes : bytes { s with totalpagebufsize := s.totalpagebufsize + .ofNat buffer.bytes } =
        s.bytes := rfl
      rw [bytes] at same
      dsimp only at same
      omega
    · intro small
      have none : buffer.bytes = 0 := by
        by_contra some
        exact small ⟨stored, some⟩
      refine ⟨?_, acc.within⟩
      change (s.totalpagebufsize + .ofNat buffer.bytes).toNat = s.bytes
      omega
  · have whole : s'.bytes = s.bytes + buffer.bytes := by
      rw [s'.bytes_eq urlnode.id, held, others, s.bytes_eq urlnode.id]
      have same : PageManager.held { s with totalpagebufsize := s.totalpagebufsize + .ofNat buffer.bytes }
        urlnode.id = s.held urlnode.id := rfl
      have same' : PageManager.others
        { s with totalpagebufsize := s.totalpagebufsize + .ofNat buffer.bytes } urlnode.id =
          s.others urlnode.id := rfl
      rw [same, same']
      omega
    refine iff_of_true ⟨?_, ?_⟩ ?_
    · rw [total, whole]
      dsimp only
      omega
    · rw [whole]
      change _ < 12288000
      omega
    · rintro ⟨stored, -⟩
      exact absent stored

/-- A page of a record in the map that is there already, has a successor, and finds room. -/
def Repeats (s : PageManager) (urlnode : UrlNode) (buffer : Length) : Prop :=
  1 < urlnode.nextpage ∧ s.totalpagebufsize + .ofNat buffer.bytes < maxpagebufsize ∧
    s.Stored urlnode ∧ buffer.bytes ≠ 0

/-- Counting a page first and then keeping it, or else going on as `rest` does. -/
theorem Accounted.count_iff {rest : PageManager → Option PageManager} (acc : s.Accounted)
    (keeps : ∀ t, t.Accounted → rest t = some s' → s'.Accounted)
    (run : (if 0 < (s.increaseTotalBufSize (.ofNat buffer.bytes)).1 then
        ((s.increaseTotalBufSize (.ofNat buffer.bytes)).2.saveInMap buffer urlnode).map (·.2)
      else rest (s.increaseTotalBufSize (.ofNat buffer.bytes)).2) = some s') :
    s'.Accounted ↔ ¬ (s.totalpagebufsize + .ofNat buffer.bytes < maxpagebufsize ∧
      s.Stored urlnode ∧ buffer.bytes ≠ 0) := by
  have fits := buffer.fits
  have low := acc.total_lt
  have total : (s.totalpagebufsize + UInt64.ofNat buffer.bytes).toNat =
      s.totalpagebufsize.toNat + buffer.bytes := by
    rw [UInt64.toNat_add, UInt64.toNat_ofNat']
    omega
  have below : s.totalpagebufsize + UInt64.ofNat buffer.bytes < maxpagebufsize ↔
      s.totalpagebufsize.toNat + buffer.bytes < 12288000 := by
    rw [UInt64.lt_iff_toNat_lt, total]
    rfl
  rw [below]
  by_cases room : s.totalpagebufsize.toNat + buffer.bytes < 12288000
  · obtain ⟨ret, result, sum, positive⟩ := increase_of_room buffer room
    rw [result] at run
    dsimp only at run
    split_ifs at run with counted
    · obtain ⟨⟨ret', s₁⟩, saved, same⟩ := Option.map_eq_some_iff.mp run
      cases same
      rw [acc.saveInMap_iff room sum saved, and_iff_right room]
    · -- nothing is counted for an empty page
      rw [positive, Nat.not_lt, Nat.le_zero, Nat.add_eq_zero_iff] at counted
      have same : s.totalpagebufsize + .ofNat buffer.bytes = s.totalpagebufsize := by
        apply UInt64.toNat_inj.mp
        omega
      rw [same] at run
      exact iff_of_true (keeps s acc run) fun h => h.2.2 counted.2
  · rw [increase_of_full acc buffer (Nat.not_lt.mp room), if_neg (by dsimp only; decide)] at run
    exact iff_of_true (keeps s acc run) fun h => room h.1

theorem Accounted.savePage_iff {findInDb : Bool} (acc : s.Accounted)
    (run : s.savePage urlnode buffer findInDb = some s') :
    s'.Accounted ↔ ¬ (findInDb = false ∧ s.Repeats urlnode buffer) := by
  unfold savePage at run
  unfold Repeats
  cases findInDb with
  | true =>
      cases run
      exact iff_of_true acc fun h => nomatch h.1
  | false =>
      rw [if_neg Bool.false_ne_true] at run
      rw [and_iff_right rfl]
      by_cases more : 1 < urlnode.nextpage
      · rw [if_pos more, if_pos more] at run
        rw [and_iff_right more]
        split_ifs at run
        · have keeps : ∀ t : PageManager, t.Accounted → t.saveAndMerge buffer urlnode = some s' →
              s'.Accounted := fun t held rest => held.saveAndMerge rest
          exact acc.count_iff keeps run
        · have keeps : ∀ t : PageManager, t.Accounted → some t = some s' → s'.Accounted := by
            intro t held same
            cases same
            exact held
          exact acc.count_iff keeps run
      · rw [if_neg more, if_neg more] at run
        refine iff_of_true ?_ fun h => more h.1
        split_ifs at run
        · exact acc.saveAndMerge run
        · cases run
          exact acc

theorem Accounted.mergePage_iff {lastcontentlen : Int32} (acc : s.Accounted)
    (run : s.mergePage id lastcontentlen.toInt = some s') :
    s'.Accounted ↔ (s.findInMap id = true → lastcontentlen = 0) := by
  by_cases here : s.findInMap id = true
  · obtain ⟨total, bytes⟩ := mergePage_eq here run
    have low := acc.total_lt
    have part := acc.held_le id
    have range := mergePage_range here run
    rw [acc.remove_iff range total bytes]
    constructor
    · intro same _
      apply Int32.toInt_inj.mp
      rw [Int32.toInt_zero]
      omega
    · intro none
      rw [none here, Int32.toInt_zero, Int.sub_zero]
  · have same : s' = s := by
      have absent : s.pagemap.lookup id = none := by simpa [findInMap] using here
      unfold mergePage at run
      rw [absent] at run
      cases run
      rfl
    rw [same]
    exact iff_of_true acc fun h => absurd h here

theorem Accounted.erasecontentMap (acc : s.Accounted) (id : UInt64) :
    (s.erasecontentMap id).Accounted := by
  unfold PageManager.erasecontentMap
  cases here : s.pagemap.lookup id with
  | none => exact acc
  | some pagebuf =>
      have fits := pagebuf.totallength.fits
      dsimp only
      have bytes : ({ s with pagemap := s.pagemap.erase id }.decreaseTotalBufSize
          (.ofNat pagebuf.totallength.bytes)).bytes = s.others id := rfl
      apply (acc.remove_iff (z := pagebuf.totallength.bytes) (by omega) ?_ bytes).mpr
      · rw [held_of_lookup here]
      · rw [ofInt_natCast _ (by omega)]
        rfl

theorem Accounted.altermaptotalpageforced (acc : s.Accounted)
    (run : s.altermaptotalpageforced id = some s') : s'.Accounted := by
  unfold PageManager.altermaptotalpageforced at run
  cases here : s.pagemap.lookup id with
  | none =>
      rw [here] at run
      cases run
      exact acc
  | some pagebuf =>
      rw [here] at run
      dsimp only at run
      obtain ⟨total, bytes⟩ := mergePage_eq (by rw [AList.lookup_insert]; rfl) run
      have fits := pagebuf.totallength.fits
      have left : s'.bytes = s.others id := by
        rw [bytes]
        unfold others
        rw [erase_insert]
      apply (acc.remove_iff (z := pagebuf.totallength.bytes) (by omega) ?_ left).mpr
      · rw [held_of_lookup here]
      · rw [total, held_of_lookup (AList.lookup_insert _), Int.sub_zero]

end PageManager

/-- The calls after which the counter is as it was. -/
def PageCall.Meets (s : PageManager) : PageCall → Prop
  | .savePage urlnode buffer findInDb => ¬ (findInDb = false ∧ s.Repeats urlnode buffer)
  | .mergePage id lastcontentlen => s.findInMap id = true → lastcontentlen = 0
  | .erasecontentMap _ | .altermaptotalpageforced _ => True

namespace PageManager

theorem Accounted.call_iff {s s' : PageManager} {c : PageCall} (acc : s.Accounted)
    (run : s.call c = some s') : s'.Accounted ↔ c.Meets s := by
  cases c with
  | savePage urlnode buffer findInDb => exact acc.savePage_iff run
  | mergePage id lastcontentlen => exact acc.mergePage_iff run
  | erasecontentMap id =>
      cases run
      exact iff_of_true (acc.erasecontentMap id) trivial
  | altermaptotalpageforced id => exact iff_of_true (acc.altermaptotalpageforced run) trivial

theorem Accounted.new : new.Accounted := ⟨rfl, by decide⟩

end PageManager

/-- The counter stays exact exactly if no call counts a page that is there already, and none takes a
record out of the map as if part of it had not been counted. -/
theorem page_bytes_accounted_iff (calls : List PageCall) :
    Always PageManager.call PageManager.Accounted .new calls ↔
      Each PageManager.call (fun s c => c.Meets s) .new calls := by
  apply always_iff_each
  · intro s c s' acc run
    exact acc.call_iff run
  · exact PageManager.Accounted.new

/-- A record with nothing in its texts, for one of its pages. -/
def pageNode (id : UInt64) (page nextpage : Int32) : UrlNode :=
  let url : CharArray maxUrlLen := ⟨[], List.not_mem_nil, Nat.succ_pos 1023⟩
  let title : CharArray maxTitleLen := ⟨[], List.not_mem_nil, Nat.succ_pos 127⟩
  { url, fatherurl := url, title, topicsource := title, taskid := 1, type := 0, errornum := 0, id,
    page, maxtype := -1, layerid := 1, bbsid := -1, needtologin := false, redirectnum := 0,
    taskbatch := 0, keyid := 0, searchid := 0, nextpage, totalpage := 1, fetchedPage := 0,
    onepage := ⟨[], List.not_mem_nil, Nat.succ_pos 31⟩, ipnum := 0, sqliteId := 0 }

/-- The first of two pages, of 100 bytes. -/
def firstPage : PageCall := .savePage (pageNode 7 1 2) ⟨100, by decide⟩ false

/-- The first page comes twice, and is counted twice. -/
theorem page_bytes_not_accounted :
    ¬ ∀ calls : List PageCall, Always PageManager.call PageManager.Accounted .new calls := by
  intro all
  have result : ((PageManager.new.call firstPage).bind fun s => (s.call firstPage).map fun s =>
      (s.totalpagebufsize.toNat, s.bytes)) = some (200, 100) := by
    decide +kernel
  obtain ⟨s, first, result⟩ := Option.bind_eq_some_iff.mp result
  obtain ⟨t, second, counted⟩ := Option.map_eq_some_iff.mp result
  obtain ⟨-, rest⟩ := all [firstPage, firstPage]
  obtain ⟨-, last⟩ := rest s first
  have exact' := (last t second).exact
  rw [Prod.mk.injEq] at counted
  omega

end BloomServer
