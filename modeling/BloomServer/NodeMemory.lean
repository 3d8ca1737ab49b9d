import BloomServer.Library.ByteFields
import BloomServer.UrlNode

/-! A `UrlNode` as the bytes of its memory: what its constructors and setters leave in it, and what
`serialize` reads of it for the buffer of `sizeof(UrlNode)` bytes that a spilled node goes through. -/
namespace BloomServer
open ByteFile ByteCodec

/-! The offsets of the members, for pointers of 8 bytes and a `std::string` that is one. -/

def offsetUrl : ℕ := 0
def offsetUsername : ℕ := 1024
def offsetFatherurl : ℕ := 1152
def offsetRefererurl : ℕ := 2176
def offsetTitle : ℕ := 3200
def offsetTopicsource : ℕ := 3328
def offsetOnepage : ℕ := 3612
def sizeofUrlNode : ℕ := 3656

/-- The members that are no text. -/
inductive NodeNumber
  | taskid | type | errornum | id | page | maxtype | layerid | bbsid | needtologin | redirectnum
  | taskbatch | nextpage | ipnum | nowpage | totalpage | keyid | searchid | fetchedPage | sqliteId

namespace NodeNumber

def offset : NodeNumber → ℕ
  | taskid => 3456
  | type => 3472
  | errornum => 3476
  | id => 3480
  | page => 3488
  | maxtype => 3492
  | layerid => 3496
  | bbsid => 3500
  | needtologin => 3504
  | redirectnum => 3505
  | taskbatch => 3508
  | nextpage => 3520
  | ipnum => 3524
  | nowpage => 3576
  | totalpage => 3580
  | keyid => 3592
  | searchid => 3600
  | fetchedPage => 3608
  | sqliteId => 3648

def width : NodeNumber → ℕ
  | errornum | needtologin | redirectnum => 1
  | id | keyid | searchid | sqliteId => 8
  | _ => 4

end NodeNumber

/-- The text in an array; none if there is no NUL in it, so that `strlen` goes on behind it. -/
def charsAt (f : ByteFile) (offset size : ℕ) : Option (CharArray size) :=
  let chars := (f.pread size offset).takeWhile (· != 0)
  if fits : chars.length < size then some ⟨chars, noNul_takeWhile _, fits⟩ else none

def intAt (f : ByteFile) (m : NodeNumber) : Int32 := (UInt32.ofNat (f.number m.offset 4)).toInt32
def charAt (f : ByteFile) (m : NodeNumber) : Int8 := (UInt8.ofNat (f.number m.offset 1)).toInt8
def longAt (f : ByteFile) (m : NodeNumber) : Int64 := (UInt64.ofNat (f.number m.offset 8)).toInt64

/-- The members that are serialized, if every text ends in its array. -/
def nodeAt (f : ByteFile) : Option UrlNode := do
  let url ← charsAt f offsetUrl maxUrlLen
  let fatherurl ← charsAt f offsetFatherurl maxUrlLen
  let title ← charsAt f offsetTitle maxTitleLen
  let topicsource ← charsAt f offsetTopicsource maxTitleLen
  let onepage ← charsAt f offsetOnepage 32
  return { url, fatherurl, title, topicsource, onepage
           taskid := intAt f .taskid
           type := intAt f .type
           errornum := charAt f .errornum
           id := (longAt f .id).toUInt64
           page := intAt f .page
           maxtype := intAt f .maxtype
           layerid := intAt f .layerid
           bbsid := intAt f .bbsid
           needtologin := charAt f .needtologin ≠ 0
           redirectnum := charAt f .redirectnum
           taskbatch := intAt f .taskbatch
           keyid := longAt f .keyid
           searchid := longAt f .searchid
           nextpage := intAt f .nextpage
           totalpage := intAt f .totalpage
           fetchedPage := intAt f .fetchedPage
           ipnum := intAt f .ipnum
           sqliteId := longAt f .sqliteId }

/-- What `serialize` writes into the buffer. -/
def serializeAt (f : ByteFile) : Option (List UInt8) := (nodeAt f).map fun u => (u.serialize []).2

/-! ### Setters -/

/-- A copy into the array at an offset. Of a text that is longer than `longest`, `keep` bytes are taken
and the NUL is set behind `longest`. -/
def copyText (f : ByteFile) (offset longest keep : ℕ) (text : CString) : ByteFile :=
  if longest < text.length then (f.pwrite (text.take keep) offset).pwrite [0] (offset + longest)
  else f.pwrite (text ++ [0]) offset

def copyurl (f : ByteFile) (url : CString) : ByteFile :=
  copyText f offsetUrl (maxUrlLen - 1) (maxUrlLen - 1) url

/-- The array has 128 bytes. -/
def copyusername (f : ByteFile) (username : CString) : ByteFile :=
  copyText f offsetUsername (maxUrlLen - 1) (128 - 1) username

def copyfatherurl (f : ByteFile) (fatherurl : CString) : ByteFile :=
  copyText f offsetFatherurl (maxUrlLen - 1) (maxUrlLen - 1) fatherurl

def copyrefererurl (f : ByteFile) (refererurl : CString) : ByteFile :=
  copyText f offsetRefererurl (maxUrlLen - 10) (maxUrlLen - 10) refererurl

def copytitle (f : ByteFile) (title : CString) : ByteFile :=
  copyText f offsetTitle (maxTitleLen - 1) (maxTitleLen - 1) title

def copytopicsource (f : ByteFile) (topicsource : CString) : ByteFile :=
  copyText f offsetTopicsource (maxTitleLen - 1) (maxTitleLen - 1) topicsource

def assign (f : ByteFile) (m : NodeNumber) (value : ℕ) : ByteFile := f.put m.offset m.width value

/-- A copy or an assignment. `copyother` allocates, and of the members here it sets `maxtype` only. -/
inductive NodeStep
  | copyurl (url : CString)
  | copyusername (username : CString)
  | copyfatherurl (fatherurl : CString)
  | copyrefererurl (refererurl : CString)
  | copytitle (title : CString)
  | copytopicsource (topicsource : CString)
  | assign (m : NodeNumber) (value : ℕ)

def NodeStep.run (f : ByteFile) : NodeStep → ByteFile
  | .copyurl url => BloomServer.copyurl f url
  | .copyusername username => BloomServer.copyusername f username
  | .copyfatherurl fatherurl => BloomServer.copyfatherurl f fatherurl
  | .copyrefererurl refererurl => BloomServer.copyrefererurl f refererurl
  | .copytitle title => BloomServer.copytitle f title
  | .copytopicsource topicsource => BloomServer.copytopicsource f topicsource
  | .assign m value => BloomServer.assign f m value

/-! ### Constructors -/

/-- `-1` in four bytes. -/
def minusOne : ℕ := 2 ^ 32 - 1

/-- `UrlNode()`. `keyid` and `searchid` are left as they are, and so is `onepage`. -/
def newNode (f : ByteFile) : ByteFile :=
  let f := f.pwrite [0] offsetUrl
  let f := f.pwrite [0] offsetUsername
  let f := assign f .taskid 0
  let f := assign f .type 0
  let f := assign f .errornum 0
  let f := assign f .id 0
  let f := assign f .page 1
  let f := assign f .maxtype minusOne
  let f := assign f .layerid 1
  let f := assign f .bbsid minusOne
  let f := assign f .needtologin 0
  let f := assign f .redirectnum 0
  let f := f.pwrite [0] offsetFatherurl
  let f := f.pwrite [0] offsetRefererurl
  let f := assign f .taskbatch minusOne
  let f := f.pwrite [0] offsetTitle
  let f := f.pwrite [0] offsetTopicsource
  let f := assign f .ipnum 0
  let f := assign f .nextpage 1
  let f := assign f .fetchedPage 0
  let f := assign f .sqliteId 0
  let f := assign f .nowpage 1
  assign f .totalpage 1

/-- What the other constructor is handed, with the number of its task. -/
structure NodeArgs where
  topicsource : Option CString
  title : Option CString
  taskbatch : ℕ
  fatherurl : CString
  url : CString
  maxtype : ℕ
  type : ℕ
  errornum : ℕ
  id : ℕ
  redirectnum : ℕ
  page : ℕ
  layerid : ℕ
  bbsid : ℕ
  needtologin : ℕ
  taskid : ℕ

/-- `UrlNode(Task *, ...)`. Besides `onepage`, six numbers are left as they are. -/
def newNodeOf (f : ByteFile) (a : NodeArgs) : ByteFile :=
  let f := copyurl f a.url
  let f := copyfatherurl f a.fatherurl
  let f := a.title.elim (f.pwrite [0] offsetTitle) (copytitle f)
  let f := a.topicsource.elim (f.pwrite [0] offsetTopicsource) (copytopicsource f)
  let f := assign f .maxtype a.maxtype
  let f := assign f .taskid a.taskid
  let f := assign f .type a.type
  let f := assign f .errornum a.errornum
  let f := assign f .id a.id
  let f := assign f .page a.page
  let f := assign f .layerid a.layerid
  let f := assign f .needtologin a.needtologin
  let f := assign f .redirectnum a.redirectnum
  let f := assign f .taskbatch a.taskbatch
  let f := assign f .bbsid a.bbsid
  let f := assign f .nextpage 1
  let f := assign f .ipnum 0
  let f := f.pwrite [0] offsetRefererurl
  f.pwrite [0] offsetUsername

/-- A constructor. -/
inductive NodeStart
  | new
  | of (a : NodeArgs)

def NodeStart.run (f : ByteFile) : NodeStart → ByteFile
  | .new => newNode f
  | .of a => newNodeOf f a

/-- The node in this memory after a constructor and further steps. -/
def buildNode (f : ByteFile) (start : NodeStart) (steps : List NodeStep) : ByteFile :=
  steps.foldl NodeStep.run (start.run f)

/-- `serialize` keeps within the arrays that it reads, and within the buffer. -/
def SerializesWithin (f : ByteFile) : Prop := ∃ bytes ∈ serializeAt f, bytes.length ≤ sizeofUrlNode

/-! ### Texts that end in their arrays -/

/-- There is a NUL in the array. -/
def TextEnds (f : ByteFile) (offset size : ℕ) : Prop := ∃ i < size, f.bytes (offset + i) = 0

section Texts

variable {f : ByteFile} {offset size : ℕ}

theorem charsAt_isSome_iff (inside : offset + size ≤ f.size) :
    (charsAt f offset size).isSome ↔ TextEnds f offset size := by
  have length := length_pread inside
  have split := List.takeWhile_append_dropWhile (p := (· != 0)) (l := f.pread size offset)
  have sum := congrArg List.length split
  rw [List.length_append, length] at sum
  have byte (i : ℕ) (low : i < size) : (f.pread size offset)[i]? = some (f.bytes (offset + i)) := by
    have there := (at_pread inside).bytes i
    rw [List.getElem?_eq_getElem (by rwa [length])] at there ⊢
    rw [there _ rfl]
  unfold charsAt
  dsimp only
  split_ifs with fits
  · refine iff_of_true rfl ⟨_, fits, ?_⟩
    have rest : (f.pread size offset).dropWhile (· != 0) ≠ [] := by
      intro none
      rw [none, List.length_nil] at sum
      omega
    have stop := List.head_dropWhile_not (fun b : UInt8 => b != 0) rest
    obtain ⟨c, l, shape⟩ := List.exists_cons_of_ne_nil rest
    simp only [shape, List.head_cons] at stop
    have place := byte _ fits
    rw [← split, shape, List.getElem?_append_right (Nat.le_of_eq (by rw [← shape, split])), ← shape,
      split, Nat.sub_self, shape, List.getElem?_cons_zero] at place
    rw [← Option.some.inj place]
    simpa using stop
  · refine iff_of_false (by simp) ?_
    rintro ⟨i, low, nul⟩
    have whole : (f.pread size offset).takeWhile (· != 0) = f.pread size offset := by
      apply List.IsPrefix.eq_of_length_le (List.takeWhile_prefix _)
      rw [length]
      exact Nat.le_of_not_lt fits
    have mem := List.mem_of_getElem? (byte i low)
    rw [← whole] at mem
    have shown := List.mem_takeWhile_imp mem
    rw [nul] at shown
    cases shown

variable {start longest keep i : ℕ} {text : CString}

/-- A copy writes up to its NUL. -/
theorem bytes_copyText (short : keep ≤ longest)
    (outside : i < start ∨ start + min text.length longest < i) :
    (copyText f start longest keep text).bytes i = f.bytes i := by
  unfold copyText
  split_ifs with long
  · rw [bytes_pwrite (by rw [List.length_singleton]; omega),
      bytes_pwrite (by rw [List.length_take]; omega)]
  · rw [bytes_pwrite (by rw [List.length_append, List.length_singleton]; omega)]

theorem nul_copyText : (copyText f start longest keep text).bytes (start + min text.length longest) = 0 := by
  unfold copyText
  split_ifs with long
  · have stop : min text.length longest = longest := Nat.min_eq_right long.le
    rw [stop, pwrite]
    dsimp only
    rw [if_pos (Nat.le_refl _), Nat.sub_self]
    rfl
  · have stop : min text.length longest = text.length := Nat.min_eq_left (Nat.le_of_not_lt long)
    rw [stop, pwrite]
    dsimp only
    rw [if_pos (Nat.le_add_right _ _), Nat.add_sub_cancel_left,
      List.getElem?_append_right (Nat.le_refl _), Nat.sub_self]
    rfl

/-- A copy that runs over into an array leaves its NUL there. -/
theorem TextEnds.copyText (ends : TextEnds f offset size) (short : keep ≤ longest)
    (place : start + longest < offset + size ∨ offset + size ≤ start) :
    TextEnds (BloomServer.copyText f start longest keep text) offset size := by
  obtain ⟨i, low, nul⟩ := ends
  have stop := Nat.min_le_right text.length longest
  by_cases across : offset ≤ start + min text.length longest ∧
      start + min text.length longest < offset + size
  · refine ⟨start + min text.length longest - offset, by omega, ?_⟩
    rw [Nat.add_sub_cancel' across.1, nul_copyText]
  · exact ⟨i, low, by rw [bytes_copyText short (by omega), nul]⟩

theorem size_copyText (short : keep ≤ longest) (inside : start + longest < f.size) :
    (copyText f start longest keep text).size = f.size := by
  unfold copyText
  split_ifs with long
  · have first : start + (text.take keep).length ≤ f.size := by
      rw [List.length_take]
      omega
    rw [size_pwrite_inside, size_pwrite_inside first]
    rw [size_pwrite_inside first]
    exact inside
  · apply size_pwrite_inside
    rw [List.length_append, List.length_singleton]
    omega

end Texts

/-! ### What every step keeps -/

/-- The arrays of the texts that are serialized, but for `onepage`. -/
def serializedTexts : List (ℕ × ℕ) :=
  [(offsetUrl, maxUrlLen), (offsetFatherurl, maxUrlLen), (offsetTitle, maxTitleLen),
    (offsetTopicsource, maxTitleLen)]

/-- No step writes into `onepage`, and none takes the end of another text. -/
structure NodeKept (f g : ByteFile) : Prop where
  size : f.size = sizeofUrlNode → g.size = sizeofUrlNode
  onepage : ∀ i, offsetOnepage ≤ i → i < offsetOnepage + 32 → g.bytes i = f.bytes i
  texts : ∀ a ∈ serializedTexts, TextEnds f a.1 a.2 → TextEnds g a.1 a.2

namespace NodeKept

variable {f g h : ByteFile}

theorem refl (f : ByteFile) : NodeKept f f := ⟨id, fun _ _ _ => rfl, fun _ _ => id⟩

theorem trans (first : NodeKept f g) (second : NodeKept g h) : NodeKept f h where
  size := second.size ∘ first.size
  onepage i low high := (second.onepage i low high).trans (first.onepage i low high)
  texts a mem := second.texts a mem ∘ first.texts a mem

theorem copyText {start longest keep : ℕ} (short : keep ≤ longest)
    (low : start + longest < NodeNumber.taskid.offset)
    (place : ∀ a ∈ serializedTexts, start + longest < a.1 + a.2 ∨ a.1 + a.2 ≤ start)
    (f : ByteFile) (text : CString) : NodeKept f (BloomServer.copyText f start longest keep text) where
  size whole := by
    rw [size_copyText short (by rw [whole]; exact low.trans (by decide)), whole]
  onepage i after _ := by
    have stop := Nat.min_le_right text.length longest
    have before : NodeNumber.taskid.offset < offsetOnepage := by decide
    rw [bytes_copyText short (by omega)]
  texts a mem ends := ends.copyText short (place a mem)

theorem assign (f : ByteFile) (m : NodeNumber) (value : ℕ) :
    NodeKept f (BloomServer.assign f m value) := by
  have length : (toBytes m.width value).length = m.width := length_toBytes _ _
  have place : NodeNumber.taskid.offset ≤ m.offset ∧ m.offset + m.width ≤ sizeofUrlNode ∧
      (m.offset + m.width ≤ offsetOnepage ∨ offsetOnepage + 32 ≤ m.offset) := by
    cases m <;> decide
  constructor
  · intro whole
    rw [BloomServer.assign, put, size_pwrite_inside (by rw [length, whole]; exact place.2.1), whole]
  · intro i after before
    rw [BloomServer.assign, put, bytes_pwrite (by rw [length]; omega)]
  · rintro a mem ⟨i, low, nul⟩
    have below : ∀ a ∈ serializedTexts, a.1 + a.2 ≤ NodeNumber.taskid.offset := by decide
    have text := below a mem
    refine ⟨i, low, ?_⟩
    rw [BloomServer.assign, put, bytes_pwrite (by omega), nul]

theorem run (f : ByteFile) (step : NodeStep) : NodeKept f (step.run f) := by
  cases step with
  | copyurl url => exact copyText (by decide) (by decide) (by decide) f url
  | copyusername username => exact copyText (by decide) (by decide) (by decide) f username
  | copyfatherurl fatherurl => exact copyText (by decide) (by decide) (by decide) f fatherurl
  | copyrefererurl refererurl => exact copyText (by decide) (by decide) (by decide) f refererurl
  | copytitle title => exact copyText (by decide) (by decide) (by decide) f title
  | copytopicsource topicsource => exact copyText (by decide) (by decide) (by decide) f topicsource
  | assign m value => exact assign f m value

theorem foldl (f : ByteFile) (steps : List NodeStep) : NodeKept f (steps.foldl NodeStep.run f) := by
  induction steps generalizing f with
  | nil => exact refl f
  | cons step steps ih => exact (run f step).trans (ih _)

end NodeKept

/-! ### Constructors as steps -/

/-- The serialized text that a step sets. -/
def NodeStep.target : NodeStep → Option (ℕ × ℕ)
  | .copyurl _ => some (offsetUrl, maxUrlLen)
  | .copyfatherurl _ => some (offsetFatherurl, maxUrlLen)
  | .copytitle _ => some (offsetTitle, maxTitleLen)
  | .copytopicsource _ => some (offsetTopicsource, maxTitleLen)
  | _ => none

theorem textEnds_target {step : NodeStep} {a : ℕ × ℕ} (sets : step.target = some a) (f : ByteFile) :
    TextEnds (step.run f) a.1 a.2 := by
  have ends (start size : ℕ) (some : 0 < size) (text : CString) :
      TextEnds (copyText f start (size - 1) (size - 1) text) start size :=
    ⟨min text.length (size - 1), by omega, nul_copyText⟩
  cases step with
  | copyurl url => cases sets; exact ends _ _ (by decide) url
  | copyfatherurl fatherurl => cases sets; exact ends _ _ (by decide) fatherurl
  | copytitle title => cases sets; exact ends _ _ (by decide) title
  | copytopicsource topicsource => cases sets; exact ends _ _ (by decide) topicsource
  | copyusername | copyrefererurl | assign => cases sets

theorem textEnds_foldl {steps : List NodeStep} {a : ℕ × ℕ} (text : a ∈ serializedTexts)
    (sets : ∃ step ∈ steps, step.target = some a) (f : ByteFile) :
    TextEnds (steps.foldl NodeStep.run f) a.1 a.2 := by
  obtain ⟨step, mem, target⟩ := sets
  obtain ⟨before, after, rfl⟩ := List.append_of_mem mem
  rw [List.foldl_append, List.foldl_cons]
  exact (NodeKept.foldl _ after).texts a text (textEnds_target target _)

/-- A constructor sets the texts to the empty one by a copy. -/
def NodeStart.steps : NodeStart → List NodeStep
  | .new =>
      [.copyurl [], .copyusername [], .assign .taskid 0, .assign .type 0, .assign .errornum 0,
        .assign .id 0, .assign .page 1, .assign .maxtype minusOne, .assign .layerid 1,
        .assign .bbsid minusOne, .assign .needtologin 0, .assign .redirectnum 0, .copyfatherurl [],
        .copyrefererurl [], .assign .taskbatch minusOne, .copytitle [], .copytopicsource [],
        .assign .ipnum 0, .assign .nextpage 1, .assign .fetchedPage 0, .assign .sqliteId 0,
        .assign .nowpage 1, .assign .totalpage 1]
  | .of a =>
      [.copyurl a.url, .copyfatherurl a.fatherurl, .copytitle (a.title.getD []),
        .copytopicsource (a.topicsource.getD []), .assign .maxtype a.maxtype, .assign .taskid a.taskid,
        .assign .type a.type, .assign .errornum a.errornum, .assign .id a.id, .assign .page a.page,
        .assign .layerid a.layerid, .assign .needtologin a.needtologin,
        .assign .redirectnum a.redirectnum, .assign .taskbatch a.taskbatch, .assign .bbsid a.bbsid,
        .assign .nextpage 1, .assign .ipnum 0, .copyrefererurl [], .copyusername []]

theorem NodeStart.run_eq (start : NodeStart) (f : ByteFile) :
    start.run f = start.steps.foldl NodeStep.run f := by
  cases start with
  | new => rfl
  | of a =>
      obtain ⟨topicsource, title⟩ := a
      cases topicsource <;> cases title <;> rfl

theorem NodeStart.sets (start : NodeStart) :
    ∀ a ∈ serializedTexts, ∃ step ∈ start.steps, step.target = some a := by
  intro a mem
  simp only [serializedTexts, List.mem_cons, List.not_mem_nil, or_false] at mem
  cases start with
  | new => rcases mem with rfl | rfl | rfl | rfl <;> simp [NodeStart.steps, NodeStep.target]
  | of args => rcases mem with rfl | rfl | rfl | rfl <;> simp [NodeStart.steps, NodeStep.target]

theorem buildNode_eq (f : ByteFile) (start : NodeStart) (steps : List NodeStep) :
    buildNode f start steps = (start.steps ++ steps).foldl NodeStep.run f := by
  rw [buildNode, NodeStart.run_eq, List.foldl_append]

/-! ### Serializing -/

theorem length_framed (bytes : List UInt8) : (framed bytes).length = 4 + bytes.length := by
  rw [framed, List.length_append, length_toBytes]

/-- The arrays that are not serialized leave room for the lengths. -/
theorem UrlNode.length_bytes_le (u : UrlNode) : u.bytes.length ≤ sizeofUrlNode := by
  have url : u.url.chars.length < 1024 := u.url.fits
  have fatherurl : u.fatherurl.chars.length < 1024 := u.fatherurl.fits
  have title : u.title.chars.length < 128 := u.title.fits
  have topicsource : u.topicsource.chars.length < 128 := u.topicsource.fits
  have onepage : u.onepage.chars.length < 32 := u.onepage.fits
  have size : sizeofUrlNode = 3656 := rfl
  simp only [bytes, bytesInt, bytesChar, bytesULongLong, bytesLong, bytesBool, List.length_append,
    length_framed, length_toBytes, List.length_singleton]
  omega

theorem serializesWithin_iff_isSome (f : ByteFile) : SerializesWithin f ↔ (nodeAt f).isSome := by
  unfold SerializesWithin serializeAt
  cases nodeAt f with
  | none => exact iff_of_false (by rintro ⟨_, mem, _⟩; cases mem) (by decide)
  | some u =>
      refine iff_of_true ⟨_, rfl, ?_⟩ rfl
      change (u.serialize []).2.length ≤ _
      rw [u.serialize_eq, List.nil_append]
      exact u.length_bytes_le

theorem nodeAt_isSome_iff (f : ByteFile) : (nodeAt f).isSome ↔
    (∀ a ∈ serializedTexts, (charsAt f a.1 a.2).isSome) ∧ (charsAt f offsetOnepage 32).isSome := by
  unfold nodeAt serializedTexts
  simp only [List.forall_mem_cons, List.not_mem_nil, false_implies, implies_true, and_true]
  cases charsAt f offsetUrl maxUrlLen <;> cases charsAt f offsetFatherurl maxUrlLen <;>
    cases charsAt f offsetTitle maxTitleLen <;> cases charsAt f offsetTopicsource maxTitleLen <;>
      cases charsAt f offsetOnepage 32 <;> simp

/-- No constructor and no setter ever sets `onepage`: whether it ends in its array is up to the memory
that the node was made in. -/
theorem serializesWithin_iff (f : ByteFile) (whole : f.size = sizeofUrlNode) (start : NodeStart)
    (steps : List NodeStep) :
    SerializesWithin (buildNode f start steps) ↔ 0 ∈ f.pread 32 offsetOnepage := by
  have kept := NodeKept.foldl f (start.steps ++ steps)
  have size := kept.size whole
  rw [buildNode_eq, serializesWithin_iff_isSome, nodeAt_isSome_iff]
  have texts : ∀ a ∈ serializedTexts,
      (charsAt ((start.steps ++ steps).foldl NodeStep.run f) a.1 a.2).isSome := by
    intro a mem
    have inside : ∀ a ∈ serializedTexts, a.1 + a.2 ≤ sizeofUrlNode := by decide
    obtain ⟨step, there, target⟩ := start.sets a mem
    rw [charsAt_isSome_iff (by rw [size]; exact inside a mem)]
    exact textEnds_foldl mem ⟨step, List.mem_append_left _ there, target⟩ f
  have inside : offsetOnepage + 32 ≤ f.size := by
    rw [whole]
    decide
  rw [charsAt_isSome_iff (by rw [size, ← whole]; exact inside)]
  constructor
  · rintro ⟨-, i, low, nul⟩
    rw [kept.onepage _ (Nat.le_add_right _ _) (Nat.add_lt_add_left low _)] at nul
    have length := length_pread inside
    have there := (at_pread inside).bytes i _ (List.getElem?_eq_getElem (by rwa [length]))
    rw [← nul, there]
    exact List.getElem_mem _
  · intro mem
    refine ⟨texts, ?_⟩
    obtain ⟨i, low, place⟩ := List.mem_iff_getElem.mp mem
    have there := (at_pread inside).bytes i _ (List.getElem?_eq_getElem low)
    rw [length_pread inside] at low
    refine ⟨i, low, ?_⟩
    rw [kept.onepage _ (Nat.le_add_right _ _) (Nat.add_lt_add_left low _), there, place]

/-- Memory that is all zero. -/
def zeroMemory : ByteFile := ⟨fun _ => 0, sizeofUrlNode⟩

theorem serializesWithin_iff_zero : SerializesWithin (buildNode zeroMemory .new [.copyurl [97]]) := by
  refine (serializesWithin_iff zeroMemory rfl .new [.copyurl [97]]).mpr ?_
  decide +kernel

/-- Memory that was all `'a'` before. -/
theorem not_serializesWithin : ¬ ∀ (f : ByteFile) (start : NodeStart) (steps : List NodeStep),
    f.size = sizeofUrlNode → SerializesWithin (buildNode f start steps) := by
  intro claim
  have ends := (serializesWithin_iff ⟨fun _ => 97, sizeofUrlNode⟩ rfl .new []).mp (claim _ _ _ rfl)
  revert ends
  decide +kernel

end BloomServer
