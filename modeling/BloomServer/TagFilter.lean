import BloomServer.DateTime
import BloomServer.Library.CharBuffer
import BloomServer.ReadConf
import BloomServer.RealHtml

/-! `CDateTime::FilteTag` on its buffers: the working copy it cuts up with NULs and the destination it
appends to. -/
namespace BloomServer
open CharBuffer TextSearch Tokens

/-- `strchr`, from a place in memory on. -/
def strchrAt (c : UInt8) (mem : List UInt8) (place : ℕ) : Option (Option ℕ) :=
  (textAt 0 mem place).map fun text => (strchr c text).map (place + ·)

/-- `strcat`, onto the text at the start of a buffer. -/
def strcat (dest text : List UInt8) : Option (List UInt8) := do
  let old ← textAt 0 dest 0
  put dest old.length (text ++ [0])

/-- An `int` as a `size_t`. -/
def cSize (z : ℤ) : ℕ := (z % 2 ^ 64).toNat

/-- The loop and what is appended behind it. `buff` is where the text not yet copied begins, `p` the
next `'<'` in it. -/
def filteLoop : ℕ → List UInt8 → ℕ → Option ℕ → List UInt8 → Option (List UInt8)
  | _, mem, buff, none, strDest => do
      let text ← textAt 0 mem buff
      strcat strDest text
  | 0, _, _, some _, _ => none
  | rounds + 1, mem, buff, some p, strDest => do
      let mem ← put mem p [0]
      let text ← textAt 0 mem buff
      let strDest ← strcat strDest text
      let strDest ← strcat strDest [32]
      let buff := p + 1
      let p ← strchrAt 62 mem buff
      let buff := p.elim buff (· + 1)
      let p ← strchrAt 60 mem buff
      filteLoop rounds mem buff p strDest

/-- Each round takes a byte of the text at least. -/
def CDateTime.FilteTag (malloc : ℕ → Bool) (strSource : CString) (strDest : List UInt8) :
    Option (Bool × List UInt8) :=
  let strLen := cInt (strSource.length + 1)
  if malloc (cSize strLen) then do
    let buff ← put (List.replicate (cSize strLen) 0) 0 (strncpy strSource (cSize (strLen - 1)))
    let p ← strchrAt 60 buff 0
    let strDest ← filteLoop strSource.length buff 0 p strDest
    return (true, strDest)
  else some (false, strDest)

/-- What is to come of a text: each `'<'` becomes a blank, together with what follows up to the next
`'>'`, if there is one; all else is kept. -/
inductive TagsBlanked : List UInt8 → List UInt8 → Prop
  | plain {text : List UInt8} (away : 60 ∉ text) : TagsBlanked text text
  | tag {front inside rest out : List UInt8} (away : 60 ∉ front) (open' : 62 ∉ inside) :
      TagsBlanked rest out →
        TagsBlanked (front ++ 60 :: (inside ++ 62 :: rest)) (front ++ 32 :: out)
  | lone {front rest out : List UInt8} (away : 60 ∉ front) (open' : 62 ∉ rest) :
      TagsBlanked rest out → TagsBlanked (front ++ 60 :: rest) (front ++ 32 :: out)

theorem TagsBlanked.eq_filteTag {text out : List UInt8} (blanked : TagsBlanked text out) :
    filteTag false text = out := by
  induction blanked with
  | plain away =>
      have kept := filteTag_append _ away []
      rwa [List.append_nil, filteTag, List.append_nil] at kept
  | tag away open' _ ih =>
      rw [filteTag_append _ away]
      change _ ++ 32 :: filteTag _ _ = _
      rw [decide_eq_true (List.mem_append_right _ List.mem_cons_self), filteTag_close _ open', ih]
  | lone away open' _ ih =>
      rw [filteTag_append _ away]
      change _ ++ 32 :: filteTag _ _ = _
      rw [decide_eq_false open', ih]

/-- Every text has such a form: it is cut at its first `'<'`, and behind that at the first `'>'`. -/
theorem tagsBlanked_filteTag (text : List UInt8) : TagsBlanked text (filteTag false text) := by
  have some : ∃ out, TagsBlanked text out := by
    induction size : text.length using Nat.strong_induction_on generalizing text with
    | _ n ih =>
        by_cases tagged : 60 ∈ text
        · obtain ⟨front, behind, rfl, away⟩ := List.eq_append_cons_of_mem tagged
          rw [List.length_append, List.length_cons] at size
          by_cases closed : 62 ∈ behind
          · obtain ⟨inside, rest, rfl, open'⟩ := List.eq_append_cons_of_mem closed
            rw [List.length_append, List.length_cons] at size
            obtain ⟨out, blanked⟩ := ih rest.length (by omega) rest rfl
            exact ⟨_, .tag away open' blanked⟩
          · obtain ⟨out, blanked⟩ := ih behind.length (by omega) behind rfl
            exact ⟨_, .lone away closed blanked⟩
        · exact ⟨text, .plain tagged⟩
  obtain ⟨out, blanked⟩ := some
  rwa [blanked.eq_filteTag]

theorem TagsBlanked.length_le {text out : List UInt8} (blanked : TagsBlanked text out) :
    out.length ≤ text.length := by
  induction blanked with
  | plain _ => exact Nat.le_refl _
  | tag _ _ _ ih =>
      simp only [List.length_append, List.length_cons]
      omega
  | lone _ _ _ ih =>
      simp only [List.length_append, List.length_cons]
      omega

theorem TagsBlanked.mem_of_mem {text out : List UInt8} (blanked : TagsBlanked text out) {b : UInt8}
    (mem : b ∈ out) (other : b ≠ 32) : b ∈ text := by
  induction blanked with
  | plain _ => exact mem
  | tag _ _ _ ih =>
      simp only [List.mem_append, List.mem_cons] at mem ⊢
      tauto
  | lone _ _ _ ih =>
      simp only [List.mem_append, List.mem_cons] at mem ⊢
      tauto

theorem strcat_eq {old text free : List UInt8} (nul : 0 ∉ old) (room : text.length ≤ free.length) :
    strcat (old ++ 0 :: free) text = some ((old ++ text) ++ 0 :: free.drop text.length) := by
  have fits : (text ++ [0]).length ≤ (0 :: free).length := by
    simpa only [List.length_append, List.length_cons, List.length_nil] using Nat.succ_le_succ room
  have write := put_append old (text ++ [0]) fits
  rw [strcat, textAt_zero nul]
  refine write.trans ?_
  rw [List.length_append, List.length_singleton, List.drop_succ_cons, List.append_assoc,
    List.append_assoc]
  rfl

theorem strchrAt_eq (c : UInt8) {text : List UInt8} (nul : 0 ∉ text) (front rest : List UInt8) :
    strchrAt c (front ++ (text ++ 0 :: rest)) front.length =
      some ((strchr c text).map (front.length + ·)) := by
  rw [strchrAt, textAt_append nul]
  rfl

/-- A round copies what comes before the `'<'`, and a blank; it goes on behind the `'>'`, if there is one. -/
theorem filteLoop_round {front skipped rest dest free : List UInt8}
    (skip : (strchr 62 (skipped ++ rest)).elim 0 (· + 1) = skipped.length)
    (nul : 0 ∉ front ++ 60 :: (skipped ++ rest)) (clean : 0 ∉ dest) (room : front.length < free.length)
    (rounds : ℕ) (done : List UInt8) :
    filteLoop (rounds + 1) (done ++ (front ++ 60 :: (skipped ++ rest) ++ [0])) done.length
        (some (done.length + front.length)) (dest ++ 0 :: free) =
      filteLoop rounds (done ++ front ++ 0 :: skipped ++ (rest ++ [0])) (done ++ front ++ 0 :: skipped).length
        ((strchr 60 rest).map ((done ++ front ++ 0 :: skipped).length + ·))
        (dest ++ front ++ [32] ++ 0 :: free.drop (front.length + 1)) := by
  simp only [List.mem_append, List.mem_cons, not_or] at nul
  obtain ⟨cleanFront, -, cleanSkipped, cleanRest⟩ := nul
  have cut : put (done ++ (front ++ 60 :: (skipped ++ rest) ++ [0])) (done.length + front.length) [0] =
      some (done ++ (front ++ 0 :: (skipped ++ rest ++ [0]))) := by
    have fits : [(0 : UInt8)].length ≤ (60 :: (skipped ++ rest ++ [0])).length := by simp
    have write := put_append (done ++ front) [0] fits
    simpa only [List.append_assoc, List.length_append, List.cons_append, List.singleton_append,
      List.length_singleton, List.drop_succ_cons, List.drop_zero, List.nil_append] using write
  have copied := strcat_eq clean (Nat.le_of_lt room)
  have left : [(32 : UInt8)].length ≤ (free.drop front.length).length := by
    rw [List.length_singleton, List.length_drop]
    omega
  have cleanNow : 0 ∉ dest ++ front := by simp [clean, cleanFront]
  have blank := strcat_eq cleanNow left
  rw [List.drop_drop, List.length_singleton] at blank
  have text : textAt 0 (done ++ (front ++ 0 :: (skipped ++ rest ++ [0]))) done.length = some front :=
    textAt_append cleanFront done _
  -- behind the NUL is what the tag skips, and what is left
  have place : done.length + front.length + 1 = (done ++ front ++ [0]).length := by
    simp only [List.length_append, List.length_singleton]
  have close : strchrAt 62 (done ++ (front ++ 0 :: (skipped ++ rest ++ [0])))
      (done.length + front.length + 1) =
        some ((strchr 62 (skipped ++ rest)).map ((done.length + front.length + 1) + ·)) := by
    have clean : 0 ∉ skipped ++ rest := by simp [cleanSkipped, cleanRest]
    have there := strchrAt_eq 62 clean (done ++ front ++ [0]) []
    rw [← place] at there
    simpa only [List.append_assoc, List.cons_append, List.nil_append] using there
  have next : ((strchr 62 (skipped ++ rest)).map ((done.length + front.length + 1) + ·)).elim
      (done.length + front.length + 1) (· + 1) = (done ++ front ++ 0 :: skipped).length := by
    have length : (done ++ front ++ 0 :: skipped).length =
        done.length + front.length + 1 + skipped.length := by
      simp only [List.length_append, List.length_cons]
      omega
    rw [length, ← skip]
    cases strchr 62 (skipped ++ rest) <;> rfl
  have open' := strchrAt_eq 60 cleanRest (done ++ front ++ 0 :: skipped) []
  have view : done ++ front ++ 0 :: skipped ++ (rest ++ [0]) =
      done ++ (front ++ 0 :: (skipped ++ rest ++ [0])) := by
    simp only [List.append_assoc, List.cons_append]
  rw [view] at open' ⊢
  simp only [filteLoop, cut, text, copied, blank, close, next, open', Option.bind_eq_bind,
    Option.bind_some]

/-- A round in front of the rounds for what is left. -/
theorem filteLoop_tag {front skipped rest dest free out : List UInt8}
    (away : 60 ∉ front) (skip : (strchr 62 (skipped ++ rest)).elim 0 (· + 1) = skipped.length)
    (nul : 0 ∉ front ++ 60 :: (skipped ++ rest)) (clean : 0 ∉ dest) {rounds : ℕ} {done : List UInt8}
    (enough : (front ++ 60 :: (skipped ++ rest)).length ≤ rounds)
    (room : (front ++ 60 :: (skipped ++ rest)).length ≤ free.length)
    (ih : ∀ {rounds : ℕ} {done dest free : List UInt8}, 0 ∉ rest → 0 ∉ dest → rest.length ≤ rounds →
      rest.length ≤ free.length →
        filteLoop rounds (done ++ (rest ++ [0])) done.length ((strchr 60 rest).map (done.length + ·))
          (dest ++ 0 :: free) = some (dest ++ out ++ 0 :: free.drop out.length)) :
    filteLoop rounds (done ++ (front ++ 60 :: (skipped ++ rest) ++ [0])) done.length
        ((strchr 60 (front ++ 60 :: (skipped ++ rest))).map (done.length + ·)) (dest ++ 0 :: free) =
      some (dest ++ (front ++ 32 :: out) ++ 0 :: free.drop (front ++ 32 :: out).length) := by
  simp only [List.length_append, List.length_cons] at enough room
  obtain ⟨rounds, rfl⟩ : ∃ r, rounds = r + 1 := ⟨rounds - 1, by omega⟩
  have behind : 0 ∉ front ∧ 0 ∉ rest := by
    simp only [List.mem_append, List.mem_cons, not_or] at nul
    exact ⟨nul.1, nul.2.2.2⟩
  have cleanDest : 0 ∉ dest ++ front ++ [32] := by simp [clean, behind.1]
  rw [strchr_of_append away, Option.map_some, filteLoop_round skip nul clean (by omega),
    ih behind.2 cleanDest (by omega) (by rw [List.length_drop]; omega), List.drop_drop]
  have size : front.length + 1 + out.length = (front ++ 32 :: out).length := by
    simp only [List.length_append, List.length_cons]
    omega
  rw [size]
  simp only [List.append_assoc, List.cons_append, List.nil_append]

/-- The loop, by the form of the text that is left. -/
theorem TagsBlanked.loop {text out : List UInt8} (blanked : TagsBlanked text out) {rounds : ℕ}
    {done dest free : List UInt8} (nul : 0 ∉ text) (clean : 0 ∉ dest) (enough : text.length ≤ rounds)
    (room : text.length ≤ free.length) :
    filteLoop rounds (done ++ (text ++ [0])) done.length ((strchr 60 text).map (done.length + ·))
        (dest ++ 0 :: free) =
      some (dest ++ out ++ 0 :: free.drop out.length) := by
  induction blanked generalizing rounds done dest free with
  | @plain text away =>
      rw [strchr_eq_none.mpr away, Option.map_none]
      have read : textAt 0 (done ++ (text ++ [0])) done.length = some text := textAt_append nul done []
      cases rounds <;> simp only [filteLoop, read, Option.bind_eq_bind, Option.bind_some, strcat_eq clean room]
  | @tag front inside rest out away open' _ ih =>
      have split : inside ++ 62 :: rest = (inside ++ [62]) ++ rest := by simp
      rw [split] at nul enough room ⊢
      refine filteLoop_tag away ?_ nul clean enough room ih
      rw [← split, strchr_of_append open', List.length_append]
      rfl
  | @lone front rest out away open' _ ih =>
      have skip : (strchr 62 ([] ++ rest)).elim 0 (· + 1) = ([] : List UInt8).length := by
        rw [List.nil_append, strchr_eq_none.mpr open']
        rfl
      exact filteLoop_tag away skip nul clean enough room ih

theorem cSize_cInt {n : ℕ} (small : n < 2 ^ 31) : cSize (cInt n) = n := by
  unfold cSize cInt
  rw [Int.bmod_eq_of_le (by omega) (by omega)]
  omega

/-- A text of fewer than `2^31 - 1` bytes is appended, with blanks for its tags, to an empty destination
with room for it. -/
theorem filteTag_eq {malloc : ℕ → Bool} {strSource : CString} (nul : 0 ∉ strSource)
    (short : strSource.length < 2 ^ 31 - 1) (memory : malloc (strSource.length + 1) = true)
    {free : List UInt8} (room : strSource.length ≤ free.length) :
    CDateTime.FilteTag malloc strSource (0 :: free) =
      some (true, filteTag false strSource ++ 0 :: free.drop (filteTag false strSource).length) := by
  have size : cSize (cInt (strSource.length + 1 : ℕ)) = strSource.length + 1 := cSize_cInt (by omega)
  have count : cSize (cInt (strSource.length + 1 : ℕ) - 1) = strSource.length := by
    unfold cSize cInt
    rw [Int.bmod_eq_of_le (by omega) (by omega)]
    omega
  have copy : put (List.replicate (strSource.length + 1) 0) 0 (strncpy strSource strSource.length) =
      some (strSource ++ [0]) := by
    have fits : strSource.length ≤ (List.replicate (strSource.length + 1) (0 : UInt8)).length := by
      rw [List.length_replicate]
      omega
    have write := put_append [] strSource fits
    rw [strncpy, List.take_left]
    simpa using write
  have search := strchrAt_eq 60 nul [] []
  have run : filteLoop strSource.length ([] ++ (strSource ++ [0])) 0 ((strchr 60 strSource).map (0 + ·))
      ([] ++ 0 :: free) = _ :=
    (tagsBlanked_filteTag strSource).loop nul List.not_mem_nil (Nat.le_refl _) room
  simp only [List.nil_append, List.length_nil] at search run
  unfold CDateTime.FilteTag
  simp only [size, count, memory, copy, search, run, if_true, Option.bind_eq_bind, Option.bind_some]
  rfl

/-- One byte more, and the length of the working copy is no `int`. -/
theorem filteTag_refused {malloc : ℕ → Bool} {strSource : CString} (long : strSource.length = 2 ^ 31 - 1)
    (refused : malloc (2 ^ 64 - 2 ^ 31) = false) (strDest : List UInt8) :
    CDateTime.FilteTag malloc strSource strDest = some (false, strDest) := by
  have size : cSize (cInt (strSource.length + 1 : ℕ)) = 2 ^ 64 - 2 ^ 31 := by
    rw [long]
    decide
  unfold CDateTime.FilteTag
  simp only [size, refused, Bool.false_eq_true, if_false]

/-- The wide character is replaced by one of the same length. -/
theorem length_replaceSpace_hour (timeinput : List UInt8) :
    (replaceSpace [[181, 227]] [202, 177] timeinput).length = timeinput.length := by
  have size : ∀ pattern ∈ [[(181 : UInt8), 227]], pattern.length = 2 := by simp
  unfold replaceSpace
  obtain ⟨k, total⟩ : ∃ k, (replaceFrom [[181, 227]] [202, 177] 0 timeinput).length + 0 + k * 2 =
      timeinput.length + k * 2 := length_replaceFrom size (by decide) (Nat.zero_le _)
  exact Nat.add_right_cancel total

/-- Each tag of a text becomes one blank, all else is kept; a destination with room for the text has room
for the result, and so has the buffer of `ParseDateTime`. -/
theorem filteTag_exact (malloc : ℕ → Bool) (strSource : CString) (nul : 0 ∉ strSource)
    (short : strSource.length < 2 ^ 31 - 1) (memory : malloc (strSource.length + 1) = true) :
    TagsBlanked strSource (filteTag false strSource) ∧
    (filteTag false strSource).length ≤ strSource.length ∧
    (∀ free : List UInt8, strSource.length ≤ free.length →
      ∃ strDest, CDateTime.FilteTag malloc strSource (0 :: free) = some (true, strDest) ∧
        textAt 0 strDest 0 = some (filteTag false strSource)) ∧
    ∀ timeinput str : List UInt8, replaceSpace [[181, 227]] [202, 177] timeinput = strSource →
      str.length = timeinput.length + 1 →
        ∃ strDest, CDateTime.FilteTag malloc strSource (str.set 0 0) = some (true, strDest) ∧
          textAt 0 strDest 0 = some (filteTag false strSource) := by
  have blanked := tagsBlanked_filteTag strSource
  have appends : ∀ free : List UInt8, strSource.length ≤ free.length →
      ∃ strDest, CDateTime.FilteTag malloc strSource (0 :: free) = some (true, strDest) ∧
        textAt 0 strDest 0 = some (filteTag false strSource) := by
    intro free room
    refine ⟨_, filteTag_eq nul short memory room, textAt_zero ?_ _⟩
    exact fun mem => nul (blanked.mem_of_mem mem (by decide))
  refine ⟨blanked, blanked.length_le, appends, ?_⟩
  intro timeinput str replaced size
  have same := length_replaceSpace_hour timeinput
  rw [replaced] at same
  cases str with
  | nil => cases size
  | cons b free => exact appends free (by rw [List.length_cons] at size; omega)

theorem filteTag_exact_nested :
    TagsBlanked (ascii "a<b<c>d>e<f") (ascii "a d>e f") ∧
      ∃ strDest, CDateTime.FilteTag (· < 2 ^ 63) (ascii "a<b<c>d>e<f") (List.replicate 12 0) =
        some (true, strDest) ∧ textAt 0 strDest 0 = some (ascii "a d>e f") := by
  have exact := filteTag_exact (· < 2 ^ 63) (ascii "a<b<c>d>e<f") (by decide) (by decide) (by decide)
  exact ⟨exact.1, exact.2.2.1 (List.replicate 11 0) (by decide)⟩

theorem filteTag_long :
    ¬ ∀ (strSource : CString) (free : List UInt8), 0 ∉ strSource → strSource.length ≤ free.length →
      ∃ strDest, CDateTime.FilteTag (· < 2 ^ 63) strSource (0 :: free) = some (true, strDest) ∧
        textAt 0 strDest 0 = some (filteTag false strSource) := by
  intro appends
  have nul : (0 : UInt8) ∉ List.replicate (2 ^ 31 - 1) 97 := fun mem =>
    absurd (List.eq_of_mem_replicate mem) (by decide)
  obtain ⟨strDest, run, -⟩ := appends _ _ nul (Nat.le_refl _)
  rw [filteTag_refused List.length_replicate (by decide)] at run
  cases run

end BloomServer
