import BloomServer.TagFilter

/-! `szReplace`, `szReplaceReply` and `replacestr`: every occurrence of a pattern replaced, in place. -/
namespace BloomServer
open CharBuffer TextSearch

/-- `strstr`, from a place in memory on. -/
def strstrAt (pattern : CString) (mem : List UInt8) (place : ℕ) : Option (Option ℕ) :=
  (textAt 0 mem place).map fun text => (find pattern text).map (place + ·)

/-- A place that does not lie in front of the buffer. -/
def inBuffer (place : ℤ) : Option ℕ := if 0 ≤ place then some place.toNat else none

/-- The buffer, where the search goes on, and the length of the text. -/
structure Replacing where
  szStr : List UInt8
  p1 : ℕ
  nStr : ℤ

/-- A round at an occurrence of the pattern. The tail with its NUL is moved behind what comes for the
pattern, and that is written in front of it. -/
def szReplaceRound (szSrc szDst : CString) (s : Replacing) (p2 : ℕ) : Option Replacing := do
  let nSrc := cInt szSrc.length
  let nDst := cInt szDst.length
  let p1 ← inBuffer (p2 + nDst)
  let source ← inBuffer (p2 + nSrc)
  let szStr ← move s.szStr p1 source (cSize (s.nStr - p2 - nSrc + 1))
  let new ← get (szDst ++ [0]) 0 (cSize nDst)
  let szStr ← put szStr p2 new
  return ⟨szStr, p1, Int.bmod (s.nStr + (nDst - nSrc)) (2 ^ 32)⟩

def szReplaceLoop (szSrc szDst : CString) : ℕ → Replacing → Option (List UInt8)
  | 0, s => do
      let p2 ← strstrAt szSrc s.szStr s.p1
      if p2 = none then return s.szStr else none
  | rounds + 1, s => do
      match ← strstrAt szSrc s.szStr s.p1 with
      | none => return s.szStr
      | some p2 =>
          let s ← szReplaceRound szSrc szDst s p2
          szReplaceLoop szSrc szDst rounds s

/-- Each round goes on behind the pattern, so there are no more rounds than bytes. -/
def replaceInPlace (szStr : List UInt8) (szSrc szDst : CString) : Option (Bool × List UInt8) := do
  let text ← textAt 0 szStr 0
  let szStr ← szReplaceLoop szSrc szDst text.length ⟨szStr, 0, cInt text.length⟩
  return (true, szStr)

def szReplace (szStr : List UInt8) (szSrc szDst : CString) : Option (Bool × List UInt8) :=
  replaceInPlace szStr szSrc szDst

def szReplaceReply (szStr : List UInt8) (szSrc szDst : CString) : Option (Bool × List UInt8) :=
  replaceInPlace szStr szSrc szDst

/-- `str.find`, from a place on. -/
def findFrom (pattern str : List UInt8) (idx : ℕ) : Option ℕ :=
  if idx ≤ str.length then (find pattern (str.drop idx)).map (idx + ·) else none

def replacestrLoop (srstr dsstr : List UInt8) : ℕ → List UInt8 → Option ℕ → Option (List UInt8)
  | _, str, none => some str
  | 0, _, some _ => none
  | rounds + 1, str, some idx =>
      let str := str.take idx ++ dsstr ++ str.drop (idx + srstr.length)
      if idx + dsstr.length > str.length then some str
      else replacestrLoop srstr dsstr rounds str (findFrom srstr str (idx + dsstr.length))

def replacestr (str srstr dsstr : List UInt8) : Option (List UInt8) :=
  if str = [] ∨ srstr = [] then some str
  else replacestrLoop srstr dsstr str.length str (findFrom srstr str 0)

/-! ### One round -/

section Replacement

variable {szSrc szDst text front rest done free : List UInt8}

theorem cSize_natCast {n : ℕ} (small : n < 2 ^ 64) : cSize n = n := by
  unfold cSize
  omega

theorem strstrAt_eq (szSrc : CString) (nul : 0 ∉ text) (done free : List UInt8) :
    strstrAt szSrc (done ++ (text ++ 0 :: free)) done.length =
      some ((find szSrc text).map (done.length + ·)) := by
  rw [strstrAt, textAt_append nul]
  rfl

/-- What the two copies of a round leave. -/
theorem replaced_memory (done : List UInt8)
    (room : front.length + szDst.length + rest.length ≤ (front ++ szSrc ++ rest).length + free.length) :
    ∃ mid left, move (done ++ (front ++ szSrc ++ rest ++ 0 :: free)) (done.length + front.length + szDst.length)
        (done.length + front.length + szSrc.length) (rest.length + 1) = some mid ∧
      put mid (done.length + front.length) szDst =
        some (done ++ front ++ szDst ++ (rest ++ 0 :: left)) ∧
      front.length + szDst.length + rest.length + left.length =
        (front ++ szSrc ++ rest).length + free.length := by
  have view : done ++ (front ++ szSrc ++ rest ++ 0 :: free) =
      (done ++ front ++ szSrc) ++ ((rest ++ [0]) ++ free) := by
    simp only [List.append_assoc, List.cons_append, List.nil_append]
  have tail : get (done ++ (front ++ szSrc ++ rest ++ 0 :: free))
      (done.length + front.length + szSrc.length) (rest.length + 1) = some (rest ++ [0]) := by
    have read := get_append (done ++ front ++ szSrc) (rest ++ [0]) free
    rw [← view] at read
    simpa only [List.length_append, List.length_singleton] using read
  have last : (rest ++ [0]).length = rest.length + 1 := List.length_append
  have size : (done ++ (front ++ szSrc ++ rest ++ 0 :: free)).length =
      done.length + ((front ++ szSrc ++ rest).length + free.length) + 1 := by
    simp only [List.length_append, List.length_cons]
    omega
  have inside : done.length + front.length + szDst.length + (rest ++ [0]).length ≤
      (done ++ (front ++ szSrc ++ rest ++ 0 :: free)).length := by
    rw [size, last]
    omega
  obtain ⟨mid, write⟩ : ∃ mid, put (done ++ (front ++ szSrc ++ rest ++ 0 :: free))
      (done.length + front.length + szDst.length) (rest ++ [0]) = some mid := ⟨_, if_pos inside⟩
  have lead : (done ++ (front ++ szSrc ++ rest ++ 0 :: free)).take (done.length + front.length) =
      done ++ front := by
    rw [view, List.append_assoc (done ++ front), ← List.length_append, List.take_left]
  have copied : move (done ++ (front ++ szSrc ++ rest ++ 0 :: free)) (done.length + front.length + szDst.length)
      (done.length + front.length + szSrc.length) (rest.length + 1) = some mid := by
    rw [move, tail, Option.bind_some, write]
  refine ⟨mid, (done ++ (front ++ szSrc ++ rest ++ 0 :: free)).drop
    (done.length + front.length + szDst.length + (rest ++ [0]).length), copied, ?_, ?_⟩
  · rw [put_before write, lead]
    simp only [List.append_assoc, List.cons_append, List.nil_append]
  · rw [List.length_drop, size, last]
    omega

/-- One round, on the text from its `done` part on. -/
theorem szReplaceRound_eq
    (room : front.length + szDst.length + rest.length ≤ (front ++ szSrc ++ rest).length + free.length)
    (short : (done ++ (front ++ szSrc ++ rest)).length < 2 ^ 31)
    (shortNow : (done ++ front ++ szDst ++ rest).length < 2 ^ 31) :
    ∃ left, szReplaceRound szSrc szDst
        (Replacing.mk (done ++ (front ++ szSrc ++ rest ++ 0 :: free)) done.length
          (done ++ (front ++ szSrc ++ rest)).length) (done.length + front.length) =
      some (Replacing.mk (done ++ front ++ szDst ++ (rest ++ 0 :: left)) (done ++ front ++ szDst).length
        (done ++ front ++ szDst ++ rest).length) ∧
      front.length + szDst.length + rest.length + left.length =
        (front ++ szSrc ++ rest).length + free.length := by
  obtain ⟨mid, left, tail, new, size⟩ := replaced_memory done room
  refine ⟨left, ?_, size⟩
  simp only [List.length_append] at short shortNow
  have target : inBuffer (((done.length + front.length : ℕ) : ℤ) + szDst.length) =
      some (done.length + front.length + szDst.length) := by
    rw [inBuffer, if_pos (by omega)]
    rfl
  have source : inBuffer (((done.length + front.length : ℕ) : ℤ) + szSrc.length) =
      some (done.length + front.length + szSrc.length) := by
    rw [inBuffer, if_pos (by omega)]
    rfl
  have count : cSize (((done ++ (front ++ szSrc ++ rest)).length : ℤ) - ((done.length + front.length : ℕ) : ℤ) -
      szSrc.length + 1) = rest.length + 1 := by
    simp only [List.length_append]
    unfold cSize
    omega
  have copy : get (szDst ++ [0]) 0 szDst.length = some szDst := get_append [] szDst [0]
  have running : Int.bmod ((done ++ (front ++ szSrc ++ rest)).length + ((szDst.length : ℤ) - szSrc.length))
      (2 ^ 32) = (done ++ front ++ szDst ++ rest).length := by
    simp only [List.length_append]
    rw [Int.bmod_eq_of_le (by omega) (by omega)]
    omega
  have place : done.length + front.length + szDst.length = (done ++ front ++ szDst).length := by
    simp only [List.length_append]
  rw [place] at tail
  simp only [szReplaceRound, cInt_small (n := szSrc.length) (by omega),
    cInt_small (n := szDst.length) (by omega), Option.bind_eq_bind, Option.bind_some, target, source, count,
    tail, cSize_natCast (n := szDst.length) (by omega), copy, new, running, place]
  rfl

/-! ### All rounds -/

theorem szReplaceLoop_found {s : Replacing} {p2 : ℕ} (search : strstrAt szSrc s.szStr s.p1 = some (some p2))
    (rounds : ℕ) :
    szReplaceLoop szSrc szDst (rounds + 1) s =
      (szReplaceRound szSrc szDst s p2).bind (szReplaceLoop szSrc szDst rounds) := by
  rw [szReplaceLoop, search, Option.bind_eq_bind, Option.bind_some]
  rfl

/-- The result of replacing in what is left of the text is put behind what is done. -/
theorem szReplaceLoop_eq (some : szSrc ≠ []) {rounds : ℕ} (enough : text.length ≤ rounds) (nul : 0 ∉ text)
    (room : (replaceFrom [szSrc] szDst 0 text).length ≤ text.length + free.length)
    (short : (done ++ text).length < 2 ^ 31)
    (shortResult : (done ++ replaceFrom [szSrc] szDst 0 text).length < 2 ^ 31) :
    ∃ left, szReplaceLoop szSrc szDst rounds
        ⟨done ++ (text ++ 0 :: free), done.length, (done ++ text).length⟩ =
      .some (done ++ (replaceFrom [szSrc] szDst 0 text ++ 0 :: left)) := by
  induction rounds generalizing text done free with
  | zero =>
      obtain rfl := List.eq_nil_of_length_eq_zero (Nat.le_zero.mp enough)
      have missing : find szSrc [] = none := if_neg some
      refine ⟨free, ?_⟩
      rw [szReplaceLoop, strstrAt_eq _ nul, missing]
      rfl
  | succ rounds ih =>
      cases found : find szSrc text with
      | none =>
          refine ⟨free, ?_⟩
          rw [szReplaceLoop, strstrAt_eq _ nul, found, replaceFrom_of_find_none found]
          rfl
      | some i =>
          obtain ⟨front, rest, rfl, rfl⟩ := split_of_find found
          have step : replaceFrom [szSrc] szDst 0 (front ++ szSrc ++ rest) = _ :=
            replaceFrom_of_find some found
          rw [step] at room shortResult ⊢
          have positive := List.length_pos_iff.mpr some
          -- the text never gets longer than the longer one of the first and the last
          have running : szSrc.length ≤ szDst.length →
              rest.length ≤ (replaceFrom [szSrc] szDst 0 rest).length := le_length_replaceFrom some
          simp only [List.length_append] at room short shortResult enough
          have roomNow : front.length + szDst.length + rest.length ≤
              (front ++ szSrc ++ rest).length + free.length := by
            simp only [List.length_append]
            omega
          have shortNow : (done ++ front ++ szDst ++ rest).length < 2 ^ 31 := by
            simp only [List.length_append]
            omega
          obtain ⟨left, round, size⟩ := szReplaceRound_eq roomNow
            (by simpa only [List.length_append] using short) shortNow
          simp only [List.length_append] at size
          have roomLeft : (replaceFrom [szSrc] szDst 0 rest).length ≤ rest.length + left.length := by omega
          have shortLeft : (done ++ front ++ szDst ++ replaceFrom [szSrc] szDst 0 rest).length < 2 ^ 31 := by
            simp only [List.length_append]
            omega
          obtain ⟨left', run⟩ := ih (by omega) (fun mem => nul (List.mem_append_right _ mem)) roomLeft
            shortNow shortLeft
          refine ⟨left', ?_⟩
          have search := strstrAt_eq szSrc nul done free
          rw [found] at search
          rw [szReplaceLoop_found search, round, Option.bind_some, run]
          simp only [List.append_assoc]

theorem replaceInPlace_eq (some : szSrc ≠ []) (nul : 0 ∉ text)
    (room : (replaceFrom [szSrc] szDst 0 text).length ≤ text.length + free.length)
    (short : text.length < 2 ^ 31) (shortResult : (replaceFrom [szSrc] szDst 0 text).length < 2 ^ 31) :
    ∃ left, replaceInPlace (text ++ 0 :: free) szSrc szDst =
      .some (true, replaceFrom [szSrc] szDst 0 text ++ 0 :: left) := by
  obtain ⟨left, run⟩ : ∃ left, szReplaceLoop szSrc szDst text.length
      ⟨[] ++ (text ++ 0 :: free), 0, text.length⟩ = .some ([] ++ (replaceFrom [szSrc] szDst 0 text ++ 0 :: left)) :=
    szReplaceLoop_eq some (Nat.le_refl _) nul room short shortResult
  simp only [List.nil_append] at run
  refine ⟨left, ?_⟩
  rw [replaceInPlace, textAt_zero nul]
  simp only [Option.bind_eq_bind, Option.bind_some, cInt_small short, run]
  rfl

theorem findFrom_append (pattern done text : List UInt8) :
    findFrom pattern (done ++ text) done.length = (find pattern text).map (done.length + ·) := by
  rw [findFrom, if_pos (by rw [List.length_append]; omega), List.drop_left]

theorem replacestrLoop_eq (some : szSrc ≠ []) {rounds : ℕ} (enough : text.length ≤ rounds) :
    replacestrLoop szSrc szDst rounds (done ++ text) ((find szSrc text).map (done.length + ·)) =
      .some (done ++ replaceFrom [szSrc] szDst 0 text) := by
  induction rounds generalizing text done with
  | zero =>
      obtain rfl := List.eq_nil_of_length_eq_zero (Nat.le_zero.mp enough)
      have missing : find szSrc [] = none := if_neg some
      rw [missing]
      rfl
  | succ rounds ih =>
      cases found : find szSrc text with
      | none =>
          rw [replaceFrom_of_find_none found]
          rfl
      | some i =>
          obtain ⟨front, rest, rfl, rfl⟩ := split_of_find found
          have positive := List.length_pos_iff.mpr some
          simp only [List.length_append] at enough
          have cut : (done ++ (front ++ szSrc ++ rest)).take (done.length + front.length) = done ++ front := by
            rw [List.append_assoc front, ← List.append_assoc, ← List.length_append, List.take_left]
          have tail : (done ++ (front ++ szSrc ++ rest)).drop (done.length + front.length + szSrc.length) =
              rest := by
            rw [← List.append_assoc, ← List.append_assoc, ← List.length_append, ← List.length_append,
              List.drop_left]
          have place : done.length + front.length + szDst.length = (done ++ front ++ szDst).length := by
            simp only [List.length_append]
          have inside : ¬ (done ++ front ++ szDst).length > (done ++ front ++ szDst ++ rest).length := by
            simp only [List.length_append]
            omega
          rw [Option.map_some, replacestrLoop]
          simp only [cut, tail, place]
          rw [if_neg inside, findFrom_append, ih (by omega), replaceFrom_of_find some found]
          simp only [List.append_assoc]

end Replacement

/-- In a buffer with room for it, the two functions on `char *` leave the text with every occurrence of the
pattern replaced, from the left, and the one on strings gives the same. -/
theorem szReplace_substitutes (text szSrc szDst : CString) (nul : 0 ∉ text) (nulDst : 0 ∉ szDst)
    (some : szSrc ≠ []) (free : List UInt8)
    (room : (replaceFrom [szSrc] szDst 0 text).length ≤ text.length + free.length)
    (short : text.length < 2 ^ 31) (shortResult : (replaceFrom [szSrc] szDst 0 text).length < 2 ^ 31) :
    (∃ mem, szReplace (text ++ 0 :: free) szSrc szDst = .some (true, mem) ∧
      textAt 0 mem 0 = .some (replaceFrom [szSrc] szDst 0 text)) ∧
    (∃ mem, szReplaceReply (text ++ 0 :: free) szSrc szDst = .some (true, mem) ∧
      textAt 0 mem 0 = .some (replaceFrom [szSrc] szDst 0 text)) ∧
    replacestr text szSrc szDst = .some (replaceFrom [szSrc] szDst 0 text) := by
  have clean : 0 ∉ replaceFrom [szSrc] szDst 0 text := fun mem =>
    (mem_of_replaceFrom mem).elim nul nulDst
  obtain ⟨left, run⟩ := replaceInPlace_eq some nul room short shortResult
  refine ⟨⟨_, run, textAt_zero clean left⟩, ⟨_, run, textAt_zero clean left⟩, ?_⟩
  rw [replacestr]
  split_ifs with nothing
  · obtain rfl := nothing.resolve_right some
    rfl
  · have place : findFrom szSrc text 0 = (find szSrc text).map (0 + ·) := findFrom_append szSrc [] text
    have all : replacestrLoop szSrc szDst text.length ([] ++ text) ((find szSrc text).map (0 + ·)) =
        .some ([] ++ replaceFrom [szSrc] szDst 0 text) := replacestrLoop_eq some (Nat.le_refl _)
    rw [place]
    exact all

theorem szReplace_substitutes_inserted :
    ∃ mem, szReplace (ascii "abcab" ++ [0, 7, 7, 7, 7, 7, 7]) (ascii "ab") (ascii "xabab") = some (true, mem) ∧
      textAt 0 mem 0 = some (ascii "xababcxabab") :=
  (szReplace_substitutes (ascii "abcab") (ascii "ab") (ascii "xabab") (by decide) (by decide) (by decide)
    [7, 7, 7, 7, 7, 7] (by decide) (by decide) (by decide)).1

/-- A round that moves the tail from outside the buffer. -/
theorem szReplaceRound_outside {szSrc szDst : CString} {s : Replacing} {p1 p2 source : ℕ}
    (target : inBuffer (p2 + cInt szDst.length) = some p1)
    (fromSource : inBuffer (p2 + cInt szSrc.length) = some source)
    (outside : move s.szStr p1 source (cSize (s.nStr - p2 - cInt szSrc.length + 1)) = none) :
    szReplaceRound szSrc szDst s p2 = none := by
  unfold szReplaceRound
  dsimp only
  rw [target, Option.bind_eq_bind, Option.bind_some, fromSource, Option.bind_eq_bind, Option.bind_some,
    outside, Option.bind_none]

/-- A text of `2^31` bytes has no length that is an `int`: the tail is moved from outside the buffer. -/
theorem szReplace_overlong {text szSrc szDst : CString} (nul : 0 ∉ text) (long : text.length = 2 ^ 31)
    (lead : szSrc <+: text) (one : szSrc.length = 1) (erased : szDst.length = 0) :
    szReplace (text ++ 0 :: []) szSrc szDst = none := by
  obtain ⟨rounds, length⟩ : ∃ rounds, text.length = rounds + 1 := ⟨text.length - 1, by omega⟩
  have running : cInt text.length = -2 ^ 31 := by
    rw [long]
    decide
  have nSrc : cInt szSrc.length = 1 := by
    rw [one]
    decide
  have nDst : cInt szDst.length = 0 := by
    rw [erased]
    decide
  have search : strstrAt szSrc (text ++ 0 :: []) 0 = some (some 0) := by
    have there := strstrAt_eq szSrc nul [] []
    rwa [find_at_start lead] at there
  have outside : move (text ++ 0 :: []) 0 1 (cSize (cInt text.length - ((0 : ℕ) : ℤ) - cInt szSrc.length + 1)) =
      none := by
    obtain ⟨n, count, large⟩ : ∃ n, cSize (-2 ^ 31 - ((0 : ℕ) : ℤ) - 1 + 1) = n ∧ 2 ^ 32 < n :=
      ⟨_, rfl, by decide⟩
    rw [running, nSrc, count, move, CharBuffer.get, if_neg]
    · rfl
    · rw [List.length_append, List.length_singleton]
      omega
  have target : inBuffer (((0 : ℕ) : ℤ) + cInt szDst.length) = some 0 := by
    rw [nDst]
    rfl
  have source : inBuffer (((0 : ℕ) : ℤ) + cInt szSrc.length) = some 1 := by
    rw [nSrc]
    rfl
  have round : szReplaceRound szSrc szDst ⟨text ++ 0 :: [], 0, cInt text.length⟩ 0 = none := by
    generalize cInt text.length = nStr at outside
    exact szReplaceRound_outside target source outside
  have run : szReplaceLoop szSrc szDst text.length ⟨text ++ 0 :: [], 0, cInt text.length⟩ = none := by
    generalize cInt text.length = nStr at round
    rw [length, szReplaceLoop_found search, round]
    rfl
  rw [szReplace, replaceInPlace, textAt_zero nul, Option.bind_eq_bind, Option.bind_some, run]
  rfl

theorem szReplace_long :
    ¬ ∀ (text szSrc szDst : CString) (free : List UInt8), 0 ∉ text → 0 ∉ szDst → szSrc ≠ [] →
      (replaceFrom [szSrc] szDst 0 text).length ≤ text.length + free.length →
        ∃ mem, szReplace (text ++ 0 :: free) szSrc szDst = some (true, mem) ∧
          textAt 0 mem 0 = some (replaceFrom [szSrc] szDst 0 text) := by
  intro substitutes
  have nul : (0 : UInt8) ∉ 97 :: List.replicate (2 ^ 31 - 1) 98 := by
    rw [List.mem_cons, List.mem_replicate]
    exact fun mem => mem.elim (by decide) fun mem => absurd mem.2 (by decide)
  have size : ∀ pattern ∈ [[(97 : UInt8)]], pattern.length = 1 := by simp
  obtain ⟨k, total⟩ : ∃ k, (replaceFrom [[(97 : UInt8)]] [] 0 (97 :: List.replicate (2 ^ 31 - 1) 98)).length +
      0 + k * 1 = (97 :: List.replicate (2 ^ 31 - 1) (98 : UInt8)).length + k * 0 :=
    length_replaceFrom size Nat.one_pos (Nat.zero_le _)
  have room : (replaceFrom [[(97 : UInt8)]] [] 0 (97 :: List.replicate (2 ^ 31 - 1) 98)).length ≤
      (97 :: List.replicate (2 ^ 31 - 1) (98 : UInt8)).length + ([] : List UInt8).length := by
    rw [List.length_nil]
    omega
  obtain ⟨mem, run, -⟩ := substitutes _ [97] [] [] nul (by decide) (by decide) room
  have long : (97 :: List.replicate (2 ^ 31 - 1) (98 : UInt8)).length = 2 ^ 31 := by
    rw [List.length_cons, List.length_replicate, Nat.sub_add_cancel (by decide)]
  rw [szReplace_overlong nul long ⟨_, rfl⟩ rfl rfl] at run
  cases run

end BloomServer
