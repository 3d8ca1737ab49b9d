import BloomServer.UrlParse
import Mathlib.Data.List.DropRight

/-! `readconf`: a value looked up by its section and its key in the lines of a configuration file. -/
namespace BloomServer
open DecimalText

def cfgLine : ℕ := 2048

inductive CfgResult
  | noError
  | noFile
  | noFind
  deriving DecidableEq

/-- What `fgets` of `CFG_LINE` bytes gives on call after call, with `buf` in the buffer already: a line
with its newline, and the rest of the file at its end. -/
def fgetsAll (buf : List UInt8) : List UInt8 → List (List UInt8)
  | [] => if buf = [] then [] else [buf]
  | b :: rest =>
      if b = 10 ∨ (buf ++ [b]).length = cfgLine - 1 then (buf ++ [b]) :: fgetsAll [] rest
      else fgetsAll (buf ++ [b]) rest

/-- `'\r'`, `'\n'`, `' '` and `'\t'`. -/
def isMargin (b : UInt8) : Bool := b = 13 || b = 10 || b = 32 || b = 9

/-- The text of a line, up to its NUL, without its margins. -/
def readline (buf : List UInt8) : List UInt8 :=
  ((buf.takeWhile (· ≠ 0)).rdropWhile isMargin).dropWhile isMargin

def isGraph (b : UInt8) : Bool := 33 ≤ b && b ≤ 126

/-- A line whose first graphic character is a `'#'`, or that has none. -/
def isremark (line : List UInt8) : Bool := ((line.find? isGraph).map fun b => decide (b = 35)).getD true

/-- `start` is 0 and `end` the last place; the last character is looked at from the third place on. -/
def getsection (line : List UInt8) : Option (List UInt8) :=
  if ∃ b ∈ line.head?, b ≠ 91 then none
  else if line.length - 1 > 1 ∧ line.getLast? ≠ some 93 then none
  else if line.length - 1 < 2 then none
  else some ((line.drop 1).take (line.length - 2))

def isTab (b : UInt8) : Bool := b = 32 || b = 9

/-- The key and its value. The last loop is over the blanks at the end of the value, and cuts the key off
at their places. -/
def getkey (line : List UInt8) : Option (List UInt8 × List UInt8) :=
  if 61 ∉ line then none
  else
    let keyname := (line.takeWhile (· ≠ 61)).rdropWhile isTab
    let keyvalue := ((line.dropWhile (· ≠ 61)).drop 1).dropWhile isTab
    let kept := (keyvalue.rdropWhile isTab).length
    some (if kept < keyvalue.length then keyname.take kept else keyname, keyvalue)

/-- The loop over the lines that are read; `step` is 1 once the section has been found. It ends with the
last line that there is, at `feof` or when `fgets` gives nothing. -/
def searchKey (sectionName keyname : List UInt8) : Bool → List (List UInt8) → Option (List UInt8)
  | _, [] => none
  | step, line :: rest =>
      if isremark line then searchKey sectionName keyname step rest
      else if step then
        match getkey line with
        | some (ken, kev) => if ken = keyname then some kev else searchKey sectionName keyname true rest
        | none => searchKey sectionName keyname true rest
      else searchKey sectionName keyname (getsection line = some sectionName) rest

/-- `strncpy`: what it copies is filled up with NULs, and ends in none if it is too long. -/
def strncpy (text : List UInt8) (len : ℕ) : List UInt8 := (text ++ List.replicate len 0).take len

/-- `keyvalue` is a buffer of `len` bytes. -/
def getconfigstr (sectionName keyname keyvalue : List UInt8) (file : Option (List UInt8)) :
    CfgResult × List UInt8 :=
  match file with
  | none => (.noFile, keyvalue)
  | some bytes =>
      match searchKey sectionName keyname false ((fgetsAll [] bytes).map readline) with
      | some kev => (.noError, strncpy kev keyvalue.length)
      | none => (.noFind, keyvalue)

/-! ### What the file says -/

/-- The name in a line `[name]`. -/
def header (line : List UInt8) : Option (List UInt8) := if isremark line then none else getsection line

/-- The value in a line `key = value` for this key, without the blanks around it. -/
def valueOf (key line : List UInt8) : Option (List UInt8) :=
  if isremark line = false ∧ 61 ∈ line ∧ (line.takeWhile (· ≠ 61)).rdropWhile isTab = key then
    some ((((line.dropWhile (· ≠ 61)).drop 1).dropWhile isTab).rdropWhile isTab)
  else none

/-- Each line with those before it. -/
def placed (before : List (List UInt8)) : List (List UInt8) → List (List (List UInt8) × List UInt8)
  | [] => []
  | line :: rest => (before, line) :: placed (before ++ [line]) rest

/-- A lookup in a file of short lines, into a buffer that is not empty. -/
structure ConfigLookup where
  sectionName : List UInt8
  key : List UInt8
  buffer : List UInt8
  file : List UInt8
  room : buffer ≠ []
  short : ∀ line ∈ file.splitOn 10, line.length < cfgLine - 1

namespace ConfigLookup

variable (q : ConfigLookup)

/-- The texts of the lines, without their margins. -/
def lines : List (List UInt8) := (q.file.splitOn 10).map readline

/-- A line behind a header `[section]`. -/
def Behind (p : List (List UInt8) × List UInt8) : Prop := q.sectionName ∈ p.1.filterMap header

/-- A line, no header itself, between a header `[section]` and the next header. -/
def Inside (p : List (List UInt8) × List UInt8) : Prop :=
  (p.1.filterMap header).getLast? = some q.sectionName ∧ header p.2 = none

instance (p : List (List UInt8) × List UInt8) : Decidable (q.Behind p) :=
  inferInstanceAs (Decidable (_ ∈ _))

instance (p : List (List UInt8) × List UInt8) : Decidable (q.Inside p) :=
  inferInstanceAs (Decidable (_ ∧ _))

/-- The values of the key in the section, in the order of their lines. -/
def values : List (List UInt8) :=
  ((placed [] q.lines).filter fun p => q.Inside p).filterMap fun p => valueOf q.key p.2

def result : CfgResult × List UInt8 := getconfigstr q.sectionName q.key q.buffer (some q.file)

/-- The first value is found, if there is one, and the buffer holds it with a NUL behind it. -/
def Respected : Prop :=
  (q.result.1 = .noError ↔ q.values ≠ []) ∧
  (∀ value ∈ q.values.head?, q.result.2.length = q.buffer.length ∧
    ∃ rest, q.result.2 = value.take (q.buffer.length - 1) ++ 0 :: rest) ∧
  (q.values = [] → q.result = (.noFind, q.buffer))

/-- The first line with the key behind a header of the section, if there is one, has a value that is shorter
than the buffer, and is inside the section; or the first that is has the same value, up to the length of
the buffer. -/
def FirstInside : Prop :=
  ∀ p ∈ (placed [] q.lines).find? fun p => q.Behind p ∧ valueOf q.key p.2 ≠ none,
    ∀ value ∈ valueOf q.key p.2, value.length < q.buffer.length ∧
      (q.Inside p ∨ ∃ first ∈ q.values.head?, value = first.take (q.buffer.length - 1))

end ConfigLookup

/-! ### Lines -/

section Lines

variable {line buf : List UInt8}

theorem nul_readline (buf : List UInt8) : 0 ∉ readline buf := by
  intro mem
  have inside := (List.rdropWhile_prefix _ _).mem ((List.dropWhile_suffix _).mem mem)
  simpa using List.mem_takeWhile_imp inside

theorem isMargin_of_isTab {b : UInt8} (tab : isTab b = true) : isMargin b = true := by
  simp only [isTab, isMargin, Bool.or_eq_true] at tab ⊢
  tauto

/-- Nothing is left to cut off at the end of a suffix either. -/
theorem rdropWhile_suffix {p : UInt8 → Bool} {text : List UInt8} (suffix : text <:+ line)
    (kept : line.rdropWhile p = line) : text.rdropWhile p = text := by
  rw [List.rdropWhile_eq_self_iff] at kept ⊢
  intro some
  have last := kept (suffix.ne_nil some)
  rwa [← suffix.getLast some] at last

theorem rdropWhile_readline (buf : List UInt8) : (readline buf).rdropWhile isTab = readline buf := by
  apply rdropWhile_suffix (List.dropWhile_suffix isMargin)
  rw [List.rdropWhile_eq_self_iff]
  intro some tab
  exact List.rdropWhile_last_not _ _ some (isMargin_of_isTab tab)

theorem readline_newline (buf : List UInt8) : readline (buf ++ [10]) = readline buf := by
  unfold readline
  rw [List.takeWhile_append]
  split_ifs with whole
  · have all : buf.takeWhile (· ≠ 0) = buf := (List.takeWhile_prefix _).eq_of_length whole
    have newline : ([10] : List UInt8).takeWhile (· ≠ 0) = [10] := rfl
    rw [all, newline, List.rdropWhile_concat_pos _ _ _ rfl]
  · rfl

/-- A line with a name between its brackets. -/
theorem getsection_eq_some_iff {name : List UInt8} :
    getsection line = some name ↔ name ≠ [] ∧ line = 91 :: (name ++ [93]) := by
  constructor
  · intro found
    unfold getsection at found
    split_ifs at found with first last short
    cases found
    cases line with
    | nil => exact absurd (Nat.zero_lt_two) short
    | cons b text =>
        have bracket : b = 91 := by
          by_contra other
          exact first ⟨b, rfl, other⟩
        rw [List.length_cons, Nat.add_sub_cancel] at last short
        rcases List.eq_nil_or_concat text with rfl | ⟨front, c, rfl⟩
        · exact absurd Nat.zero_lt_two short
        · rw [List.concat_eq_append, List.length_append, List.length_singleton] at last short
          have close : c = 93 := by
            by_contra other
            refine last ⟨by omega, fun is => other ?_⟩
            have concat : (b :: front ++ [c]).getLast? = some c := List.getLast?_concat
            exact Option.some.inj (concat.symm.trans is)
          subst bracket close
          have taken : ((91 :: (front ++ [93])).drop 1).take ((91 :: (front ++ [93])).length - 2) = front := by
            simp
          rw [List.concat_eq_append, taken]
          refine ⟨?_, rfl⟩
          rintro rfl
          exact short Nat.one_lt_two
  · rintro ⟨some, rfl⟩
    have length := List.length_pos_iff.mpr some
    have last : (91 :: name ++ [93]).getLast? = Option.some 93 := List.getLast?_concat
    have whole : (91 :: (name ++ [93])).length = name.length + 2 := by simp
    unfold getsection
    rw [if_neg (by simp), if_neg fun other => other.2 last, whole, if_neg (by omega),
      Nat.add_sub_cancel]
    exact congrArg _ List.take_left

/-- The cut at the end of the value does nothing to a line without a margin. -/
theorem getkey_eq (trimmed : line.rdropWhile isTab = line) (graph : isremark line = false)
    (key : List UInt8) : valueOf key line =
      (getkey line).bind fun p => if p.1 = key then some p.2 else none := by
  unfold valueOf getkey
  by_cases sign : 61 ∈ line
  · have kept : (((line.dropWhile (· ≠ 61)).drop 1).dropWhile isTab).rdropWhile isTab =
        ((line.dropWhile (· ≠ 61)).drop 1).dropWhile isTab :=
      rdropWhile_suffix (((List.dropWhile_suffix _).trans (List.drop_suffix _ _)).trans
        (List.dropWhile_suffix _)) trimmed
    rw [if_neg (not_not.mpr sign)]
    dsimp only
    rw [kept, if_neg (Nat.lt_irrefl _), Option.bind_some]
    exact if_congr (by simp [graph, sign]) rfl rfl
  · rw [if_neg fun all => sign all.2.1, if_pos sign]
    rfl

end Lines

/-! ### The search -/

section Search

variable {sectionName key : List UInt8} {line : List UInt8} {rest before : List (List UInt8)}

theorem searchKey_remark (step : Bool) (remark : isremark line = true) :
    searchKey sectionName key step (line :: rest) = searchKey sectionName key step rest := if_pos remark

theorem searchKey_value (trimmed : line.rdropWhile isTab = line) (graph : isremark line = false) :
    searchKey sectionName key true (line :: rest) =
      (valueOf key line).or (searchKey sectionName key true rest) := by
  rw [searchKey, if_neg (by rw [graph]; decide), if_pos rfl, getkey_eq trimmed graph]
  rcases getkey line with _ | ⟨ken, kev⟩
  · rfl
  · dsimp only [Option.bind_some]
    split_ifs <;> rfl

theorem mem_headers : sectionName ∈ (before ++ [line]).filterMap header ↔
    sectionName ∈ before.filterMap header ∨ header line = some sectionName := by
  rw [List.filterMap_append, List.mem_append, List.mem_filterMap, List.mem_filterMap]
  simp

/-- The search gives the value in the first line with the key behind the header. -/
theorem searchKey_eq (lines : List (List UInt8)) (trimmed : ∀ line ∈ lines, line.rdropWhile isTab = line)
    (before : List (List UInt8)) :
    searchKey sectionName key (sectionName ∈ before.filterMap header) lines =
      ((placed before lines).find? fun p =>
        sectionName ∈ p.1.filterMap header ∧ valueOf key p.2 ≠ none).bind fun p => valueOf key p.2 := by
  induction lines generalizing before with
  | nil => rfl
  | cons line rest ih =>
      have later := ih (fun line mem => trimmed line (List.mem_cons_of_mem _ mem)) (before ++ [line])
      rw [placed]
      cases remark : isremark line with
      | true =>
          have none : header line = none := if_pos remark
          have no_value : valueOf key line = Option.none := if_neg (by simp [remark])
          have step : sectionName ∈ before.filterMap header ↔
              sectionName ∈ (before ++ [line]).filterMap header := by
            rw [mem_headers, none]
            simp
          rw [searchKey_remark _ remark, List.find?_cons_of_neg (by simp [no_value]),
            decide_eq_decide.mpr step]
          exact later
      | false =>
          by_cases inside : sectionName ∈ before.filterMap header
          · have step : decide (sectionName ∈ (before ++ [line]).filterMap header) = true :=
              decide_eq_true (mem_headers.mpr (Or.inl inside))
            rw [decide_eq_true inside, searchKey_value (trimmed line List.mem_cons_self) remark]
            cases value : valueOf key line with
            | some kev =>
                rw [List.find?_cons_of_pos (by simp [inside, value])]
                exact value.symm
            | none =>
                rw [step] at later
                rw [List.find?_cons_of_neg (by simp [value])]
                exact later
          · have found : getsection line = header line := (if_neg (by rw [remark]; decide)).symm
            have step : getsection line = some sectionName ↔
                sectionName ∈ (before ++ [line]).filterMap header := by
              rw [mem_headers, found, or_iff_right inside]
            rw [decide_eq_false inside, searchKey, if_neg (by rw [remark]; decide), if_neg (by decide),
              decide_eq_decide.mpr step, List.find?_cons_of_neg (by simp [inside])]
            exact later

/-- Lines whose search is the same may follow one line. -/
theorem searchKey_cons_congr {rest' : List (List UInt8)}
    (same : ∀ step, searchKey sectionName key step rest = searchKey sectionName key step rest') (step : Bool)
    (line : List UInt8) :
    searchKey sectionName key step (line :: rest) = searchKey sectionName key step (line :: rest') := by
  simp only [searchKey, same]

/-- What is read of short lines is what the file is split into, but for an empty line at the end. -/
theorem searchKey_fgetsAll (file buf : List UInt8)
    (short : ∀ line ∈ file.splitOnPPrepend (· == 10) buf.reverse, line.length < cfgLine - 1)
    (step : Bool) : searchKey sectionName key step ((fgetsAll buf file).map readline) =
      searchKey sectionName key step ((file.splitOnPPrepend (· == 10) buf.reverse).map readline) := by
  induction file generalizing buf step with
  | nil =>
      rw [fgetsAll, List.splitOnPPrepend_nil, List.reverse_reverse]
      split_ifs with empty
      · rw [empty]
        rfl
      · rfl
  | cons b file ih =>
      rw [fgetsAll]
      by_cases newline : b = 10
      · subst newline
        rw [List.splitOnPPrepend_cons_pos (by rfl), List.reverse_reverse] at short ⊢
        rw [if_pos (Or.inl rfl), List.map_cons, List.map_cons, readline_newline]
        apply searchKey_cons_congr
        intro step
        exact ih [] (fun line mem => short line (List.mem_cons_of_mem _ mem)) step
      · have other : (b == 10) = false := beq_eq_false_iff_ne.mpr newline
        have same : b :: buf.reverse = (buf ++ [b]).reverse := by simp
        rw [@List.splitOnPPrepend_cons_neg _ (· == 10) _ _ _ other, same] at short ⊢
        have room : (buf ++ [b]).length < cfgLine - 1 := by
          obtain ⟨first, more, pieces⟩ := List.exists_cons_of_ne_nil (List.splitOnP_ne_nil (· == 10) file)
          rw [List.splitOnPPrepend_eq_modifyHead, pieces, List.reverse_reverse] at short
          have head := short _ List.mem_cons_self
          rw [List.length_append] at head
          omega
        rw [if_neg (by rintro (is | full); exacts [newline is, absurd full (Nat.ne_of_lt room)])]
        exact ih (buf ++ [b]) short step

end Search

/-! ### Copied values -/

section Copy

variable {text value rest : List UInt8} {len : ℕ}

theorem length_strncpy : (strncpy text len).length = len := by
  rw [strncpy, List.length_take, List.length_append, List.length_replicate]
  omega

theorem strncpy_short (short : text.length < len) :
    strncpy text len = text ++ 0 :: List.replicate (len - text.length - 1) 0 := by
  obtain ⟨extra, rfl⟩ := Nat.exists_eq_add_of_lt short
  rw [strncpy, List.take_append, List.take_of_length_le (by omega), List.take_replicate,
    ← List.replicate_succ]
  congr 2
  omega

/-- A text without NULs is held with a NUL behind it if it is shorter than the buffer. -/
theorem strncpy_eq_iff (clean : 0 ∉ text) (clean' : 0 ∉ value) :
    (∃ rest, strncpy text len = value ++ 0 :: rest) ↔ text.length < len ∧ text = value := by
  constructor
  · rintro ⟨rest, copied⟩
    have nul : (0 : UInt8) ∈ strncpy text len := by
      rw [copied]
      exact List.mem_append_right _ List.mem_cons_self
    have short : text.length < len := by
      by_contra long
      rw [strncpy, List.take_append_of_le_length (Nat.not_lt.mp long)] at nul
      exact clean (List.mem_of_mem_take nul)
    have stop (l : List UInt8) : (0 :: l).takeWhile (· ≠ 0) = [] := rfl
    rw [strncpy_short short] at copied
    have front := congrArg (List.takeWhile (· ≠ 0)) copied
    rw [List.takeWhile_append_of_pos fun b mem => Tokens.ne_of_mem clean mem,
      List.takeWhile_append_of_pos fun b mem => Tokens.ne_of_mem clean' mem, stop, stop,
      List.append_nil, List.append_nil] at front
    exact ⟨short, front⟩
  · rintro ⟨short, rfl⟩
    exact ⟨_, strncpy_short short⟩

end Copy

/-! ### Sections respected -/

theorem mem_of_placed {lines before : List (List UInt8)} {p : List (List UInt8) × List UInt8}
    (mem : p ∈ placed before lines) : p.2 ∈ lines := by
  induction lines generalizing before with
  | nil => cases mem
  | cons line rest ih =>
      rcases List.mem_cons.mp mem with rfl | mem
      · exact List.mem_cons_self
      · exact List.mem_cons_of_mem _ (ih mem)

theorem valueOf_subset {key line value : List UInt8} (is : valueOf key line = some value) {b : UInt8}
    (mem : b ∈ value) : b ∈ line := by
  unfold valueOf at is
  split_ifs at is
  cases is
  exact (List.dropWhile_suffix _).mem (List.mem_of_mem_drop
    ((List.dropWhile_suffix _).mem ((List.rdropWhile_prefix _ _).mem mem)))

namespace ConfigLookup

variable {q : ConfigLookup} {p : List (List UInt8) × List UInt8} {value : List UInt8}

theorem search_eq (q : ConfigLookup) :
    searchKey q.sectionName q.key false ((fgetsAll [] q.file).map readline) =
      ((placed [] q.lines).find? fun p => q.Behind p ∧ valueOf q.key p.2 ≠ none).bind
        fun p => valueOf q.key p.2 := by
  rw [searchKey_fgetsAll q.file [] q.short]
  apply searchKey_eq q.lines _ []
  intro line mem
  obtain ⟨buf, -, rfl⟩ := List.mem_map.mp mem
  exact rdropWhile_readline buf

theorem result_eq {found : Option (List UInt8)}
    (is : searchKey q.sectionName q.key false ((fgetsAll [] q.file).map readline) = found) :
    q.result = found.elim (.noFind, q.buffer) fun kev => (.noError, strncpy kev q.buffer.length) := by
  unfold result getconfigstr
  dsimp only
  rw [is]
  cases found <;> rfl

theorem Inside.behind (inside : q.Inside p) : q.Behind p := List.mem_of_getLast? inside.1

/-- Nothing is in the section where nothing is behind its header. -/
theorem values_nil (none : (placed [] q.lines).find? (fun p => q.Behind p ∧ valueOf q.key p.2 ≠ none) = .none) :
    q.values = [] := by
  rw [List.find?_eq_none] at none
  rw [values, List.filterMap_eq_nil_iff]
  intro p mem
  obtain ⟨there, inside⟩ := List.mem_filter.mp mem
  by_contra some
  exact none p there (decide_eq_true ⟨(of_decide_eq_true inside).behind, some⟩)

/-- The first line with the key behind the header, when it is in the section, is the first there. -/
theorem values_head
    (first : (placed [] q.lines).find? (fun p => q.Behind p ∧ valueOf q.key p.2 ≠ none) = some p)
    (inside : q.Inside p) (is : valueOf q.key p.2 = some value) : q.values.head? = some value := by
  obtain ⟨-, front, rest, split, earlier⟩ := List.find?_eq_some_iff_append.mp first
  have skipped : (front.filter fun p => q.Inside p).filterMap (fun p => valueOf q.key p.2) = [] := by
    rw [List.filterMap_eq_nil_iff]
    intro a mem
    obtain ⟨there, inside⟩ := List.mem_filter.mp mem
    by_contra some
    have := earlier a there
    simp [(of_decide_eq_true inside).behind, some] at this
  rw [values, split, List.filter_append, List.filterMap_append, skipped, List.nil_append,
    List.filter_cons, if_pos (decide_eq_true inside), List.filterMap_cons, is]
  rfl

theorem clean_value (mem : p ∈ placed [] q.lines) (is : valueOf q.key p.2 = some value) : 0 ∉ value := by
  intro nul
  obtain ⟨buf, -, line⟩ := List.mem_map.mp (mem_of_placed mem)
  apply nul_readline buf
  rw [line]
  exact valueOf_subset is nul

theorem clean_head (head : q.values.head? = some value) : 0 ∉ value := by
  obtain ⟨p, mem, is⟩ := List.mem_filterMap.mp (List.mem_of_head? head)
  exact clean_value (List.mem_filter.mp mem).1 is

end ConfigLookup

/-- The lookup respects the sections exactly when the first line with the key behind a header of the section
is inside it, and short. -/
theorem section_respected_iff (q : ConfigLookup) : q.Respected ↔ q.FirstInside := by
  have search := q.search_eq
  unfold ConfigLookup.Respected ConfigLookup.FirstInside
  cases first : (placed [] q.lines).find? fun p => q.Behind p ∧ valueOf q.key p.2 ≠ none with
  | none =>
      have empty := ConfigLookup.values_nil first
      rw [first] at search
      rw [ConfigLookup.result_eq search, empty]
      refine iff_of_true ⟨iff_of_false (nomatch ·) (absurd rfl), ?_, fun _ => rfl⟩ ?_
      · intro value mem
        cases mem
      · intro p mem
        cases mem
  | some p =>
      have there := List.mem_of_find?_eq_some first
      have found := List.find?_some first
      obtain ⟨value, is⟩ := Option.ne_none_iff_exists'.mp (of_decide_eq_true found).2
      have clean := ConfigLookup.clean_value there is
      rw [first, Option.bind_some, is] at search
      rw [ConfigLookup.result_eq search]
      dsimp only [Option.elim_some]
      cases head : q.values.head? with
      | none =>
          have empty := List.head?_eq_none_iff.mp head
          refine iff_of_false (fun all => all.1.mp rfl empty) ?_
          intro all
          obtain ⟨-, inside | ⟨w, mem, -⟩⟩ := all p rfl value is
          · rw [ConfigLookup.values_head first inside is] at head
            cases head
          · cases mem
      | some w =>
          have some : q.values ≠ [] := by
            intro empty
            rw [empty] at head
            cases head
          have clean' : 0 ∉ w.take (q.buffer.length - 1) :=
            fun mem => ConfigLookup.clean_head head (List.mem_of_mem_take mem)
          have held := @strncpy_eq_iff value (w.take (q.buffer.length - 1)) q.buffer.length clean clean'
          constructor
          · rintro ⟨-, all, -⟩ p' mem value' is'
            cases mem
            cases is.symm.trans is'
            obtain ⟨-, copied⟩ := all w rfl
            obtain ⟨short, same⟩ := held.mp copied
            exact ⟨short, Or.inr ⟨w, rfl, same⟩⟩
          · intro all
            obtain ⟨short, same⟩ := all p rfl value is
            refine ⟨iff_of_true rfl some, ?_, fun empty => absurd empty some⟩
            intro w' mem
            cases mem
            refine ⟨length_strncpy, held.mpr ⟨short, ?_⟩⟩
            rcases same with inside | ⟨w', mem, same⟩
            · rw [ConfigLookup.values_head first inside is] at head
              cases head
              exact (List.take_of_length_le (Nat.le_sub_one_of_lt short)).symm
            · cases mem
              exact same

/-- `"[a]\n[b]\nk=v\n"`. -/
def twoSections : List UInt8 := ascii "[a]" ++ 10 :: (ascii "[b]" ++ 10 :: (ascii "k=v" ++ [10]))

theorem short_twoSections : ∀ line ∈ twoSections.splitOn 10, line.length < cfgLine - 1 := by decide

/-- The key in the second section, looked up in the first. -/
def lookupFirst : ConfigLookup :=
  ⟨ascii "a", ascii "k", [0, 0, 0, 0], twoSections, List.cons_ne_nil _ _, short_twoSections⟩

theorem not_section_respected : ¬ ∀ q : ConfigLookup, q.Respected := by
  intro claim
  have found : lookupFirst.result.1 = .noError := by decide
  have empty : lookupFirst.values = [] := by decide
  exact (claim lookupFirst).1.mp found empty

end BloomServer
