import BloomServer.Library.CharBuffer
import BloomServer.UrlParse

/-! `DbManager::TransferRegEx`: a pattern with wildcards becomes a regular expression, in a buffer of
`MAX_URL_LEN` bytes. -/
namespace BloomServer
open CharBuffer

/-- What is written for a byte in front of others, and how many of these are passed over with it. -/
def transferred (c : UInt8) (rest : CString) : List UInt8 × ℕ :=
  if c ∈ ascii ".*?|\\()\x7b\x7d]" then ([92, c], 0)
  else if c = 91 then
    if ascii "*]" <+: rest then (ascii "(.*)", 2)
    else if ascii "?]" <+: rest then (ascii "(.\x7b1\x7d)", 2)
    else if ascii "$]" <+: rest then (ascii "([0-9]+)", 2)
    else ([92, c], 0)
  else ([c], 0)

/-- The loop, with `skip` bytes still to be passed over and `j` bytes written. -/
def transferLoop : ℕ → CString → ℕ → List UInt8 → Option (List UInt8)
  | _, [], j, sNew => put sNew j [0]
  | skip + 1, _ :: rest, j, sNew => transferLoop skip rest j sNew
  | 0, c :: rest, j, sNew =>
      if j ≥ maxUrlLen - 10 then put sNew j [0]
      else do
        let sNew ← put sNew j (transferred c rest).1
        transferLoop (transferred c rest).2 rest (j + (transferred c rest).1.length) sNew

def TransferRegEx (sOrigi : CString) (sNew : List UInt8) : Option (List UInt8) :=
  transferLoop 0 sOrigi 0 sNew

/-! ### What `TransferRegEx` writes -/

/-- The text that is written, with `skip` bytes still to be passed over and `j` bytes written. -/
def transferText : ℕ → CString → ℕ → CString
  | _, [], _ => []
  | skip + 1, _ :: rest, j => transferText skip rest j
  | 0, c :: rest, j =>
      if j ≥ maxUrlLen - 10 then []
      else (transferred c rest).1 ++
        transferText (transferred c rest).2 rest (j + (transferred c rest).1.length)

section Transfer

variable {c : UInt8} {text front rest : List UInt8}

theorem length_transferred (c : UInt8) (rest : CString) : (transferred c rest).1.length ≤ 8 := by
  unfold transferred
  split_ifs <;> simp [ascii]

theorem transferred_clean (other : c ≠ 0) (rest : CString) : 0 ∉ (transferred c rest).1 := by
  have escape : (0 : UInt8) ∉ [92, c] := by simp [other.symm]
  unfold transferred
  split_ifs with special bracket star question dollar
  · exact escape
  · decide
  · decide
  · decide
  · exact escape
  · simp [other.symm]

theorem length_transferText (skip : ℕ) (text : CString) {j : ℕ} (low : j ≤ maxUrlLen - 3) :
    j + (transferText skip text j).length ≤ maxUrlLen - 3 := by
  induction skip, text, j using transferText.induct with
  | case1 skip j => exact low
  | case2 j skip b rest ih =>
      rw [transferText]
      exact ih low
  | case3 c rest j full =>
      rw [transferText, if_pos full]
      exact low
  | case4 c rest j room ih =>
      have eight := length_transferred c rest
      have size := maxUrlLen_eq
      rw [transferText, if_neg room, List.length_append, ← Nat.add_assoc]
      exact ih (by omega)

theorem transferText_clean (skip : ℕ) {text : CString} (nul : 0 ∉ text) (j : ℕ) :
    0 ∉ transferText skip text j := by
  induction skip, text, j using transferText.induct with
  | case1 skip j => exact List.not_mem_nil
  | case2 j skip b rest ih =>
      rw [transferText]
      exact ih fun mem => nul (List.mem_cons_of_mem _ mem)
  | case3 c rest j full =>
      rw [transferText, if_pos full]
      exact List.not_mem_nil
  | case4 c rest j room ih =>
      rw [transferText, if_neg room, List.mem_append, not_or]
      exact ⟨transferred_clean (fun zero => nul (zero ▸ List.mem_cons_self)) rest,
        ih fun mem => nul (List.mem_cons_of_mem _ mem)⟩

/-- The loop writes the text behind what is there, and a NUL behind it. -/
theorem transferLoop_eq (skip : ℕ) (text front : CString) {rest : List UInt8}
    (low : front.length ≤ maxUrlLen - 3) (room : front.length + rest.length = maxUrlLen) :
    transferLoop skip text front.length (front ++ rest) =
      some (front ++ (transferText skip text front.length ++
        0 :: rest.drop ((transferText skip text front.length).length + 1))) := by
  have size := maxUrlLen_eq
  have nul : put (front ++ rest) front.length [0] = some (front ++ ([0] ++ rest.drop 1)) :=
    put_append _ _ (by rw [List.length_singleton]; omega)
  induction text generalizing skip front rest with
  | nil =>
      rw [transferLoop, nul, transferText]
      rfl
  | cons c text ih =>
      cases skip with
      | succ skip =>
          rw [transferLoop, transferText]
          exact ih skip front low room nul
      | zero =>
          rw [transferLoop, transferText]
          by_cases full : front.length ≥ maxUrlLen - 10
          · rw [if_pos full, if_pos full, nul]
            rfl
          · have eight := length_transferred c text
            have write : put (front ++ rest) front.length (transferred c text).1 =
                some ((front ++ (transferred c text).1) ++ rest.drop (transferred c text).1.length) := by
              rw [put_append _ _ (by omega), List.append_assoc]
            have next : front.length + (transferred c text).1.length =
                (front ++ (transferred c text).1).length := List.length_append.symm
            have behind : (front ++ (transferred c text).1).length +
                (rest.drop (transferred c text).1.length).length = maxUrlLen := by
              rw [List.length_append, List.length_drop]
              omega
            have left : [(0 : UInt8)].length ≤ (rest.drop (transferred c text).1.length).length := by
              rw [List.length_singleton]
              omega
            rw [if_neg full, if_neg full, write, Option.bind_eq_bind, Option.bind_some, next,
              ih _ _ (by omega) behind (put_append _ _ left)]
            rw [← next, List.drop_drop, List.append_assoc, List.append_assoc, List.length_append, Nat.add_assoc]

/-- The buffer holds the text that is written. -/
theorem transferRegEx_text {sOrigi : CString} (nul : 0 ∉ sOrigi) {sNew : List UInt8}
    (size : sNew.length = maxUrlLen) :
    ∃ mem, TransferRegEx sOrigi sNew = some mem ∧ mem.length = maxUrlLen ∧
      textAt 0 mem 0 = some (transferText 0 sOrigi 0) := by
  have start : ([] : CString).length ≤ maxUrlLen - 3 := Nat.zero_le _
  have room : ([] : CString).length + sNew.length = maxUrlLen := by
    rw [List.length_nil, Nat.zero_add]
    exact size
  have written : TransferRegEx sOrigi sNew = some (transferText 0 sOrigi 0 ++
      0 :: sNew.drop ((transferText 0 sOrigi 0).length + 1)) := transferLoop_eq 0 sOrigi [] start room
  have fits := length_transferText 0 sOrigi start
  have total := maxUrlLen_eq
  rw [List.length_nil, Nat.zero_add] at fits
  refine ⟨_, written, ?_, textAt_zero (transferText_clean 0 nul 0) _⟩
  rw [List.length_append, List.length_cons, List.length_drop, size]
  omega

end Transfer

end BloomServer
