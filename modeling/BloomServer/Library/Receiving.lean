import Mathlib.Data.List.Basic
import Mathlib.Tactic.Common

/-! Receiving a stream of bytes from a socket that hands it out in pieces. -/
namespace Receiving

/-- How a socket answers one attempt to receive: with bytes (none of them when the peer has
closed), with an interruption, not at all, or with an error. -/
inductive Answer
  | bytes (seg : List UInt8)
  | again
  | stopped (interrupted : Bool)
  | failed
  deriving DecidableEq

/-- What a receiving loop comes back with. -/
inductive Received
  | got (seg : List UInt8)
  | closed
  | error (again : Bool)
  deriving DecidableEq

/-- Receive at most so many bytes; an interrupted attempt is repeated a limited number of times.
What a piece holds beyond that stays with the socket, and at the end of its answers the peer has
closed. -/
def receive (size : ℕ) : ℕ → List Answer → Received × List Answer
  | _, [] => (.closed, [])
  | _, .bytes seg :: rest =>
      if seg = [] then (.closed, rest)
      else (.got (seg.take size), if size < seg.length then .bytes (seg.drop size) :: rest else rest)
  | 0, .again :: rest => (.error true, rest)
  | tries + 1, .again :: rest => receive size tries rest
  | _, .stopped interrupted :: rest => (.error interrupted, rest)
  | _, .failed :: rest => (.error false, rest)

/-- The bytes that the answers hold. -/
def delivered : List Answer → List UInt8
  | [] => []
  | .bytes seg :: rest => seg ++ delivered rest
  | _ :: rest => delivered rest

/-- Only data, in any pieces, and never too many interruptions in a row. -/
def Calm (limit : ℕ) : ℕ → List Answer → Prop
  | _, [] => True
  | _, .bytes seg :: rest => seg ≠ [] ∧ Calm limit limit rest
  | 0, .again :: _ => False
  | tries + 1, .again :: rest => Calm limit tries rest
  | _, .stopped _ :: _ => False
  | _, .failed :: _ => False

/-- A bound on how often one can receive. -/
def weight : List Answer → ℕ
  | [] => 0
  | .bytes seg :: rest => seg.length + 1 + weight rest
  | _ :: rest => 1 + weight rest

variable {size limit tries : ℕ} {net : List Answer}

/-- On a calm socket every call gets some of the bytes, or finds that there are no more. -/
theorem Calm.receive (calm : Calm limit tries net) (within : tries ≤ limit) (positive : 0 < size) :
    (delivered net = [] ∧ Receiving.receive size tries net = (.closed, [])) ∨
    ∃ seg rest, Receiving.receive size tries net = (.got seg, rest) ∧ seg ≠ [] ∧
      seg.length ≤ size ∧ delivered net = seg ++ delivered rest ∧ Calm limit limit rest := by
  induction net generalizing tries with
  | nil => exact Or.inl ⟨rfl, by cases tries <;> rfl⟩
  | cons answer rest ih =>
      cases answer with
      | bytes seg =>
          obtain ⟨some, calm⟩ : seg ≠ [] ∧ Calm limit limit rest := by
            cases tries <;> exact calm
          have run : Receiving.receive size tries (.bytes seg :: rest) =
              (.got (seg.take size),
                if size < seg.length then .bytes (seg.drop size) :: rest else rest) := by
            cases tries <;> exact if_neg some
          have length := List.length_pos_iff.mpr some
          refine Or.inr ⟨_, _, run, ?_, List.length_take_le _ _, ?_, ?_⟩
          · apply List.ne_nil_of_length_pos
            rw [List.length_take]
            omega
          · by_cases long : size < seg.length
            · rw [if_pos long, delivered, delivered, ← List.append_assoc, List.take_append_drop]
            · rw [if_neg long, delivered, List.take_of_length_le (Nat.le_of_not_lt long)]
          · by_cases long : size < seg.length
            · rw [if_pos long]
              have left : seg.drop size ≠ [] := by
                apply List.ne_nil_of_length_pos
                rw [List.length_drop]
                omega
              cases limit <;> exact ⟨left, calm⟩
            · rw [if_neg long]
              exact calm
      | again =>
          cases tries with
          | zero => exact calm.elim
          | succ tries => exact ih calm (Nat.le_of_succ_le within)
      | stopped => cases tries <;> exact calm.elim
      | failed => cases tries <;> exact calm.elim

/-- One attempt on a calm socket may be interrupted, at no loss. -/
theorem Calm.attempt (calm : Calm limit tries net) (positive : 0 < size) :
    (∃ fewer rest, Receiving.receive size 0 net = (.error true, rest) ∧
      delivered rest = delivered net ∧ Calm limit fewer rest) ∨
    (delivered net = [] ∧ Receiving.receive size 0 net = (.closed, [])) ∨
    ∃ seg rest, Receiving.receive size 0 net = (.got seg, rest) ∧ seg ≠ [] ∧
      seg.length ≤ size ∧ delivered net = seg ++ delivered rest ∧ Calm limit limit rest := by
  cases net with
  | nil => exact Or.inr (Or.inl ⟨rfl, rfl⟩)
  | cons answer rest =>
      cases answer with
      | bytes seg =>
          have still : Calm limit 0 (.bytes seg :: rest) := by
            cases tries <;> exact calm
          exact Or.inr (still.receive (Nat.zero_le _) positive)
      | again =>
          cases tries with
          | zero => exact calm.elim
          | succ tries => exact Or.inl ⟨tries, rest, rfl, rfl, calm⟩
      | stopped => cases tries <;> exact calm.elim
      | failed => cases tries <;> exact calm.elim

/-- What a call gets is not more than was asked for, and is gone from the socket. -/
theorem receive_got {seg : List UInt8} {rest : List Answer}
    (run : receive size tries net = (.got seg, rest)) :
    seg.length ≤ size ∧ (0 < size → seg ≠ []) ∧ seg.length + weight rest ≤ weight net := by
  induction net generalizing tries with
  | nil => cases tries <;> exact (nomatch run)
  | cons answer net ih =>
      cases answer with
      | bytes piece =>
          have step : receive size tries (.bytes piece :: net) =
              if piece = [] then (.closed, net)
              else (.got (piece.take size),
                if size < piece.length then .bytes (piece.drop size) :: net else net) := by
            cases tries <;> rfl
          rw [step] at run
          split at run
          next => exact (nomatch run)
          next some =>
            have length := List.length_pos_iff.mpr some
            cases run
            refine ⟨List.length_take_le _ _, ?_, ?_⟩
            · intro positive
              apply List.ne_nil_of_length_pos
              rw [List.length_take]
              omega
            · rw [List.length_take, weight]
              split
              next long =>
                rw [weight, List.length_drop]
                omega
              next => omega
      | again =>
          cases tries with
          | zero => exact (nomatch run)
          | succ tries =>
              obtain ⟨most, some, gone⟩ := ih run
              refine ⟨most, some, ?_⟩
              change _ ≤ 1 + weight net
              omega
      | stopped => cases tries <;> exact (nomatch run)
      | failed => cases tries <;> exact (nomatch run)

theorem receive_error {again : Bool} {rest : List Answer}
    (run : receive size tries net = (.error again, rest)) : weight rest < weight net := by
  induction net generalizing tries with
  | nil => cases tries <;> exact (nomatch run)
  | cons answer net ih =>
      have more : weight net < 1 + weight net := Nat.lt_add_of_pos_left Nat.one_pos
      cases answer with
      | bytes piece =>
          have step : receive size tries (.bytes piece :: net) =
              if piece = [] then (.closed, net)
              else (.got (piece.take size),
                if size < piece.length then .bytes (piece.drop size) :: net else net) := by
            cases tries <;> rfl
          rw [step] at run
          split at run <;> exact (nomatch run)
      | again =>
          cases tries with
          | zero =>
              cases run
              exact more
          | succ tries => exact Nat.lt_trans (ih run) more
      | stopped =>
          cases tries <;>
          · cases run
            exact more
      | failed =>
          cases tries <;>
          · cases run
            exact more

theorem receive_closed {rest : List Answer} (run : receive size tries net = (.closed, rest)) :
    weight rest ≤ weight net := by
  induction net generalizing tries with
  | nil => cases tries <;> cases run <;> exact Nat.le_refl _
  | cons answer net ih =>
      cases answer with
      | bytes piece =>
          have step : receive size tries (.bytes piece :: net) =
              if piece = [] then (.closed, net)
              else (.got (piece.take size),
                if size < piece.length then .bytes (piece.drop size) :: net else net) := by
            cases tries <;> rfl
          rw [step] at run
          split at run
          next =>
            cases run
            exact Nat.le_add_left _ _
          next => exact (nomatch run)
      | again =>
          cases tries with
          | zero => exact (nomatch run)
          | succ tries => exact Nat.le_trans (ih run) (Nat.le_add_left _ _)
      | stopped => cases tries <;> exact (nomatch run)
      | failed => cases tries <;> exact (nomatch run)

/-! ### A reader with a buffer of its own -/

/-- What has been received and not yet read, and the socket. -/
structure Reader where
  unread : List UInt8
  net : List Answer

namespace Reader

/-- All bytes that are still to be read. -/
def bytes (r : Reader) : List UInt8 := r.unread ++ delivered r.net

/-- The first byte that was received; the others stay in the buffer. -/
def handOut : Received × List Answer → Option UInt8 × Reader
  | (.got (b :: rest), net) => (some b, ⟨rest, net⟩)
  | (_, net) => (none, ⟨[], net⟩)

/-- Read one byte; an empty buffer is filled first. -/
def next (cap limit : ℕ) : Reader → Option UInt8 × Reader
  | ⟨b :: rest, net⟩ => (some b, ⟨rest, net⟩)
  | ⟨[], net⟩ => handOut (receive cap limit net)

def measure (r : Reader) : ℕ := r.unread.length + weight r.net

variable {r : Reader} {cap : ℕ}

/-- Reading byte by byte is reading the stream, however it comes. -/
theorem next_cons {b : UInt8} {rest : List UInt8} (calm : Calm limit limit r.net)
    (positive : 0 < cap) (bytes : r.bytes = b :: rest) :
    (r.next cap limit).1 = some b ∧ (r.next cap limit).2.bytes = rest ∧
      Calm limit limit (r.next cap limit).2.net := by
  obtain ⟨unread, net⟩ := r
  cases unread with
  | cons head unread =>
      obtain ⟨rfl, rfl⟩ := List.cons.inj bytes
      exact ⟨rfl, rfl, calm⟩
  | nil =>
      rcases calm.receive (Nat.le_refl _) positive with
        ⟨none, run⟩ | ⟨seg, net', run, some, _, split, calm'⟩
      · exact absurd (none.symm.trans bytes) (List.cons_ne_nil b rest).symm
      · cases seg with
        | nil => exact absurd rfl some
        | cons head seg =>
            have read : (Reader.mk [] net).next cap limit = (.some head, ⟨seg, net'⟩) := by
              rw [next, run]
              rfl
            obtain ⟨rfl, same⟩ := List.cons.inj (split.symm.trans bytes)
            rw [read]
            exact ⟨rfl, same, calm'⟩

/-- Reading uses the stream up, whatever the socket answers. -/
theorem measure_next (r : Reader) (cap limit : ℕ) :
    (r.next cap limit).2.measure ≤ r.measure ∧
      ((r.next cap limit).1 ≠ none → (r.next cap limit).2.measure < r.measure) := by
  obtain ⟨unread, net⟩ := r
  cases unread with
  | cons head unread =>
      have less : unread.length + weight net < unread.length + 1 + weight net := by omega
      exact ⟨Nat.le_of_lt less, fun _ => less⟩
  | nil =>
      have start : (Reader.mk [] net).measure = weight net := Nat.zero_add _
      rcases run : receive cap limit net with ⟨seg | _ | _, rest⟩
      · have gone := (receive_got run).2.2
        cases seg with
        | nil =>
            rw [next, run, handOut, start]
            · refine ⟨?_, fun some => absurd rfl some⟩
              change 0 + weight rest ≤ weight net
              rw [List.length_nil] at gone
              exact gone
            · intro b seg same
              exact (nomatch same)
        | cons head seg =>
            rw [List.length_cons] at gone
            have less : seg.length + weight rest < weight net := by omega
            rw [next, run, handOut, start]
            exact ⟨Nat.le_of_lt less, fun _ => less⟩
      · have less := receive_closed run
        rw [next, run, start]
        refine ⟨?_, fun some => absurd rfl some⟩
        change 0 + weight rest ≤ weight net
        omega
      · have less := receive_error run
        rw [next, run, start]
        refine ⟨?_, fun some => absurd rfl some⟩
        change 0 + weight rest ≤ weight net
        omega

end Reader

end Receiving
