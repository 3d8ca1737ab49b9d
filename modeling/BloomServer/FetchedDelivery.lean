import BloomServer.Library.CallSequence
import Mathlib.Data.List.Perm.Basic

/-! The results that have been fetched wait in a file until `SendFile_db` sends them to a client; what
it cannot send goes to a list of errors and is sent with a later request. -/
namespace BloomServer
open CallSequence

/-- A record of the fetched file: the key `"%llu/%d"`. -/
structure FetchedEntry where
  id : UInt64
  taskid : Int32
  deriving DecidableEq

/-- `dbsenderror`: a key, and the length of the data that go with it. -/
structure SendError where
  key : FetchedEntry
  datlen : ℕ
  deriving DecidableEq

/-- How sending the length and then the data turns out. -/
inductive Sending
  | headFailed
  | contentFailed
  | written
  deriving DecidableEq

/-- The records of the fetched file with the number of those before the read position, the errors,
and what has been written completely so far. -/
structure FetchedQueue where
  file : List FetchedEntry
  readpos : ℕ
  senderror : List SendError
  sent : List FetchedEntry

/-- A request: what it asks for, the data that `readContent` finds, and how each sending turns out,
by its number. -/
structure SendRequest where
  num : Int32
  requiretaskid : Int32
  content : FetchedEntry → Option ℕ
  sendings : ℕ → Sending

namespace FetchedQueue

def start : FetchedQueue := ⟨[], 0, [], []⟩

def saveFetched (s : FetchedQueue) (e : FetchedEntry) : FetchedQueue :=
  { s with file := s.file ++ [e] }

/-- Up to `num` records from the read position on. -/
def readFetched (s : FetchedQueue) (num : ℕ) : List FetchedEntry × FetchedQueue :=
  let fetched := (s.file.drop s.readpos).take num
  (fetched, { s with readpos := s.readpos + fetched.length })

/-- The errors, what has been sent, and the number of sendings so far. -/
structure Progress where
  senderror : List SendError
  sent : List FetchedEntry
  tried : ℕ

/-- Sending once: what fails becomes an error at the end of the list. -/
def Progress.send (r : SendRequest) (e : SendError) (p : Progress) : Progress :=
  match r.sendings p.tried with
  | .written => { p with sent := p.sent ++ [e.key], tried := p.tried + 1 }
  | .headFailed | .contentFailed =>
      { p with senderror := p.senderror ++ [e], tried := p.tried + 1 }

/-- The loop over the errors, with what is left of `errornum` when it ends. -/
def resend (r : SendRequest) : ℕ → Progress → ℕ × Progress
  | 0, p => (0, p)
  | errornum + 1, p =>
      match p.senderror with
      | [] => (errornum + 1, p)
      | e :: rest =>
          let p := { p with senderror := rest }
          if e.datlen ≠ 0 then resend r errornum (p.send r e) else resend r errornum p

/-- The loop over the records that have been read. -/
def sendFetched (r : SendRequest) : List FetchedEntry → Progress → Progress
  | [], p => p
  | e :: rest, p =>
      if 0 < r.requiretaskid ∧ r.requiretaskid ≠ e.taskid then sendFetched r rest p
      else
        match r.content e with
        | none => sendFetched r rest p
        | some datlen =>
            if datlen ≠ 0 then sendFetched r rest (p.send r ⟨e, datlen⟩) else sendFetched r rest p

/-- `errornum` after the loop over the errors is the number of records to read. -/
def sendFileDb (r : SendRequest) (s : FetchedQueue) : FetchedQueue :=
  let (num, p) := resend r r.num.toInt.toNat ⟨s.senderror, s.sent, 0⟩
  let (fetched, s) := s.readFetched num
  let p := sendFetched r fetched p
  { s with senderror := p.senderror, sent := p.sent }

end FetchedQueue

inductive FetchedCall
  | saveFetched (e : FetchedEntry)
  | sendFileDb (r : SendRequest)

namespace FetchedQueue

def call (s : FetchedQueue) : FetchedCall → Option FetchedQueue
  | .saveFetched e => some (s.saveFetched e)
  | .sendFileDb r => some (s.sendFileDb r)

/-- Everything ever saved is still to be read, to be sent again, or sent, and in one place only. -/
def Conserved (s : FetchedQueue) : Prop :=
  s.file.Perm (s.file.drop s.readpos ++ (s.senderror.map (·.key) ++ s.sent))

/-- What holds whatever is lost. -/
structure Sound (s : FetchedQueue) : Prop where
  inside : s.readpos ≤ s.file.length
  -- an error has data, so that it is not given up
  sendable : ∀ e ∈ s.senderror, e.datlen ≠ 0

/-- The request is for the task of a record, and there are complete data for it. -/
def delivers (r : SendRequest) (e : FetchedEntry) : Bool :=
  !decide (0 < r.requiretaskid ∧ r.requiretaskid ≠ e.taskid) &&
    match r.content e with
    | none => false
    | some datlen => decide (datlen ≠ 0)

/-- Of so many sendings, those left once as many errors have been sent as there are. -/
def sendingsLeft (sendings : ℕ → Sending) : ℕ → ℕ → ℕ → ℕ
  | 0, _, _ => 0
  | num + 1, 0, _ => num + 1
  | num + 1, errors + 1, i =>
      if sendings i = .written then sendingsLeft sendings num errors (i + 1)
      else sendingsLeft sendings num (errors + 1) (i + 1)

/-- The records that a request takes from the file. -/
def batch (s : FetchedQueue) (r : SendRequest) : List FetchedEntry :=
  (s.file.drop s.readpos).take
    (sendingsLeft r.sendings r.num.toInt.toNat s.senderror.length 0)

variable {r : SendRequest} {p : Progress} {e : SendError} {s s' : FetchedQueue}

namespace Progress

/-- What is in one of the two lists. -/
def kept (p : Progress) : List FetchedEntry := p.senderror.map (·.key) ++ p.sent

def Sendable (p : Progress) : Prop := ∀ e ∈ p.senderror, e.datlen ≠ 0

theorem kept_send (r : SendRequest) (e : SendError) (p : Progress) :
    (p.send r e).kept.Perm (p.kept ++ [e.key]) := by
  unfold send kept
  cases r.sendings p.tried with
  | written =>
      dsimp only
      rw [List.append_assoc]
  | headFailed | contentFailed =>
      dsimp only
      rw [List.map_append, List.append_assoc, List.append_assoc]
      exact List.perm_append_comm.append_left _

theorem Sendable.send (sendable : p.Sendable) (r : SendRequest) (some : e.datlen ≠ 0) :
    (p.send r e).Sendable := by
  have more : ∀ e' ∈ p.senderror ++ [e], e'.datlen ≠ 0 := by
    intro e' mem
    rcases List.mem_append.mp mem with old | new
    · exact sendable e' old
    · rw [List.mem_singleton.mp new]
      exact some
  unfold Progress.send
  cases r.sendings p.tried with
  | written => exact sendable
  | headFailed | contentFailed => exact more

end Progress

/-- The loop over the errors keeps everything, and ends when they are sent or the number is. -/
theorem resend_spec (r : SendRequest) (num : ℕ) (sendable : p.Sendable) :
    (resend r num p).1 = sendingsLeft r.sendings num p.senderror.length p.tried ∧
      (resend r num p).2.kept.Perm p.kept ∧ (resend r num p).2.Sendable := by
  induction num generalizing p with
  | zero => exact ⟨by unfold resend sendingsLeft; rfl, .refl _, sendable⟩
  | succ num ih =>
      obtain ⟨errors, sent, tried⟩ := p
      cases errors with
      | nil => exact ⟨rfl, .refl _, sendable⟩
      | cons e rest =>
          have some : e.datlen ≠ 0 := sendable e List.mem_cons_self
          have fewer : Progress.Sendable ⟨rest, sent, tried⟩ :=
            fun e' mem => sendable e' (List.mem_cons_of_mem _ mem)
          obtain ⟨left, kept, last⟩ := ih (fewer.send r some)
          have moved := Progress.kept_send r e ⟨rest, sent, tried⟩
          unfold resend
          dsimp only
          rw [if_pos some]
          refine ⟨?_, ?_, last⟩
          · rw [left]
            unfold Progress.send
            cases outcome : r.sendings tried with
            | written =>
                simp only [List.length_cons, sendingsLeft, outcome, if_true]
            | headFailed | contentFailed =>
                simp [sendingsLeft, outcome]
          · apply (kept.trans moved).trans
            exact List.perm_append_comm

/-- The loop over the records keeps those that it delivers. -/
theorem sendFetched_spec (r : SendRequest) (fetched : List FetchedEntry) (sendable : p.Sendable) :
    (sendFetched r fetched p).kept.Perm (p.kept ++ fetched.filter (delivers r)) ∧
      (sendFetched r fetched p).Sendable := by
  induction fetched generalizing p with
  | nil => exact ⟨by rw [List.filter_nil, List.append_nil]; exact .refl _, sendable⟩
  | cons e rest ih =>
      unfold sendFetched
      split_ifs with other
      · have dropped : delivers r e = false := by simp [delivers, other]
        rw [List.filter_cons_of_neg (by rw [dropped]; exact Bool.false_ne_true)]
        exact ih sendable
      · cases content : r.content e with
        | none =>
            have dropped : delivers r e = false := by simp [delivers, content]
            rw [List.filter_cons_of_neg (by rw [dropped]; exact Bool.false_ne_true)]
            exact ih sendable
        | some datlen =>
            dsimp only
            split_ifs with some
            · have delivered : delivers r e = true := by
                unfold delivers
                rw [content, decide_eq_false other]
                exact decide_eq_true some
              rw [List.filter_cons_of_pos delivered]
              obtain ⟨kept, last⟩ := ih (sendable.send r (e := ⟨e, datlen⟩) some)
              refine ⟨?_, last⟩
              apply kept.trans
              have moved := (Progress.kept_send r ⟨e, datlen⟩ p).append_right
                (rest.filter (delivers r))
              rwa [List.append_assoc] at moved
            · have dropped : delivers r e = false := by simp [delivers, content, some]
              rw [List.filter_cons_of_neg (by rw [dropped]; exact Bool.false_ne_true)]
              exact ih sendable

/-- The calls that lose nothing: all that a request takes from the file it delivers. -/
def Meets (s : FetchedQueue) : FetchedCall → Prop
  | .saveFetched _ => True
  | .sendFileDb r => ∀ e ∈ s.batch r, delivers r e = true

theorem Conserved.saveFetched (held : s.Conserved) (sound : s.Sound) (e : FetchedEntry) :
    (s.saveFetched e).Conserved := by
  have split : (s.file ++ [e]).drop s.readpos = s.file.drop s.readpos ++ [e] :=
    List.drop_append_of_le_length sound.inside
  have turn : (s.senderror.map (·.key) ++ s.sent ++ [e]).Perm
      ([e] ++ (s.senderror.map (·.key) ++ s.sent)) := List.perm_append_comm
  have last := List.Perm.append_right [e] held
  rw [List.append_assoc] at last
  have moved := last.trans (turn.append_left (s.file.drop s.readpos))
  rw [← List.append_assoc, ← split] at moved
  exact moved

theorem Sound.saveFetched (sound : s.Sound) (e : FetchedEntry) : (s.saveFetched e).Sound where
  inside := by
    have longer : (s.saveFetched e).file.length = s.file.length + 1 := by
      simp [FetchedQueue.saveFetched]
    rw [longer]
    exact Nat.le_succ_of_le sound.inside
  sendable := sound.sendable

/-- The records behind the read position are the batch and those behind it. -/
theorem drop_batch (s : FetchedQueue) (r : SendRequest) :
    s.file.drop s.readpos = s.batch r ++ s.file.drop (s.readpos + (s.batch r).length) := by
  have split := List.take_append_drop (s.batch r).length (s.file.drop s.readpos)
  rw [List.drop_drop] at split
  have first : (s.file.drop s.readpos).take (s.batch r).length = s.batch r := by
    unfold batch
    rw [List.length_take, ← List.take_eq_take_min]
  rw [first] at split
  exact split.symm

theorem sendFileDb_eq (sendable : Progress.Sendable ⟨s.senderror, s.sent, 0⟩) (r : SendRequest) :
    s.sendFileDb r =
      let p := sendFetched r (s.batch r) (resend r r.num.toInt.toNat ⟨s.senderror, s.sent, 0⟩).2
      ⟨s.file, s.readpos + (s.batch r).length, p.senderror, p.sent⟩ := by
  obtain ⟨left, -⟩ := resend_spec r r.num.toInt.toNat sendable
  unfold FetchedQueue.sendFileDb readFetched batch
  simp only [left]

/-- After a request: what is kept, next to what stays in the file. -/
theorem sendFileDb_spec (sound : s.Sound) (r : SendRequest) :
    (s.sendFileDb r).Sound ∧ ∃ kept, ((s.sendFileDb r).Conserved ↔
        s.file.Perm (s.file.drop (s.readpos + (s.batch r).length) ++ kept)) ∧
      kept.Perm (s.senderror.map (·.key) ++ s.sent ++ (s.batch r).filter (delivers r)) := by
  have start : Progress.Sendable ⟨s.senderror, s.sent, 0⟩ := sound.sendable
  obtain ⟨-, again, sendable⟩ := resend_spec r r.num.toInt.toNat start
  obtain ⟨kept, last⟩ := sendFetched_spec r (s.batch r) sendable
  rw [sendFileDb_eq start]
  have inside : s.readpos + (s.batch r).length ≤ s.file.length := by
    have bound := congrArg List.length (s.drop_batch r)
    have before := sound.inside
    simp only [List.length_append, List.length_drop] at bound
    omega
  exact ⟨⟨inside, last⟩, _, Iff.rfl, kept.trans (again.append_right _)⟩

/-- A request loses nothing exactly if it delivers, or keeps as an error, all that it takes. -/
theorem Conserved.sendFileDb_iff (held : s.Conserved) (sound : s.Sound) (r : SendRequest) :
    (s.sendFileDb r).Conserved ↔ ∀ e ∈ s.batch r, delivers r e = true := by
  obtain ⟨-, kept, conserved, now⟩ := sendFileDb_spec sound r
  have whole := held
  unfold Conserved at whole
  rw [s.drop_batch r] at whole
  rw [conserved]
  constructor
  · intro after
    have same := whole.symm.trans (after.trans (now.append_left _))
    -- what stays in the file and what has been kept before cancel
    have left := same.length_eq
    simp only [List.length_append] at left
    have full : ((s.batch r).filter (delivers r)).length = (s.batch r).length := by omega
    exact List.length_filter_eq_length_iff.mp full
  · intro all
    rw [List.filter_eq_self.mpr all] at now
    apply whole.trans
    rw [List.append_assoc]
    apply List.perm_append_comm.trans
    rw [List.append_assoc]
    exact now.symm.append_left _

theorem Sound.call (sound : s.Sound) {c : FetchedCall} (run : s.call c = some s') : s'.Sound := by
  cases c with
  | saveFetched e =>
      cases run
      exact sound.saveFetched e
  | sendFileDb r =>
      cases run
      exact (sendFileDb_spec sound r).1

theorem Conserved.call_iff (held : s.Conserved) (sound : s.Sound) {c : FetchedCall}
    (run : s.call c = some s') : s'.Conserved ↔ s.Meets c := by
  cases c with
  | saveFetched e =>
      cases run
      exact iff_of_true (held.saveFetched sound e) trivial
  | sendFileDb r =>
      cases run
      exact held.sendFileDb_iff sound r

theorem sound_start : start.Sound where
  inside := Nat.le_refl _
  sendable := by
    intro e mem
    cases mem

end FetchedQueue

/-- Nothing is lost or sent twice as long as every request delivers, or keeps as an error, all the
records that it takes from the file. -/
theorem fetched_results_conserved_iff (calls : List FetchedCall) :
    Always FetchedQueue.call FetchedQueue.Conserved FetchedQueue.start calls ↔
      Each FetchedQueue.call FetchedQueue.Meets FetchedQueue.start calls :=
  always_iff_each_of_invariant (fun _ _ _ sound run => sound.call run)
    (fun _ _ _ sound held run => held.call_iff sound run) FetchedQueue.sound_start (.refl _) calls

/-- A record that is read for a request about another task is in no place any more. -/
theorem fetched_results_not_conserved :
    ¬ ∀ calls, Always FetchedQueue.call FetchedQueue.Conserved FetchedQueue.start calls := by
  intro all
  have after := all [.saveFetched ⟨5, 1⟩, .sendFileDb ⟨1, 2, fun _ => some 1, fun _ => .written⟩]
  have last := List.Perm.length_eq ((after.2 _ rfl).2 _ rfl)
  revert last
  decide

end BloomServer
