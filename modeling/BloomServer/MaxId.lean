import BloomServer.Library.LabelledRun
import Mathlib.Data.UInt
import Mathlib.Data.List.Pairwise

/-! `CheckpointManager::GetMaxID`: ids made of a time stamp, a machine number and a counter
within the millisecond. -/
namespace BloomServer
open LabelledRun

structure Timeval where
  tvSec : Int64
  tvUsec : Int64
  deriving DecidableEq

/-- The `static` variables of the function. -/
structure LastIssued where
  millisecond : UInt64
  id : Int64
  deriving DecidableEq

/-- `second_tmp*1000 + tv.tv_usec/1000`. -/
def Timeval.millisecond (tv : Timeval) : UInt64 :=
  tv.tvSec.toUInt64 * 1000 + (tv.tvUsec / 1000).toUInt64

/-- `(millisecond << 23 | (pcid << 12)) | last_id`. -/
def packId (millisecond pcid : UInt64) (lastId : Int64) : UInt64 :=
  (millisecond <<< 23 ||| pcid <<< 12) ||| lastId.toUInt64

/-- `GetMaxID` on the readings that `gettimeofday` gives it, `none` where that fails. The result
is the id, the `static` variables, and the readings left; there is none while the call sleeps. -/
def getMaxID (pcid : UInt64) :
    List (Option Timeval) → LastIssued → Option (UInt64 × LastIssued × List (Option Timeval))
  | [], _ => none
  | none :: clock, last => some (0, last, clock)
  | some tv :: clock, last =>
      let millisecond := tv.millisecond
      if millisecond > last.millisecond then
        some (millisecond <<< 23 ||| pcid <<< 12, ⟨millisecond, 0⟩, clock)
      else if millisecond = last.millisecond then
        if last.id > 4095 then getMaxID pcid clock last
        else
          some (packId millisecond pcid (last.id + 1), ⟨last.millisecond, last.id + 1⟩, clock)
      else getMaxID pcid clock last

/-- A call that returned: its argument, the readings it drew, and its id. -/
structure IdCall where
  pcid : UInt64
  clock : List (Option Timeval)
  id : UInt64
  deriving DecidableEq

/-- One call of a process. -/
def Issues (last : LastIssued) (call : IdCall) (last' : LastIssued) : Prop :=
  getMaxID call.pcid call.clock last = some (call.id, last', [])

/-- The variables of a process that has just been started. -/
def LastIssued.start : LastIssued := ⟨0, 0⟩

/-- The counter does not leave its twelve bits, and the time still grows in the 41 bits that
the shift by 23 leaves of it. -/
def FieldsHold (last : LastIssued) (call : IdCall) : Prop :=
  ∀ tv, some tv ∈ call.clock →
    (tv.millisecond = last.millisecond → last.id ≠ 4095) ∧
    (last.millisecond < tv.millisecond →
      last.millisecond.toNat % 2 ^ 41 < tv.millisecond.toNat % 2 ^ 41)

/-- The ids a machine got, newest first. -/
def issuedTo (pcid : UInt64) (calls : List IdCall) : List UInt64 :=
  (calls.filter fun call => call.pcid = pcid ∧ call.id ≠ 0).map IdCall.id

/-- The number of an id among those of its machine: time stamp first, then counter. -/
def stampOf (id : UInt64) : Nat := id.toNat / 2 ^ 23 * 2 ^ 12 + id.toNat % 2 ^ 12

def machineOf (id : UInt64) : Nat := id.toNat / 2 ^ 12 % 2 ^ 11

/-- The number of the last id handed out. -/
def LastIssued.stamp (last : LastIssued) : Nat :=
  last.millisecond.toNat % 2 ^ 41 * 2 ^ 12 + last.id.toInt.toNat

/-- The counter fits its twelve bits. -/
def LastIssued.Fits (last : LastIssued) : Prop := 0 ≤ last.id.toInt ∧ last.id.toInt ≤ 4095

theorem toNat_shiftLeft_stamp (millisecond : UInt64) :
    (millisecond <<< 23).toNat = millisecond.toNat % 2 ^ 41 * 2 ^ 23 := by
  rw [UInt64.toNat_shiftLeft, Nat.shiftLeft_eq]
  change millisecond.toNat * 2 ^ 23 % 2 ^ 64 = _
  omega

theorem toNat_shiftLeft_machine {pcid : UInt64} (machine : pcid.toNat < 2 ^ 11) :
    (pcid <<< 12).toNat = pcid.toNat * 2 ^ 12 := by
  rw [UInt64.toNat_shiftLeft, Nat.shiftLeft_eq]
  change pcid.toNat * 2 ^ 12 % 2 ^ 64 = _
  omega

theorem toNat_counter {lastId : Int64} (low : 0 ≤ lastId.toInt) :
    lastId.toUInt64.toNat = lastId.toInt.toNat := by
  rw [Int64.toNat_toUInt64_of_le (Int64.le_iff_toInt_le.mpr low)]
  rfl

/-- The three fields lie side by side. -/
theorem toNat_packId (millisecond : UInt64) {pcid : UInt64} {lastId : Int64} (machine : pcid.toNat < 2 ^ 11)
    (low : 0 ≤ lastId.toInt) (high : lastId.toInt ≤ 4095) :
    (packId millisecond pcid lastId).toNat =
      millisecond.toNat % 2 ^ 41 * 2 ^ 23 + pcid.toNat * 2 ^ 12 + lastId.toInt.toNat := by
  have time : millisecond.toNat % 2 ^ 41 * 2 ^ 23 ||| pcid.toNat * 2 ^ 12 =
      millisecond.toNat % 2 ^ 41 * 2 ^ 23 + pcid.toNat * 2 ^ 12 := by
    have join := Nat.shiftLeft_add_eq_or_of_lt (b := pcid.toNat * 2 ^ 12) (i := 23) (by omega)
      (millisecond.toNat % 2 ^ 41)
    rw [Nat.shiftLeft_eq] at join
    exact join.symm
  have upper : millisecond.toNat % 2 ^ 41 * 2 ^ 23 + pcid.toNat * 2 ^ 12 =
      (millisecond.toNat % 2 ^ 41 * 2 ^ 11 + pcid.toNat) * 2 ^ 12 := by
    omega
  have join := Nat.shiftLeft_add_eq_or_of_lt (b := lastId.toInt.toNat) (i := 12) (by omega)
    (millisecond.toNat % 2 ^ 41 * 2 ^ 11 + pcid.toNat)
  rw [Nat.shiftLeft_eq] at join
  rw [packId, UInt64.toNat_or, UInt64.toNat_or, toNat_shiftLeft_stamp,
    toNat_shiftLeft_machine machine, toNat_counter low, time, upper]
  exact join.symm

/-- The fields can be read back. -/
theorem fields_packId {millisecond pcid : UInt64} {lastId : Int64} (machine : pcid.toNat < 2 ^ 11)
    (low : 0 ≤ lastId.toInt) (high : lastId.toInt ≤ 4095) :
    machineOf (packId millisecond pcid lastId) = pcid.toNat ∧
      stampOf (packId millisecond pcid lastId) =
        millisecond.toNat % 2 ^ 41 * 2 ^ 12 + lastId.toInt.toNat := by
  have value := toNat_packId millisecond machine low high
  have counter : lastId.toInt.toNat < 2 ^ 12 := by omega
  unfold machineOf stampOf
  rw [value]
  constructor
  · omega
  · omega

/-- On one machine the ids are in the order of their numbers. -/
theorem lt_of_stampOf_lt {a b : UInt64} (same : machineOf a = machineOf b)
    (less : stampOf a < stampOf b) : a < b := by
  rw [UInt64.lt_iff_toNat_lt]
  unfold machineOf at same
  unfold stampOf at less
  omega

variable {last last' : LastIssued} {call : IdCall}

/-- Everything a call can have done: nothing, a first id of a later millisecond, or one more id
of the last one. -/
inductive IdEffect (last : LastIssued) (pcid : UInt64) (clock : List (Option Timeval)) :
    UInt64 → LastIssued → Prop
  | failed : IdEffect last pcid clock 0 last
  | first {tv} (drawn : some tv ∈ clock) (after : last.millisecond < tv.millisecond) :
      IdEffect last pcid clock (packId tv.millisecond pcid 0) ⟨tv.millisecond, 0⟩
  | next {tv} (drawn : some tv ∈ clock) (same : tv.millisecond = last.millisecond)
      (room : last.id ≤ 4095) :
      IdEffect last pcid clock (packId last.millisecond pcid (last.id + 1))
        ⟨last.millisecond, last.id + 1⟩

theorem IdEffect.cons {pcid id : UInt64} {clock : List (Option Timeval)}
    (eff : IdEffect last pcid clock id last') (reading : Option Timeval) :
    IdEffect last pcid (reading :: clock) id last' := by
  cases eff with
  | failed => exact .failed
  | first drawn after => exact .first (List.mem_cons_of_mem reading drawn) after
  | next drawn same room => exact .next (List.mem_cons_of_mem reading drawn) same room

theorem getMaxID_effect {pcid id : UInt64} {clock left : List (Option Timeval)}
    (h : getMaxID pcid clock last = some (id, last', left)) : IdEffect last pcid clock id last' := by
  induction clock with
  | nil => cases h
  | cons reading clock ih =>
      cases reading with
      | none =>
          cases h
          exact .failed
      | some tv =>
          simp only [getMaxID] at h
          split_ifs at h with after same full
          · cases h
            have bits : tv.millisecond <<< 23 ||| pcid <<< 12 = packId tv.millisecond pcid 0 :=
              UInt64.or_zero.symm
            rw [bits]
            exact .first List.mem_cons_self after
          · exact (ih h).cons _
          · cases h
            rw [same]
            exact .next List.mem_cons_self same (Int64.not_lt.mp full)
          · exact (ih h).cons _

/-- The step lemma. -/
theorem Issues.stamps (issues : Issues last call last') (fits : last.Fits)
    (fields : FieldsHold last call) (machine : call.pcid.toNat < 2 ^ 11) :
    last'.Fits ∧ last.stamp ≤ last'.stamp ∧ (call.id ≠ 0 → last.stamp < last'.stamp ∧
      machineOf call.id = call.pcid.toNat ∧ stampOf call.id = last'.stamp) := by
  obtain ⟨low, high⟩ := fits
  have eff := getMaxID_effect issues
  generalize call.id = id at eff ⊢
  cases eff with
  | failed => exact ⟨⟨low, high⟩, Nat.le_refl _, fun nonzero => absurd rfl nonzero⟩
  | @first tv drawn after =>
      have grows := (fields tv drawn).2 after
      have zero : (0 : Int64).toInt = 0 := rfl
      have less : last.stamp < LastIssued.stamp ⟨tv.millisecond, 0⟩ := by
        unfold LastIssued.stamp
        dsimp only
        omega
      refine ⟨⟨Int.le_refl 0, by rw [zero]; omega⟩, less.le, fun _ => ⟨less, ?_⟩⟩
      exact fields_packId machine (Int.le_refl 0) (by rw [zero]; omega)
  | @next tv drawn same room =>
      have room' : last.id.toInt ≠ 4095 := by
        intro full
        exact (fields tv drawn).1 same (Int64.toInt_inj.mp full)
      have more : (last.id + 1).toInt = last.id.toInt + 1 := by
        rw [Int64.toInt_add]
        change (last.id.toInt + 1).bmod (2 ^ 64) = _
        rw [Int.bmod_eq_of_le (by omega) (by omega)]
      have less : last.stamp < LastIssued.stamp ⟨last.millisecond, last.id + 1⟩ := by
        unfold LastIssued.stamp
        dsimp only
        omega
      refine ⟨⟨by rw [more]; omega, by rw [more]; omega⟩, less.le, fun _ => ⟨less, ?_⟩⟩
      exact fields_packId machine (by omega) (by omega)

/-- What a run of a process whose fields hold has handed out. -/
structure Numbered (calls : List IdCall) (last : LastIssued) : Prop where
  fits : last.Fits
  machine : ∀ call ∈ calls, call.id ≠ 0 → machineOf call.id = call.pcid.toNat
  bound : ∀ call ∈ calls, call.id ≠ 0 → stampOf call.id ≤ last.stamp
  sorted : (calls.filter fun call => call.id ≠ 0).Pairwise
    fun newer older => stampOf older.id < stampOf newer.id

/-- The run lemma. -/
theorem numbered_of_run {calls : List IdCall}
    (run : Run (Guarded FieldsHold Issues) .start calls last)
    (machines : ∀ call ∈ calls, call.pcid < 2048) : Numbered calls last := by
  induction run with
  | nil =>
      exact ⟨⟨Int.le_refl 0, by decide⟩, by simp, by simp, by simp⟩
  | @snoc calls mid last call before step ih =>
      have old := ih fun c mem => machines c (List.mem_cons_of_mem _ mem)
      have machine : call.pcid.toNat < 2 ^ 11 :=
        UInt64.lt_iff_toNat_lt.mp (machines call List.mem_cons_self)
      obtain ⟨fits, below, issued⟩ := step.2.stamps old.fits step.1 machine
      constructor
      · exact fits
      · intro c mem nonzero
        rcases List.mem_cons.mp mem with rfl | later
        · exact (issued nonzero).2.1
        · exact old.machine c later nonzero
      · intro c mem nonzero
        rcases List.mem_cons.mp mem with rfl | later
        · exact (issued nonzero).2.2.le
        · exact (old.bound c later nonzero).trans below
      · by_cases zero : call.id = 0
        · rw [List.filter_cons_of_neg (by simp [zero])]
          exact old.sorted
        · rw [List.filter_cons_of_pos (by simp [zero]), List.pairwise_cons]
          refine ⟨?_, old.sorted⟩
          intro c mem
          obtain ⟨member, nonzero⟩ := List.mem_filter.mp mem
          have bound := old.bound c member (of_decide_eq_true nonzero)
          rw [(issued zero).2.2]
          exact bound.trans_lt (issued zero).1

theorem filter_issuedTo (pcid : UInt64) (calls : List IdCall) :
    (calls.filter fun call => call.pcid = pcid ∧ call.id ≠ 0) =
      (calls.filter fun call => call.id ≠ 0).filter fun call => call.pcid = pcid := by
  rw [List.filter_filter]
  apply List.filter_congr
  intro call _
  exact Bool.decide_and _ _

theorem mem_issuedTo {pcid id : UInt64} {calls : List IdCall} :
    id ∈ issuedTo pcid calls ↔ ∃ call ∈ calls, call.pcid = pcid ∧ call.id ≠ 0 ∧ call.id = id := by
  simp only [issuedTo, List.mem_map, List.mem_filter, decide_eq_true_eq, and_assoc]

/-- Every machine gets strictly increasing ids, and no two machines ever get the same one. -/
def IdsUnique (calls calls' : List IdCall) : Prop :=
  (∀ pcid, (issuedTo pcid calls).Pairwise (· > ·)) ∧
  ∀ pcid pcid', pcid ≠ pcid' →
    ∀ id ∈ issuedTo pcid calls, ∀ id' ∈ issuedTo pcid' calls', id ≠ id'

/-- The ids of any two processes, or twice of one, are unique as long as no call overruns a field. -/
theorem max_ids_unique {calls calls' : List IdCall}
    (run : Run (Guarded FieldsHold Issues) .start calls last)
    (run' : Run (Guarded FieldsHold Issues) .start calls' last')
    (machines : ∀ call ∈ calls, call.pcid < 2048)
    (machines' : ∀ call ∈ calls', call.pcid < 2048) : IdsUnique calls calls' := by
  have numbered := numbered_of_run run machines
  have numbered' := numbered_of_run run' machines'
  constructor
  · intro pcid
    rw [issuedTo, List.pairwise_map, filter_issuedTo]
    refine (numbered.sorted.filter _).imp_of_mem ?_
    intro newer older memn memo less
    obtain ⟨memn, samen⟩ := List.mem_filter.mp memn
    obtain ⟨memo, sameo⟩ := List.mem_filter.mp memo
    obtain ⟨memn, nonzeron⟩ := List.mem_filter.mp memn
    obtain ⟨memo, nonzeroo⟩ := List.mem_filter.mp memo
    apply lt_of_stampOf_lt _ less
    rw [numbered.machine newer memn (of_decide_eq_true nonzeron), of_decide_eq_true samen,
      numbered.machine older memo (of_decide_eq_true nonzeroo), of_decide_eq_true sameo]
  · intro pcid pcid' differ id mem id' mem' same
    obtain ⟨call, member, pc, nonzero, rfl⟩ := mem_issuedTo.mp mem
    obtain ⟨call', member', pc', nonzero', rfl⟩ := mem_issuedTo.mp mem'
    have machine := numbered.machine call member nonzero
    have machine' := numbered'.machine call' member' nonzero'
    apply differ
    apply UInt64.toNat_inj.mp
    rw [← pc, ← pc', ← machine, ← machine', same]

/-- Two machines that are served in one millisecond. -/
theorem max_ids_unique_pair :
    ∃ calls last calls' last', Run Issues .start calls last ∧ Run Issues .start calls' last' ∧
      calls.length = 2 ∧ IdsUnique calls calls' := by
  have first : Guarded FieldsHold Issues .start ⟨7, [some ⟨1, 5⟩], packId 1000 7 0⟩ ⟨1000, 0⟩ := by
    refine ⟨?_, rfl⟩
    intro tv drawn
    cases List.mem_singleton.mp drawn
    decide
  have second : Guarded FieldsHold Issues ⟨1000, 0⟩ ⟨9, [some ⟨1, 8⟩], packId 1000 9 1⟩ ⟨1000, 1⟩ := by
    refine ⟨?_, rfl⟩
    intro tv drawn
    cases List.mem_singleton.mp drawn
    decide
  have run := (Run.single first).snoc second
  have plain := run.mono fun _ _ _ step => step.2
  refine ⟨_, _, _, _, plain, plain, rfl, max_ids_unique run run ?_ ?_⟩
  · decide
  · decide

/-- One machine called `k + 1` times in its first millisecond. -/
def burst (pcid : UInt64) : Nat → List IdCall
  | 0 => [⟨pcid, [some ⟨0, 1000⟩], packId 1 pcid 0⟩]
  | k + 1 => ⟨pcid, [some ⟨0, 1000⟩], packId 1 pcid (Int64.ofNat (k + 1))⟩ :: burst pcid k

theorem burst_run (pcid : UInt64) {k : Nat} (few : k ≤ 4096) :
    Run Issues .start (burst pcid k) ⟨1, Int64.ofNat k⟩ := by
  induction k with
  | zero =>
      apply Run.single
      have bits : packId 1 pcid 0 = (1 : UInt64) <<< 23 ||| pcid <<< 12 := UInt64.or_zero
      rw [bits]
      rfl
  | succ k ih =>
      apply (ih (by omega)).snoc
      have value : (Int64.ofNat k).toInt = k := by
        rw [Int64.toInt_ofNat_of_lt (by omega)]
      have room : ¬ Int64.ofNat k > 4095 := by
        rw [gt_iff_lt, Int64.lt_iff_toInt_lt, value]
        change ¬ (4095 : Int) < k
        omega
      have next : Int64.ofNat (k + 1) = Int64.ofNat k + 1 := Int64.ofNat_add k 1
      unfold Issues
      rw [next]
      simp only [getMaxID]
      rw [if_neg (by decide), if_pos (by decide), if_neg room]
      rfl

theorem first_mem_burst (pcid : UInt64) (k : Nat) :
    ⟨pcid, [some ⟨0, 1000⟩], packId 1 pcid 0⟩ ∈ burst pcid k := by
  induction k with
  | zero => exact List.mem_cons_self
  | succ k ih => exact List.mem_cons_of_mem _ ih

theorem pcid_of_mem_burst {pcid : UInt64} {k : Nat} {call : IdCall} (mem : call ∈ burst pcid k) :
    call.pcid = pcid := by
  induction k with
  | zero => rw [List.mem_singleton.mp mem]
  | succ k ih =>
      rcases List.mem_cons.mp mem with rfl | later
      · rfl
      · exact ih later

/-- In 4097 calls of one millisecond the counter reaches the lowest bit of the machine: an odd
machine gets its first id again, and an even one gets that of the next machine. -/
theorem max_ids_collide :
    ∃ calls last calls' last', Run Issues .start calls last ∧ Run Issues .start calls' last' ∧
      (∀ call ∈ calls, call.pcid = 1) ∧ (∀ call ∈ calls', call.pcid = 0) ∧
      ¬ (issuedTo 1 calls).Pairwise (· > ·) ∧ ¬ (issuedTo 1 calls).Nodup ∧
      ∃ id ∈ issuedTo 0 calls', id ∈ issuedTo 1 calls := by
  have again : packId 1 1 (Int64.ofNat 4096) = packId 1 1 0 := by decide
  have other : packId 1 0 (Int64.ofNat 4096) = packId 1 1 0 := by decide
  have nonzero : packId 1 1 0 ≠ 0 := by decide
  have shape : issuedTo 1 (burst 1 4096) = packId 1 1 0 :: issuedTo 1 (burst 1 4095) := by
    rw [burst, issuedTo, List.filter_cons_of_pos (by rw [again]; decide), List.map_cons, again]
    rfl
  have older : packId 1 1 0 ∈ issuedTo 1 (burst 1 4095) :=
    mem_issuedTo.mpr ⟨_, first_mem_burst 1 4095, rfl, nonzero, rfl⟩
  refine ⟨_, _, _, _, burst_run 1 (Nat.le_refl 4096), burst_run 0 (Nat.le_refl 4096),
    fun _ => pcid_of_mem_burst, fun _ => pcid_of_mem_burst, ?_, ?_, packId 1 1 0, ?_, ?_⟩
  · intro sorted
    rw [shape] at sorted
    exact absurd ((List.pairwise_cons.mp sorted).1 _ older) (by decide)
  · intro nodup
    rw [shape] at nodup
    exact (List.nodup_cons.mp nodup).1 older
  · rw [mem_issuedTo]
    exact ⟨_, List.mem_cons_self, rfl, by rw [other]; exact nonzero, other⟩
  · rw [shape]
    exact List.mem_cons_self

end BloomServer
