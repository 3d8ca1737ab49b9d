import BloomServer.Restart

/-! `file.txt` while a dump rewrites it in place, and what a restart makes of it. -/
namespace BloomServer
open LabelledRun

abbrev Bytes := List UInt8

/-- The text archive: the bytes of a table, and the table read back unless the archive throws. -/
structure TextArchive where
  write : Archive → Bytes
  read : Bytes → Option Archive

/-- What a dump does to the file. -/
inductive FileEffect
  | truncate          -- `std::ofstream fout("file.txt")`
  | byte (b : UInt8)
  | close
  deriving DecidableEq

def FileEffect.apply : Option Bytes → FileEffect → Option Bytes
  | _, .truncate => some []
  | file, .byte b => file.map (· ++ [b])
  | file, .close => file

/-- The effects of one `blooms_dump`, in order. -/
def dumpEffects (F : TextArchive) (σ : Store) : List FileEffect :=
  .truncate :: ((F.write σ.serialize).map .byte ++ [.close])

/-- The file after some effects, `none` while there is none. -/
def fileAfter (file : Option Bytes) (effects : List FileEffect) : Option Bytes :=
  effects.foldl FileEffect.apply file

/-- `BloomFilter::initialize` in a new process; `none` when the load throws. -/
def bloomFilterInitialize (F : TextArchive) (size : UInt64) (junk : Nat → UInt64) :
    Option Bytes → Option Store
  | none => some (bloomsInit size [])
  | some bytes => (F.read bytes).map fun A => A.load [] junk

structure Process where
  store : Store
  file : Option Bytes

inductive ProcessEvent
  | call (ev : Event)
  | dump (σ : Store)
  | restart

/-- A call, a completed dump, or the end of the process and its restart. -/
inductive ProcessStep (E : Env) (F : TextArchive) : Process → ProcessEvent → Process → Prop
  | call {s ev σ} (returns : Returns E s.store ev σ) :
      ProcessStep E F s (.call ev) { s with store := σ }
  | dump {s} : ProcessStep E F s (.dump s.store)
      { s with file := fileAfter s.file (dumpEffects F s.store) }
  | restart {s size junk σ} (run : bloomFilterInitialize F size junk s.file = some σ) :
      ProcessStep E F s .restart { s with store := σ }

def Process.start (max : UInt64) : Process := ⟨bloomsInit max [], none⟩

/-- The store of the last completed dump; the history is newest first. -/
def lastDump : List ProcessEvent → Option Store
  | [] => none
  | .dump σ :: _ => some σ
  | .call _ :: T | .restart :: T => lastDump T

/-- The archive gives back what a dump of the store writes. -/
def TextArchive.Exact (F : TextArchive) (σ : Store) : Prop :=
  F.read (F.write σ.serialize) = some σ.serialize

/-- The table has every filter of `σ`, its limits and the counters of the whole table: all that
the `serialize` functions pass on. -/
structure Restored (τ σ : Store) : Prop extends Mirrors τ σ where
  count : τ.blooms.count = σ.blooms.count
  power : τ.blooms.power = σ.blooms.power
  getCount : τ.blooms.getCount = σ.blooms.getCount
  setCount : τ.blooms.setCount = σ.blooms.setCount
  getMissCount : τ.blooms.getMissCount = σ.blooms.getMissCount

/-- A restart on the file restores `σ`. -/
def RestartsAs (F : TextArchive) (file : Option Bytes) (σ : Store) : Prop :=
  ∀ size junk, ∃ τ, bloomFilterInitialize F size junk file = some τ ∧ Restored τ σ

/-! ### The file at every point of a dump -/

theorem fileAfter_bytes (bytes written : Bytes) :
    fileAfter (some written) (bytes.map .byte) = some (written ++ bytes) := by
  induction bytes generalizing written with
  | nil => exact congrArg some (List.append_nil written).symm
  | cons b bytes ih =>
      change fileAfter (some (written ++ [b])) (bytes.map .byte) = _
      rw [ih, List.append_assoc]
      rfl

theorem fileAfter_append (file : Option Bytes) (l₁ l₂ : List FileEffect) :
    fileAfter file (l₁ ++ l₂) = fileAfter (fileAfter file l₁) l₂ := List.foldl_append

theorem fileAfter_dump (F : TextArchive) (file : Option Bytes) (σ : Store) :
    fileAfter file (dumpEffects F σ) = some (F.write σ.serialize) := by
  change fileAfter (some []) ((F.write σ.serialize).map .byte ++ [.close]) = _
  rw [fileAfter_append, fileAfter_bytes]
  rfl

/-- A dump that has opened the file and got no further leaves a prefix of the new text in it. -/
theorem fileAfter_cut {F : TextArchive} {σ : Store} {file : Option Bytes}
    {done : List FileEffect} (cut : done <+: dumpEffects F σ) (opened : done ≠ []) :
    fileAfter file done = some ((F.write σ.serialize).take (done.length - 1)) := by
  cases done with
  | nil => exact absurd rfl opened
  | cons first rest =>
      obtain ⟨rfl, tail⟩ := List.cons_prefix_cons.mp cut
      change fileAfter (some []) rest = some ((F.write σ.serialize).take rest.length)
      rcases List.prefix_concat_iff.mp tail with rfl | inside
      · rw [fileAfter_append, fileAfter_bytes, List.length_append, List.length_map,
          List.take_of_length_le (Nat.le_add_right _ _)]
        rfl
      · have same := List.prefix_iff_eq_take.mp inside
        rw [← List.map_take] at same
        have text := fileAfter_bytes ((F.write σ.serialize).take rest.length) []
        rw [← same] at text
        exact text

/-! ### What a restart finds -/

theorem Represents.load_restores {σ : Store} {B : Buckets} (rep : Represents σ B)
    (heap : List Node) (junk : Nat → UInt64) : Restored (σ.serialize.load heap junk) σ where
  toMirrors := rep.load_mirrors heap junk
  count := rfl
  power := rfl
  getCount := rfl
  setCount := rfl
  getMissCount := rfl

theorem restartsAs_written {F : TextArchive} {σ : Store} {B : Buckets} (rep : Represents σ B)
    (exact : F.Exact σ) : RestartsAs F (some (F.write σ.serialize)) σ := by
  intro size junk
  refine ⟨σ.serialize.load [] junk, ?_, rep.load_restores [] junk⟩
  change (F.read (F.write σ.serialize)).map _ = _
  rw [exact]
  rfl

/-- Between operations the file is the last completed dump, and both tables are sound. -/
structure Process.Sound (F : TextArchive) (T : List ProcessEvent) (s : Process) : Prop where
  rep : ∃ B, Represents s.store B
  file : s.file = (lastDump T).map fun σ => F.write σ.serialize
  last : ∀ σ, lastDump T = some σ → ∃ B, Represents σ B

/-- The step lemma. -/
theorem Process.Sound.step {E : Env} {F : TextArchive} {T : List ProcessEvent} {s s' : Process}
    {ev : ProcessEvent} (sound : s.Sound F T) (exact : ∀ σ, lastDump T = some σ → F.Exact σ)
    (step : ProcessStep E F s ev s') : s'.Sound F (ev :: T) := by
  obtain ⟨⟨B, rep⟩, file, last⟩ := sound
  cases step with
  | @call _ σ returns =>
      obtain ⟨B', eff⟩ := returns.effect rep
      exact ⟨⟨B', eff.represents rep⟩, file, last⟩
  | dump =>
      refine ⟨⟨B, rep⟩, fileAfter_dump F s.file s.store, ?_⟩
      intro σ same
      cases same
      exact ⟨B, rep⟩
  | @restart size junk σ run =>
      refine ⟨?_, file, last⟩
      cases dumped : lastDump T with
      | none =>
          rw [file, dumped] at run
          cases run
          exact ⟨_, bloomsInit_represents size []⟩
      | some σ₀ =>
          obtain ⟨B₀, rep₀⟩ := last σ₀ dumped
          obtain ⟨τ, start, restored⟩ := restartsAs_written rep₀ (exact σ₀ dumped) size junk
          rw [file, dumped] at run
          cases start.symm.trans run
          exact restored.left

theorem lastDump_mem {T : List ProcessEvent} {σ : Store} (dumped : lastDump T = some σ) :
    .dump σ ∈ T := by
  induction T with
  | nil => cases dumped
  | cons ev T ih =>
      cases ev with
      | dump τ =>
          cases dumped
          exact List.mem_cons_self
      | call _ | restart => exact List.mem_cons_of_mem _ (ih dumped)

/-- The run lemma. -/
theorem sound_of_run {E : Env} {F : TextArchive} {max : UInt64} {T : List ProcessEvent}
    {s : Process} (run : Run (ProcessStep E F) (Process.start max) T s)
    (exact : ∀ σ, .dump σ ∈ T → F.Exact σ) : s.Sound F T := by
  induction run with
  | nil =>
      refine ⟨⟨_, bloomsInit_represents max []⟩, rfl, ?_⟩
      intro σ none
      cases none
  | snoc _ last ih =>
      have sound := ih fun σ mem => exact σ (List.mem_cons_of_mem _ mem)
      exact sound.step (fun σ dumped => exact σ (List.mem_cons_of_mem _ (lastDump_mem dumped))) last

/-- A dump that stops before it opens the file loses nothing, one that has written its last byte
has replaced the previous dump. In between the file is a proper prefix of the new text: the
previous dump is gone, and right after the opening no restart succeeds. -/
theorem dump_crash_points {E : Env} {F : TextArchive} {max : UInt64} {T : List ProcessEvent}
    {s : Process} {done : List FileEffect} (run : Run (ProcessStep E F) (Process.start max) T s)
    (cut : done <+: dumpEffects F s.store) (empty : F.read [] = none)
    (exact : ∀ σ, .dump σ ∈ T ∨ σ = s.store → F.Exact σ) :
    (done = [] → ∀ σ, lastDump T = some σ → RestartsAs F (fileAfter s.file done) σ) ∧
    ((F.write s.store.serialize).length < done.length →
      RestartsAs F (fileAfter s.file done) s.store) ∧
    (done ≠ [] → done.length ≤ (F.write s.store.serialize).length →
      ∃ text, fileAfter s.file done = some text ∧ text <+: F.write s.store.serialize ∧
        text ≠ F.write s.store.serialize ∧
        (done = [.truncate] → ∀ size junk,
          bloomFilterInitialize F size junk (fileAfter s.file done) = none)) := by
  have sound := sound_of_run run fun σ mem => exact σ (Or.inl mem)
  obtain ⟨B, rep⟩ := sound.rep
  refine ⟨?_, ?_, ?_⟩
  · rintro rfl σ dumped
    obtain ⟨B₀, rep₀⟩ := sound.last σ dumped
    change RestartsAs F s.file σ
    rw [sound.file, dumped]
    exact restartsAs_written rep₀ (exact σ (Or.inl (lastDump_mem dumped)))
  · intro whole
    have opened : done ≠ [] := List.ne_nil_of_length_pos (Nat.zero_lt_of_lt whole)
    rw [fileAfter_cut cut opened, List.take_of_length_le (Nat.le_sub_one_of_lt whole)]
    exact restartsAs_written rep (exact s.store (Or.inr rfl))
  · intro opened short
    refine ⟨_, fileAfter_cut cut opened, List.take_prefix _ _, ?_, ?_⟩
    · intro same
      have lengths := congrArg List.length same
      have positive := List.length_pos_iff.mpr opened
      rw [List.length_take] at lengths
      omega
    · rintro rfl size junk
      change (F.read []).map _ = none
      rw [empty]
      rfl

/-- An archive that has met one table. -/
def sampleArchive (A : Archive) : TextArchive where
  write _ := [50, 50, 32]
  read bytes := if bytes = [50, 50, 32] then some A else none

theorem sampleArchive_exact (σ : Store) : (sampleArchive σ.serialize).Exact σ := by
  unfold TextArchive.Exact sampleArchive
  dsimp only
  rw [if_pos rfl]

theorem exists_dumped_process : ∃ σ, Run (ProcessStep (serverEnv Libm.oneHalf)
    (sampleArchive σ.serialize)) (Process.start 1000)
    [.dump σ, .call (.add [97] 32 0.5 ⟨true, true⟩, 0)] ⟨σ, some [50, 50, 32]⟩ := by
  obtain ⟨σ, run⟩ := exists_run (E := serverEnv Libm.oneHalf) (σ := bloomsInit 1000 [])
    (T := [(.add [97] 32 0.5 ⟨true, true⟩, 0)]) (by decide +kernel)
  obtain ⟨_, before, last⟩ := run.of_cons
  cases before.of_nil
  have call := ProcessStep.call (F := sampleArchive σ.serialize) (s := Process.start 1000) last
  exact ⟨σ, (Run.single call).snoc .dump⟩

/-- A dump that runs to its end over an earlier one. -/
theorem dump_crash_points_whole :
    ∃ σ s, Run (ProcessStep (serverEnv Libm.oneHalf) (sampleArchive σ.serialize))
        (Process.start 1000) [.dump σ, .call (.add [97] 32 0.5 ⟨true, true⟩, 0)] s ∧
      RestartsAs (sampleArchive σ.serialize)
        (fileAfter s.file (dumpEffects (sampleArchive σ.serialize) s.store)) s.store := by
  obtain ⟨σ, run⟩ := exists_dumped_process
  refine ⟨σ, _, run, ?_⟩
  apply (dump_crash_points run List.prefix_rfl rfl ?_).2.1
  · exact (by decide : 3 < 5)
  · rintro τ (mem | rfl)
    · have same : τ = σ := by simpa using mem
      subst same
      exact sampleArchive_exact τ
    · exact sampleArchive_exact _

/-- A dump that stops right after it has opened the file: nothing can be restored, although a
complete dump existed. -/
theorem dump_not_crash_atomic :
    ∃ F T s σ done, F.read [] = none ∧ F.Exact σ ∧
      Run (ProcessStep (serverEnv Libm.oneHalf) F) (Process.start 1000) T s ∧
      lastDump T = some σ ∧ done <+: dumpEffects F s.store ∧
      (∀ size junk, bloomFilterInitialize F size junk (fileAfter s.file done) = none) ∧
      ¬ RestartsAs F (fileAfter s.file done) σ ∧ ¬ RestartsAs F (fileAfter s.file done) s.store := by
  obtain ⟨σ, run⟩ := exists_dumped_process
  have lost : ∀ size junk, bloomFilterInitialize (sampleArchive σ.serialize) size junk (some []) =
    none := fun _ _ => rfl
  have gone : ∀ τ, ¬ RestartsAs (sampleArchive σ.serialize) (some []) τ := by
    intro τ restarts
    obtain ⟨_, start, _⟩ := restarts 1000 fun _ => 0
    cases (lost _ _).symm.trans start
  exact ⟨_, _, _, σ, [.truncate], rfl, sampleArchive_exact σ, run, rfl, ⟨_, rfl⟩, lost, gone σ,
    gone σ⟩

end BloomServer
