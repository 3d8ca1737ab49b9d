import BloomServer.Membership
import BloomServer.DumpFile

/-! What the filters of a process answer over any sequence of calls, dumps and restarts: the
calls since the last restart, on top of those the restored dump had seen, decide every get. -/
namespace BloomServer
open LabelledRun ProbeFilter

/-- The calls that the running table has seen, and those that the file has; newest first. -/
structure Reflected where
  live : List Event
  saved : List Event

/-- A dump saves what the table has seen, and a restart goes back to it. -/
def reflected : List ProcessEvent → Reflected
  | [] => ⟨[], []⟩
  | .call ev :: T => ⟨ev :: (reflected T).live, (reflected T).saved⟩
  | .dump _ :: T => ⟨(reflected T).live, (reflected T).live⟩
  | .restart :: T => ⟨(reflected T).saved, (reflected T).saved⟩

/-- The parameters a key was last added with, unless it has been deleted since. -/
def addedAs (key : CString) : List Event → Option (UInt64 × Float)
  | [] => none
  | (.add key' n e _, r) :: T => if key' = key ∧ r = 0 then some (n, e) else addedAs key T
  | (.delete key', r) :: T => if key' = key ∧ r = 0 then none else addedAs key T
  | (.set _ _, _) :: T | (.get _ _, _) :: T => addedAs key T

/-- The positions that decide about `s` are all positions of recorded subkeys. -/
def positionsCovered (E : Env) (m : UInt64) (rounds : Nat) (record : List CString) (s : CString) : Bool :=
  (List.range rounds).all fun i => record.any fun s' => (List.range rounds).any fun j =>
    position (E.hash s) m i = position (E.hash s') m j

/-- What a get returns after some calls, computed from the calls alone. -/
def recordedAnswer (E : Env) (T : List Event) (key s : CString) : Int :=
  match addedAs key T with
  | none => -1
  | some (n, e) =>
      let size := calculate E.libm n e
      if positionsCovered E size.m size.k.toInt.toNat (inserted key T) s then 1 else 0

/-- What setting and getting never write. -/
structure Shape where
  n : UInt64
  e : Float
  m : UInt64
  k : Int32

def Bloom.shape (b : Bloom) : Shape := ⟨b.n, b.e, b.m, b.k⟩

def shapeOf (E : Env) (added : UInt64 × Float) : Shape :=
  ⟨added.1, added.2, (calculate E.libm added.1 added.2).m, (calculate E.libm added.1 added.2).k⟩

/-- The map has the keys that were added and not deleted, each with the shape it was added with. -/
def Shaped (E : Env) (T : List Event) (M : FilterMap) : Prop :=
  ∀ key, (M key).map Bloom.shape = (addedAs key T).map (shapeOf E)

/-- Every addition of the process asks for a size that is a positive `int`. -/
def SmallAdditions (T : List ProcessEvent) : Prop :=
  ∀ key n e mem r, .call (.add key n e mem, r) ∈ T → 0 < n ∧ n < 2 ^ 31

theorem positionsCovered_iff {E : Env} {m : UInt64} {rounds : Nat} {record : List CString} {s : CString} :
    positionsCovered E m rounds record s = true ↔ ∀ i < rounds, ∃ s' ∈ record, ∃ j < rounds,
      position (E.hash s) m i = position (E.hash s') m j := by
  simp only [positionsCovered, List.all_eq_true, List.mem_range, List.any_eq_true, decide_eq_true_eq]

/-! ### The shapes of the filters -/

theorem bloomSet_shape {E : Env} {b b' : Bloom} {s : CString} (run : bloomSet E b s = .ok b') :
    b'.shape = b.shape := by
  obtain ⟨map, map', _, _, rfl⟩ := bloomSet_frame run
  rfl

theorem bloomGet_shape {E : Env} {b b' : Bloom} {s : CString} {r : Int}
    (run : bloomGet E b s = .ok (r, b')) : b'.shape = b.shape := by
  rcases (bloomGet_frame run).2 with ⟨_, rfl⟩ | ⟨_, rfl⟩ <;> rfl

theorem Bloom.of_dumped {b c : Bloom} (fields : b.dumped = c.dumped) :
    b.shape = c.shape ∧ b.vHash = c.vHash := by
  have shape := congrArg (fun d : Bloom => d.shape) fields
  have vector := congrArg (fun d : Bloom => d.vHash) fields
  exact ⟨shape, vector⟩

/-- Calls on one key leave the parameters of every other key alone. -/
theorem addedAs_of_ne {key : CString} {ev : Event} (other : key ≠ ev.1.key) (T : List Event) :
    addedAs key (ev :: T) = addedAs key T := by
  obtain ⟨call, r⟩ := ev
  cases call with
  | add key' n e mem => exact if_neg fun same => other same.1.symm
  | set key' s => rfl
  | get key' s => rfl
  | delete key' => exact if_neg fun same => other same.1.symm

section Step

variable {E : Env} {M M' N : FilterMap} {T : List Event} {ev : Event} {key s : CString}

/-- The step lemma. -/
theorem FilterMap.Step.shaped (step : FilterMap.Step E M ev M') (held : Shaped E T M) :
    Shaped E (ev :: T) M' := by
  intro key
  by_cases other : key ≠ ev.1.key
  · rw [step.frame other, addedAs_of_ne other]
    exact held key
  · cases not_not.mp other
    have before := held ev.1.key
    cases step with
    | addPresent => simpa [addedAs] using before
    | addRejected => simpa [addedAs] using before
    | added =>
        simp only [Call.key, Function.update_self, addedAs, and_self, if_true, Option.map_some]
        rfl
    | setAbsent => exact before
    | @set key s b b' present run =>
        rw [Call.key, present] at before
        simp only [Call.key, Function.update_self]
        exact (congrArg some (bloomSet_shape run)).trans before
    | getAbsent => exact before
    | @got key s b r b' present run =>
        rw [Call.key, present] at before
        simp only [Call.key, Function.update_self]
        exact (congrArg some (bloomGet_shape run)).trans before
    | deleteAbsent absent => simpa [addedAs] using before
    | deleted => simp [addedAs, Call.key]

theorem Shaped.of_mirrors (held : Shaped E T M) (same : N.Mirrors M) : Shaped E T N := by
  intro key
  rw [← held key]
  rcases same.cases key with ⟨none, none'⟩ | ⟨b, c, here, there, fields⟩
  · rw [none, none']
  · rw [here, there]
    exact congrArg some (Bloom.of_dumped fields).1

theorem Remembers.of_mirrors (held : Remembers E T M) (same : N.Mirrors M) : Remembers E T N := by
  intro key b found
  rcases same.cases key with ⟨none, _⟩ | ⟨b', c, here, there, fields⟩
  · cases none.symm.trans found
  · cases here.symm.trans found
    obtain ⟨map, usable, bits⟩ := held key c there
    obtain ⟨shape, vector⟩ := Bloom.of_dumped fields
    have m : b.m = c.m := congrArg Shape.m shape
    have rounds : b.rounds = c.rounds := congrArg (fun shape : Shape => shape.k.toInt.toNat) shape
    refine ⟨map, ⟨vector.trans usable.vector, ?_, ?_⟩, ?_⟩
    · rw [m]
      exact usable.modulus
    · rw [m]
      exact usable.fits
    · rw [m, rounds]
      exact bits

end Step

/-! ### Calls, dumps and restarts -/

theorem mem_of_reflected {T : List ProcessEvent} {ev : Event} :
    (ev ∈ (reflected T).live → .call ev ∈ T) ∧ (ev ∈ (reflected T).saved → .call ev ∈ T) := by
  induction T with
  | nil => exact ⟨fun mem => (nomatch mem), fun mem => (nomatch mem)⟩
  | cons first T ih =>
      have live := fun mem => List.mem_cons_of_mem first (ih.1 mem)
      have saved := fun mem => List.mem_cons_of_mem first (ih.2 mem)
      cases first with
      | call ev' =>
          refine ⟨fun mem => ?_, saved⟩
          rcases List.mem_cons.mp mem with rfl | older
          · exact List.mem_cons_self
          · exact live older
      | dump => exact ⟨live, live⟩
      | restart => exact ⟨saved, saved⟩

theorem SmallAdditions.live {T : List ProcessEvent} (small : SmallAdditions T) :
    SmallSizes (reflected T).live :=
  fun key n e mem r added => small key n e mem r (mem_of_reflected.1 added)

/-- The map is what the calls have made of it. -/
structure RecordedBy (E : Env) (T : List Event) (M : FilterMap) : Prop where
  bits : Remembers E T M
  shapes : Shaped E T M

theorem RecordedBy.of_mirrors {E : Env} {T : List Event} {M N : FilterMap}
    (held : RecordedBy E T M) (same : N.Mirrors M) : RecordedBy E T N :=
  ⟨held.bits.of_mirrors same, held.shapes.of_mirrors same⟩

theorem recordedBy_init (E : Env) (size : UInt64) (heap : List Node) :
    RecordedBy E [] (bloomsInit size heap).contents := by
  rw [contents_bloomsInit]
  exact ⟨fun key b found => (nomatch found), fun key => rfl⟩

/-- The running table and the last dump are both what their calls have made of them. -/
structure Process.Recalls (E : Env) (T : List ProcessEvent) (s : Process) : Prop where
  live : RecordedBy E (reflected T).live s.store.contents
  saved : ∀ σ, lastDump T = some σ → RecordedBy E (reflected T).saved σ.contents
  fresh : lastDump T = none → (reflected T).saved = []

/-- A restart on a sound file gives a table that mirrors the last dump, or an empty one. -/
theorem Process.Sound.restart_cases {F : TextArchive} {T : List ProcessEvent} {s : Process}
    {σ : Store} {size : UInt64} {junk : Nat → UInt64} (sound : s.Sound F T)
    (exact : ∀ τ, lastDump T = some τ → F.Exact τ)
    (run : bloomFilterInitialize F size junk s.file = some σ) :
    (lastDump T = none ∧ σ = bloomsInit size []) ∨ ∃ τ, lastDump T = some τ ∧ Mirrors σ τ := by
  rw [sound.file] at run
  cases dumped : lastDump T with
  | none =>
      rw [dumped] at run
      exact Or.inl ⟨rfl, (Option.some.inj run).symm⟩
  | some τ =>
      rw [dumped] at run
      obtain ⟨B, rep⟩ := sound.last τ dumped
      obtain ⟨σ', start, restored⟩ := restartsAs_written rep (exact τ dumped) size junk
      cases start.symm.trans run
      exact Or.inr ⟨τ, rfl, restored.toMirrors⟩

/-- The step lemma. -/
theorem Process.Recalls.step {E : Env} {F : TextArchive} {T : List ProcessEvent} {s s' : Process}
    {ev : ProcessEvent} (recalls : s.Recalls E T) (sound : s.Sound F T)
    (exact : ∀ τ, lastDump T = some τ → F.Exact τ) (small : SmallAdditions (ev :: T))
    (step : ProcessStep E F s ev s') : s'.Recalls E (ev :: T) := by
  have sizes := small.live
  cases step with
  | @call _ σ returns =>
      obtain ⟨B, rep⟩ := sound.rep
      obtain ⟨B', eff⟩ := returns.effect rep
      have sim := eff.refines rep
      exact ⟨⟨sim.remembers recalls.live.bits sizes, sim.shaped recalls.live.shapes⟩,
        recalls.saved, recalls.fresh⟩
  | dump =>
      refine ⟨recalls.live, ?_, ?_⟩
      · intro σ dumped
        cases dumped
        exact recalls.live
      · intro none
        cases none
  | @restart size junk σ run =>
      refine ⟨?_, recalls.saved, recalls.fresh⟩
      rcases sound.restart_cases exact run with ⟨none, rfl⟩ | ⟨τ, dumped, mirrors⟩
      · change RecordedBy E (reflected T).saved _
        rw [recalls.fresh none]
        exact recordedBy_init E size []
      · exact (recalls.saved τ dumped).of_mirrors mirrors.contents

/-- The run lemma. -/
theorem recalls_of_run {E : Env} {F : TextArchive} {max : UInt64} {T : List ProcessEvent}
    {s : Process} (run : Run (ProcessStep E F) (Process.start max) T s)
    (exact : ∀ σ, .dump σ ∈ T → F.Exact σ) (small : SmallAdditions T) : s.Recalls E T := by
  induction run with
  | nil => exact ⟨recordedBy_init E max [], fun σ none => (nomatch none), fun _ => rfl⟩
  | snoc before last ih =>
      have older := fun σ mem => exact σ (List.mem_cons_of_mem _ mem)
      refine (ih older ?_).step (sound_of_run before older) ?_ small last
      · exact fun key n e mem r added => small key n e mem r (List.mem_cons_of_mem _ added)
      · exact fun τ dumped => older τ (lastDump_mem dumped)

/-- A get on a table made by known calls returns what the calls say. -/
theorem Represents.get_recorded {E : Env} {σ : Store} {B : Buckets} {T : List Event}
    (rep : Represents σ B) (recorded : RecordedBy E T σ.contents) (key s : CString) :
    CanReturn E σ (.get key s) (recordedAnswer E T key s) := by
  have shape := recorded.shapes key
  unfold recordedAnswer
  cases added : addedAs key T with
  | none =>
      rw [added, Option.map_none, Option.map_eq_none_iff] at shape
      exact (rep.get_returns E key s).mpr (rep.contents_eq_none_iff.mp shape)
  | some added' =>
      obtain ⟨n, e⟩ := added'
      rw [added, Option.map_some, Option.map_eq_some_iff] at shape
      obtain ⟨b, found, same⟩ := shape
      obtain ⟨p, held⟩ := rep.contents_iff.mp found
      have m : b.m = (calculate E.libm n e).m := congrArg Shape.m same
      have k : b.rounds = (calculate E.libm n e).k.toInt.toNat :=
        congrArg (fun shape : Shape => shape.k.toInt.toNat) same
      obtain ⟨r, returns, value, hit⟩ := rep.get_answer recorded.bits held s
      rw [m, k, ← positionsCovered_iff] at hit
      dsimp only
      rcases value with rfl | rfl
      · rw [if_neg fun all => absurd (hit.mpr all) (by decide)]
        exact returns
      · rw [if_pos (hit.mp rfl)]
        exact returns

/-- After any calls, completed dumps and restarts a get returns exactly what the calls since the
last restart say, on top of those the restored dump had seen. -/
theorem process_answers {E : Env} {F : TextArchive} {max : UInt64} {T : List ProcessEvent}
    {s : Process} (run : Run (ProcessStep E F) (Process.start max) T s)
    (exact : ∀ σ, .dump σ ∈ T → F.Exact σ) (small : SmallAdditions T) (key subkey : CString)
    (r : Int) : CanReturn E s.store (.get key subkey) r ↔
      r = recordedAnswer E (reflected T).live key subkey := by
  obtain ⟨B, rep⟩ := (sound_of_run run exact).rep
  have answer := rep.get_recorded (recalls_of_run run exact small).live key subkey
  constructor
  · rintro ⟨σ, returns⟩
    obtain ⟨σ', returns'⟩ := answer
    exact congrArg Prod.fst (Except.ok.inj (returns.symm.trans returns'))
  · rintro rfl
    exact answer

/-- A dump, a restart on it, and a call in between that the restart forgets. -/
def restartedCalls (σ : Store) : List ProcessEvent :=
  [.restart, .call (.set [97] [121], 0), .dump σ, .call (.set [97] [120], 0),
    .call (.add [97] 32 0.5 ⟨true, true⟩, 0)]

theorem exists_restarted_process : ∃ σ s, Run (ProcessStep (serverEnv Libm.oneHalf)
    (sampleArchive σ.serialize)) (Process.start 1000) (restartedCalls σ) s := by
  obtain ⟨τ, run⟩ := exists_run (E := serverEnv Libm.oneHalf) (σ := bloomsInit 1000 [])
    (T := [(.set [97] [121], 0), (.set [97] [120], 0), (.add [97] 32 0.5 ⟨true, true⟩, 0)])
    (by decide +kernel)
  obtain ⟨σ, before, third⟩ := run.of_cons
  obtain ⟨σ₁, before, second⟩ := before.of_cons
  obtain ⟨_, before, first⟩ := before.of_cons
  cases before.of_nil
  have add := ProcessStep.call (F := sampleArchive σ.serialize) (s := Process.start 1000) first
  have filled := (((Run.single add).snoc (.call second)).snoc .dump).snoc (.call third)
  obtain ⟨B, rep⟩ := represents_of_run (bloomsInit_represents 1000 []) ((Run.single first).snoc second)
  have file := fileAfter_dump (sampleArchive σ.serialize) none σ
  obtain ⟨τ', start, _⟩ := restartsAs_written rep (sampleArchive_exact σ) 1000 fun _ => 0
  rw [← file] at start
  exact ⟨σ, _, filled.snoc (.restart start)⟩

theorem restartedCalls_exact {σ τ : Store} (dumped : .dump τ ∈ restartedCalls σ) :
    (sampleArchive σ.serialize).Exact τ := by
  have same : τ = σ := by simpa [restartedCalls] using dumped
  subst same
  exact sampleArchive_exact τ

theorem restartedCalls_small (σ : Store) : SmallAdditions (restartedCalls σ) := by
  intro key n e mem r added
  have same : n = 32 := by
    simp only [restartedCalls, List.mem_cons, reduceCtorEq, ProcessEvent.call.injEq, Prod.mk.injEq,
      Call.add.injEq, List.not_mem_nil] at added
    tauto
  subst same
  decide

theorem restartedCalls_live (σ : Store) : (reflected (restartedCalls σ)).live =
    [(.set [97] [120], 0), (.add [97] 32 0.5 ⟨true, true⟩, 0)] := rfl

/-- After the restart the subkey set before the dump is found, the later one is not. -/
theorem process_answers_restarted : ∃ σ s,
    Run (ProcessStep (serverEnv Libm.oneHalf) (sampleArchive σ.serialize)) (Process.start 1000)
      (restartedCalls σ) s ∧
    CanReturn (serverEnv Libm.oneHalf) s.store (.get [97] [120]) 1 ∧
    CanReturn (serverEnv Libm.oneHalf) s.store (.get [97] [121]) 0 := by
  obtain ⟨σ, s, run⟩ := exists_restarted_process
  have answers := fun subkey r => (process_answers run (fun _ => restartedCalls_exact)
    (restartedCalls_small σ) [97] subkey r).mpr
  refine ⟨σ, s, run, answers _ _ ?_, answers _ _ ?_⟩
  · rw [restartedCalls_live]
    decide +kernel
  · rw [restartedCalls_live]
    decide +kernel

/-! ### A subkey once set -/

section Kept

variable {E : Env} {F : TextArchive} {max : UInt64} {T T₁ T₂ T₃ : List ProcessEvent}
variable {s s' : Process} {ev : ProcessEvent} {σ : Store} {key subkey : CString}

/-- The running table has the key, with the subkey recorded under it. -/
def Process.Live (key subkey : CString) (T : List ProcessEvent) (s : Process) : Prop :=
  s.store.contents key ≠ none ∧ subkey ∈ inserted key (reflected T).live

/-- The last dump has them too. -/
structure Process.Saved (key subkey : CString) (T : List ProcessEvent) (s : Process) : Prop where
  live : s.Live key subkey T
  saved : ∃ σ, lastDump T = some σ ∧ σ.contents key ≠ none ∧
    subkey ∈ inserted key (reflected T).saved

theorem live_of_set (run : Run (ProcessStep E F) (Process.start max)
    (.call (.set key subkey, 0) :: T) s) (exact : ∀ σ, .dump σ ∈ T → F.Exact σ) :
    s.Live key subkey (.call (.set key subkey, 0) :: T) := by
  obtain ⟨s₀, before, last⟩ := run.of_cons
  obtain ⟨B, rep⟩ := (sound_of_run before exact).rep
  cases last with
  | @call _ σ returns =>
      obtain ⟨B', eff⟩ := returns.effect rep
      have first : subkey ∈ inserted key ((.set key subkey, 0) :: (reflected T).live) := by
        simp [inserted]
      refine ⟨?_, first⟩
      have sim := eff.refines rep
      change σ.contents key ≠ none
      generalize σ.contents = M at sim ⊢
      cases sim with
      | set =>
          rw [Function.update_self]
          exact Option.some_ne_none _

/-- Without a restart only a deletion of the key forgets the subkey. -/
theorem Process.Live.step (live : s.Live key subkey T) (sound : s.Sound F T)
    (same : ev ≠ .restart) (kept : ev ≠ .call (.delete key, 0)) (step : ProcessStep E F s ev s') :
    s'.Live key subkey (ev :: T) := by
  obtain ⟨present, recorded⟩ := live
  cases step with
  | call returns =>
      obtain ⟨B, rep⟩ := sound.rep
      obtain ⟨B', eff⟩ := returns.effect rep
      have keeps := (eff.refines rep).keeps (s := subkey) (reflected T).live present
        fun deleted => kept (congrArg _ deleted)
      exact ⟨keeps.1, keeps.2 recorded⟩
  | dump => exact ⟨present, recorded⟩
  | restart => exact absurd rfl same

/-- A dumped subkey is not forgotten by a restart either. -/
theorem Process.Saved.step (held : s.Saved key subkey T) (sound : s.Sound F T)
    (exact : ∀ τ, lastDump T = some τ → F.Exact τ) (kept : ev ≠ .call (.delete key, 0))
    (step : ProcessStep E F s ev s') : s'.Saved key subkey (ev :: T) := by
  obtain ⟨live, saved⟩ := held
  by_cases restarted : ev = .restart
  · subst restarted
    obtain ⟨τ, dumped, there, was⟩ := saved
    cases step with
    | restart run =>
        refine ⟨⟨?_, was⟩, τ, dumped, there, was⟩
        rcases sound.restart_cases exact run with ⟨none, _⟩ | ⟨τ', dumped', mirrors⟩
        · cases none.symm.trans dumped
        · cases dumped'.symm.trans dumped
          rcases mirrors.contents.cases key with ⟨_, none⟩ | ⟨b, _, found, _⟩
          · exact absurd none there
          · exact fun none => (nomatch none.symm.trans found)
  · have now := live.step sound restarted kept step
    cases step with
    | call => exact ⟨now, saved⟩
    | dump => exact ⟨now, s.store, rfl, live⟩
    | restart => exact absurd rfl restarted

theorem live_of_run (run : Run (ProcessStep E F) (Process.start max)
    (T₂ ++ .call (.set key subkey, 0) :: T₁) s)
    (exact : ∀ τ, .dump τ ∈ T₂ ++ .call (.set key subkey, 0) :: T₁ → F.Exact τ)
    (same : .restart ∉ T₂) (kept : .call (.delete key, 0) ∉ T₂) :
    s.Live key subkey (T₂ ++ .call (.set key subkey, 0) :: T₁) := by
  induction T₂ generalizing s with
  | nil => exact live_of_set run fun τ mem => exact τ (List.mem_cons_of_mem _ mem)
  | cons ev T₂ ih =>
      obtain ⟨s₀, before, last⟩ := run.of_cons
      have older := fun τ mem => exact τ (List.mem_cons_of_mem ev mem)
      have live := ih before older (List.not_mem_of_not_mem_cons same)
        (List.not_mem_of_not_mem_cons kept)
      exact live.step (sound_of_run before older) (List.ne_of_not_mem_cons same).symm
        (List.ne_of_not_mem_cons kept).symm last

theorem saved_of_run (key subkey : CString) (run : Run (ProcessStep E F) (Process.start max) (T₃ ++ .dump σ :: T) s)
    (exact : ∀ τ, .dump τ ∈ T₃ ++ .dump σ :: T → F.Exact τ)
    (live : ∀ s₀, Run (ProcessStep E F) (Process.start max) T s₀ → s₀.Live key subkey T)
    (kept : .call (.delete key, 0) ∉ T₃) : s.Saved key subkey (T₃ ++ .dump σ :: T) := by
  induction T₃ generalizing s with
  | nil =>
      obtain ⟨s₀, before, last⟩ := run.of_cons
      have now := live s₀ before
      cases last with
      | dump => exact ⟨now, s₀.store, rfl, now⟩
  | cons ev T₃ ih =>
      obtain ⟨s₀, before, last⟩ := run.of_cons
      have older := fun τ mem => exact τ (List.mem_cons_of_mem ev mem)
      have saved := ih before older (List.not_mem_of_not_mem_cons kept)
      exact saved.step (sound_of_run before older)
        (fun τ dumped => older τ (lastDump_mem dumped)) (List.ne_of_not_mem_cons kept).symm last

end Kept

/-- A recorded subkey of a key that the table has is found. -/
theorem recordedAnswer_of_mem {E : Env} {T : List Event} {key s : CString}
    (added : addedAs key T ≠ none) (recorded : s ∈ inserted key T) :
    recordedAnswer E T key s = 1 := by
  unfold recordedAnswer
  cases found : addedAs key T with
  | none => exact absurd found added
  | some added' =>
      obtain ⟨n, e⟩ := added'
      exact if_pos (positionsCovered_iff.mpr fun i low => ⟨s, recorded, i, low, rfl⟩)

/-- A subkey set before a completed dump is found after any further calls, dumps and restarts, as
long as its filter is not deleted. -/
theorem set_survives_restarts {E : Env} {F : TextArchive} {max : UInt64}
    {T₁ T₂ T₃ : List ProcessEvent} {σ : Store} {s : Process} {key subkey : CString}
    (run : Run (ProcessStep E F) (Process.start max)
      (T₃ ++ .dump σ :: (T₂ ++ .call (.set key subkey, 0) :: T₁)) s)
    (same : .restart ∉ T₂) (kept : .call (.delete key, 0) ∉ T₃ ++ T₂)
    (exact : ∀ τ, .dump τ ∈ T₃ ++ .dump σ :: (T₂ ++ .call (.set key subkey, 0) :: T₁) → F.Exact τ)
    (small : SmallAdditions (T₃ ++ .dump σ :: (T₂ ++ .call (.set key subkey, 0) :: T₁))) :
    CanReturn E s.store (.get key subkey) 1 := by
  rw [List.mem_append, not_or] at kept
  have saved := saved_of_run key subkey run exact (fun s₀ before =>
    live_of_run before (fun τ mem => exact τ (List.mem_append_right _ (List.mem_cons_of_mem _ mem)))
      same kept.2) kept.1
  obtain ⟨present, recorded⟩ := saved.live
  have recalls := recalls_of_run run exact small
  have shape := recalls.live.shapes key
  obtain ⟨B, rep⟩ := (sound_of_run run exact).rep
  have answer := rep.get_recorded recalls.live key subkey
  rw [recordedAnswer_of_mem ?_ recorded] at answer
  · exact answer
  · intro none
    rw [none, Option.map_none, Option.map_eq_none_iff] at shape
    exact present shape

theorem set_survives_restarts_restarted : ∃ σ s,
    Run (ProcessStep (serverEnv Libm.oneHalf) (sampleArchive σ.serialize)) (Process.start 1000)
      (restartedCalls σ) s ∧
    CanReturn (serverEnv Libm.oneHalf) s.store (.get [97] [120]) 1 := by
  obtain ⟨σ, s, run⟩ := exists_restarted_process
  refine ⟨σ, s, run, ?_⟩
  have cut : restartedCalls σ = [.restart, .call (.set [97] [121], 0)] ++ .dump σ ::
      ([] ++ .call (.set [97] [120], 0) :: [.call (.add [97] 32 0.5 ⟨true, true⟩, 0)]) := rfl
  rw [cut] at run
  apply set_survives_restarts run
  · exact List.not_mem_nil
  · simp
  · exact fun _ => restartedCalls_exact
  · exact restartedCalls_small σ

end BloomServer
