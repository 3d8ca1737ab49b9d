import BloomServer.FilterMap

/-! What a filter answers after any history: the invariant that ties the bits of every
filter of the map to the subkeys inserted since its key was added. -/
namespace BloomServer
open LabelledRun ProbeFilter

/-- The subkeys set under a key since it was last added, newest first. -/
def inserted (key : CString) : List Event → List CString
  | [] => []
  | (.add key' _ _ _, r) :: T => if key' = key ∧ r = 0 then [] else inserted key T
  | (.set key' s, r) :: T => if key' = key ∧ r = 0 then s :: inserted key T else inserted key T
  | (.get _ _, _) :: T | (.delete _, _) :: T => inserted key T

/-- Every filter was added with a size that is a positive `int`. -/
def SmallSizes (T : List Event) : Prop :=
  ∀ key n e mem r, (Call.add key n e mem, r) ∈ T → 0 < n ∧ n < 2 ^ 31

/-- The bits of each filter are those of the subkeys inserted into it. -/
def Remembers (E : Env) (T : List Event) (M : FilterMap) : Prop :=
  ∀ key b, M key = some b → ∃ map, b.Usable map ∧
    WordBitmap.members map = marked (probesOf E b.m b.rounds) { s | s ∈ inserted key T }

theorem newBloom_usable {E : Env} {key : CString} {n : UInt64} {e : Float} (positive : 0 < n)
    (small : n < 2 ^ 31) : (newBloom E key n e).Usable
      (List.replicate (wordsOf (calculate E.libm n e).bytes) 0#32) where
  vector := rfl
  modulus := (calculate_of_small positive small).1
  fits := by
    rw [List.length_replicate]
    exact (calculate_of_small positive small).2

/-- Calls on one key leave the record of every other key alone. -/
theorem inserted_of_ne {key : CString} {ev : Event} (other : key ≠ ev.1.key) (T : List Event) :
    inserted key (ev :: T) = inserted key T := by
  obtain ⟨call, r⟩ := ev
  cases call with
  | add key' n e mem => exact if_neg fun same => other same.1.symm
  | set key' s => exact if_neg fun same => other same.1.symm
  | get key' s => rfl
  | delete key' => rfl

variable {E : Env} {M M' : FilterMap} {T : List Event} {ev : Event} {key s : CString}

/-- The step lemma: setting adds the positions of one subkey, adding starts from none, and
nothing else writes a bit. -/
theorem FilterMap.Step.remembers (step : FilterMap.Step E M ev M') (held : Remembers E T M)
    (sizes : SmallSizes (ev :: T)) : Remembers E (ev :: T) M' := by
  intro key b found
  by_cases other : key ≠ ev.1.key
  · rw [step.frame other] at found
    rw [inserted_of_ne other]
    exact held key b found
  · cases not_not.mp other
    cases step with
    | @addPresent key n e mem =>
        have same : inserted key ((.add key n e mem, 1) :: T) = inserted key T :=
          if_neg fun zero => absurd zero.2 (by decide)
        rw [Call.key, same]
        exact held key b found
    | addRejected absent => cases absent.symm.trans found
    | @added key n e mem absent _ =>
        rw [Call.key, Function.update_self] at found
        cases found
        obtain ⟨positive, small⟩ := sizes key n e mem 0 List.mem_cons_self
        refine ⟨_, newBloom_usable positive small, ?_⟩
        have empty : { s | s ∈ inserted key ((.add key n e mem, 0) :: T) } = ∅ := by
          ext s
          simp [inserted]
        rw [Call.key, empty, marked_empty, WordBitmap.members_replicate_zero]
    | setAbsent absent => cases absent.symm.trans found
    | @set key s c c' present run =>
        rw [Call.key, Function.update_self] at found
        cases found
        obtain ⟨map, usable, bits⟩ := held key c present
        obtain ⟨map', run', size, bits'⟩ := bloomSet_spec E usable s
        cases run.symm.trans run'
        refine ⟨map', ⟨rfl, usable.modulus, ?_⟩, ?_⟩
        · rw [size]
          exact usable.fits
        · have more : { s' | s' ∈ inserted key ((.set key s, 0) :: T) } =
              insert s { s' | s' ∈ inserted key T } := by
            ext s'
            simp [inserted]
          rw [Call.key, more, marked_insert, bits', bits]
          rfl
    | getAbsent absent => cases absent.symm.trans found
    | @got key s c r c' present run =>
        rw [Call.key, Function.update_self] at found
        cases found
        obtain ⟨map, usable, bits⟩ := held key c present
        rcases (bloomGet_frame run).2 with ⟨_, rfl⟩ | ⟨_, rfl⟩
        · exact ⟨map, ⟨usable.vector, usable.modulus, usable.fits⟩, bits⟩
        · exact ⟨map, ⟨usable.vector, usable.modulus, usable.fits⟩, bits⟩
    | deleteAbsent absent => cases absent.symm.trans found
    | deleted present =>
        rw [Call.key, Function.update_self] at found
        cases found

/-- The run lemma. -/
theorem remembers_of_run (run : Run (FilterMap.Step E) (fun _ => none) T M)
    (sizes : SmallSizes T) : Remembers E T M := by
  induction run with
  | nil =>
      intro key b found
      cases found
  | snoc before last ih =>
      apply last.remembers
      · exact ih fun key n e mem r mem' => sizes key n e mem r (List.mem_cons_of_mem _ mem')
      · exact sizes

/-- A key stays, and its record with it, as long as it is not deleted. -/
theorem FilterMap.Step.keeps (T : List Event) (step : FilterMap.Step E M ev M')
    (present : M key ≠ none) (kept : ev ≠ (.delete key, 0)) :
    M' key ≠ none ∧ (s ∈ inserted key T → s ∈ inserted key (ev :: T)) := by
  by_cases other : key ≠ ev.1.key
  · rw [step.frame other, inserted_of_ne other]
    exact ⟨present, id⟩
  · cases not_not.mp other
    cases step with
    | addPresent => exact ⟨present, by simp [inserted]⟩
    | addRejected absent | added absent | setAbsent absent | getAbsent absent
    | deleteAbsent absent => exact absurd absent present
    | @set key s c c' found run =>
        rw [Call.key, Function.update_self]
        exact ⟨Option.some_ne_none c', by simp +contextual [inserted]⟩
    | @got key s c r c' found run =>
        rw [Call.key, Function.update_self]
        exact ⟨Option.some_ne_none c', id⟩
    | deleted => exact absurd rfl kept

theorem keeps_of_run {T₁ T₂ : List Event} {M₁ : FilterMap} (run : Run (FilterMap.Step E) M₁ T₂ M)
    (present : M₁ key ≠ none) (recorded : s ∈ inserted key T₁) (kept : (.delete key, 0) ∉ T₂) :
    M key ≠ none ∧ s ∈ inserted key (T₂ ++ T₁) := by
  induction run with
  | nil => exact ⟨present, recorded⟩
  | @snoc l _ _ _ before last ih =>
      obtain ⟨now, still⟩ := ih fun mem => kept (List.mem_cons_of_mem _ mem)
      have keeps := last.keeps (s := s) (l ++ T₁) now fun same => kept (same ▸ List.mem_cons_self)
      exact ⟨keeps.1, keeps.2 still⟩

/-- A get on a filter whose record is known answers by the positions of the record alone. -/
theorem Represents.get_answer {σ : Store} {B : Buckets} {p : Addr} {b : Bloom}
    (rep : Represents σ B) (recorded : Remembers E T σ.contents) (held : σ.Holds key p b)
    (s : CString) :
    ∃ r, CanReturn E σ (.get key s) r ∧ (r = 0 ∨ r = 1) ∧
      (r = 1 ↔ ∀ i < b.rounds, ∃ s' ∈ inserted key T, ∃ j < b.rounds,
        position (E.hash s) b.m i = position (E.hash s') b.m j) := by
  obtain ⟨map, usable, bits⟩ := recorded key b (rep.contents_of_holds held)
  have meaning : Answers (probesOf E b.m b.rounds) (WordBitmap.members map) s ↔
      ∀ i < b.rounds, ∃ s' ∈ inserted key T, ∃ j < b.rounds,
        position (E.hash s) b.m i = position (E.hash s') b.m j := by
    rw [bits, answers_marked_iff]
    constructor
    · intro every i low
      obtain ⟨s', mem, j, high, same⟩ := every _ ⟨i, low, rfl⟩
      exact ⟨s', mem, j, high, same.symm⟩
    · rintro every x ⟨i, low, rfl⟩
      obtain ⟨s', mem, j, high, same⟩ := every i low
      exact ⟨s', mem, j, high, same.symm⟩
  rcases rep.get_cases E key s with ⟨absent, _⟩ | ⟨q, c, other, run⟩
  · exact absurd ⟨p, b, held⟩ absent
  · obtain ⟨rfl, rfl⟩ := rep.holds_unique held other
    rcases bloomGet_spec E usable s with ⟨yes, got⟩ | ⟨no, got⟩
    · refine ⟨1, ⟨_, run.trans (by rw [got]; rfl)⟩, Or.inr rfl, ?_⟩
      exact ⟨fun _ => meaning.mp yes, fun _ => rfl⟩
    · refine ⟨0, ⟨_, run.trans (by rw [got]; rfl)⟩, Or.inl rfl, ?_⟩
      exact ⟨fun zero => absurd zero (by decide), fun all => absurd (meaning.mpr all) no⟩

/-- Exact membership: a get is decided by the set of subkeys inserted since the last addition,
and a subkey once set is found until its filter is deleted. -/
theorem membership_exact {max : UInt64} {heap : List Node} {σ : Store}
    (run : Run (Returns E) (bloomsInit max heap) T σ) (sizes : SmallSizes T) :
    (∀ key s p b, σ.Holds key p b → ∃ r, CanReturn E σ (.get key s) r ∧ (r = 0 ∨ r = 1) ∧
      (r = 1 ↔ ∀ i < b.rounds, ∃ s' ∈ inserted key T, ∃ j < b.rounds,
        position (E.hash s) b.m i = position (E.hash s') b.m j)) ∧
    (∀ key s T₁ T₂, T = T₂ ++ (.set key s, 0) :: T₁ → (.delete key, 0) ∉ T₂ →
      CanReturn E σ (.get key s) 1) := by
  obtain ⟨B, rep⟩ := reachable_represents run
  have sim := refines_run (bloomsInit_represents max heap) run
  rw [contents_bloomsInit] at sim
  have recorded := remembers_of_run sim sizes
  refine ⟨fun key s p b held => rep.get_answer recorded held s, ?_⟩
  rintro key s T₁ T₂ rfl kept
  obtain ⟨M₁, before, after⟩ := sim.split
  obtain ⟨M₀, _, last⟩ := before.of_cons
  have now : M₁ key ≠ none := by
    cases last with
    | set =>
        rw [Function.update_self]
        exact Option.some_ne_none _
  have first : s ∈ inserted key ((.set key s, 0) :: T₁) := by simp [inserted]
  obtain ⟨there, found⟩ := keeps_of_run after now first kept
  obtain ⟨p, b, held⟩ := not_not.mp (mt rep.contents_eq_none_iff.mpr there)
  obtain ⟨r, returns, _, one⟩ := rep.get_answer recorded held s
  have hit : r = 1 := one.mpr fun i low => ⟨s, found, i, low, rfl⟩
  exact hit ▸ returns

/-- A subkey is still found after a filter of the same bucket has been added and set. -/
theorem membership_exact_collision :
    ∃ σ, Run (Returns (serverEnv Libm.oneHalf)) (bloomsInit 1000 [])
      [(.set [98, 65] [121], 0), (.add [98, 65] 16 0.5 ⟨true, true⟩, 0), (.set [97, 98] [120], 0),
        (.add [97, 98] 32 0.5 ⟨true, true⟩, 0)] σ ∧
      CanReturn (serverEnv Libm.oneHalf) σ (.get [97, 98] [120]) 1 := by
  refine Exists.imp (fun σ run => ⟨run, ?_⟩) (exists_run (by decide +kernel))
  refine (membership_exact run ?_).2 [97, 98] [120] _ [_, _] rfl (by decide)
  intro key n e mem r added
  simp only [List.mem_cons, Prod.mk.injEq, reduceCtorEq, false_and, Call.add.injEq,
    List.not_mem_nil, or_false, false_or] at added
  rcases added with ⟨⟨_, rfl, _⟩, _⟩ | ⟨⟨_, rfl, _⟩, _⟩
  · decide
  · decide

end BloomServer
