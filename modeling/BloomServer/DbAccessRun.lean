import BloomServer.DbAccessCalls

/-! Runs of a table: the calls that keep it a map, and two that do not. -/
namespace BloomServer
open LabelledRun

/-! ### What goes wrong otherwise -/

namespace TableSound

variable {t : DbAccessType} {m : KeyMap} {f g key data fileno : List UInt8}

/-- `store` returns success for data that is too long for the file asked for. -/
theorem store_tooLong (s : TableSound t m) (mem : fileno ∈ t.databasesConf)
    (long : datlenMax < data.length) (some : key ≠ []) :
    ∃ t', t.store key data fileno = Option.some (0, fileno, t') ∧ TableSound t' m := by
  have answer : dbPutHinted ((t.seen fileno).file fileno) key data =
      Option.some (3, (t.seen fileno).file fileno) := by
    rw [dbPutHinted, dbStore, if_pos long]
    rfl
  refine ⟨t.seen fileno, ?_, s.seen fileno⟩
  unfold DbAccessType.store DbAccessType.onFile
  simp only [if_neg some, s.hinted fileno, decide_eq_true mem, if_true, answer,
    Option.bind_eq_bind, Option.bind_some, Option.map_some, Function.update_eq_self]
  exact if_pos (by decide)

/-- `erase` does not go on to the file that holds the key. -/
theorem erase_first (s : TableSound t m) {l : List (List UInt8)}
    (files : t.databasesConf = f :: l) (mem : g ∈ l) (held : t.holds g key = true) :
    (m key).isSome = true ∧ ∃ t', t.erase key [] = some (-1, t') ∧ TableSound t' m := by
  have first : f ∈ t.databasesConf := by
    rw [files]
    exact List.mem_cons_self
  have there : g ∈ t.databasesConf := by
    rw [files]
    exact List.mem_cons_of_mem f mem
  have absent : ¬ t.holds f key = true := by
    intro held'
    have nodup := s.nodup
    rw [files, List.nodup_cons, s.split.single f first g there key held' held] at nodup
    exact nodup.1 mem
  have none : (t.file f).map key = none := Option.not_isSome_iff_eq_none.mp absent
  refine ⟨s.isSome_iff_holds.mpr ⟨g, there, held⟩, t, ?_, s⟩
  unfold DbAccessType.erase
  rw [if_pos rfl]
  simp only [Bool.false_eq_true, if_false, files]
  unfold DbAccessType.eraseLoop DbAccessType.onFile
  simp only [s.usable first, Option.bind_eq_bind, Option.bind_some, if_true,
    (s.maps f first).unfound none, Option.map_some, Function.update_eq_self]

end TableSound

/-- A run of the table is a run of the map. -/
theorem table_run {filename : List UInt8} {T : List TableEvent} {t : DbAccessType}
    (run : Run (Guarded DbAccessType.Cleared TableStep) (DbAccessType.fresh filename) T t) :
    ∃ m, Run OnTable (fun _ => none) T m ∧ TableSound t m := by
  apply run.history (I := fun T t => ∃ m, Run OnTable (fun _ => none) T m ∧ TableSound t m)
  · exact ⟨_, .nil, TableSound.fresh filename⟩
  · rintro T t ev t' ⟨m, maps, sound⟩ ⟨clear, step⟩
    obtain ⟨m', last, sound'⟩ := sound.step clear step
    exact ⟨m', .snoc maps last, sound'⟩

/-- What it means for a table to be a map, after a history and in the next step. -/
structure TableIsMap (R : DbAccessType → TableEvent → DbAccessType → Prop) (T : List TableEvent)
    (t : DbAccessType) : Prop where
  stored : ∀ later earlier key data fileno rc,
    T = later ++ ⟨.store key data fileno, .code rc⟩ :: earlier → (rc = 0 ∨ rc = 1) →
      (∀ ev ∈ later, ¬ ev.call.Writes key) → t.Gets key (some data)
  erased : ∀ later earlier key fileno, T = later ++ ⟨.erase key fileno, .code 0⟩ :: earlier →
    (∀ ev ∈ later, ¬ ev.call.Stores key) → t.Gets key none
  finds : ∀ key fileno rc t', R t ⟨.erase key fileno, .code rc⟩ t' →
    (rc = 0 ↔ ∃ data, t.Gets key (some data))
  frame : ∀ ev t', R t ev t' → ∀ key found, ¬ ev.call.Writes key → t.Gets key found →
    t'.Gets key found

/-- As long as each call comes to the file that holds its key, a table over any number of files is
a map, and its calls return. -/
theorem table_is_map {filename : List UInt8} {T : List TableEvent} {t : DbAccessType}
    (run : Run (Guarded DbAccessType.Cleared TableStep) (DbAccessType.fresh filename) T t) :
    TableIsMap (Guarded DbAccessType.Cleared TableStep) T t ∧
      ∀ call, t.Clear call → ∃ answer t', TableStep t ⟨call, answer⟩ t' := by
  obtain ⟨m, maps, sound⟩ := table_run run
  refine ⟨⟨?_, ?_, ?_, ?_⟩, ?_⟩
  · rintro later earlier key data fileno rc rfl success others
    obtain ⟨m₁, before, after⟩ := maps.split
    obtain ⟨m₀, _, last⟩ := before.of_cons
    rw [sound.gets_iff, OnTable.run_frame after others]
    cases last with
    | stored _ => exact Function.update_self ..
    | failed failure => omega
    | lost => omega
  · rintro later earlier key fileno rfl others
    obtain ⟨m₁, before, after⟩ := maps.split
    obtain ⟨m₀, _, last⟩ := before.of_cons
    rw [sound.gets_iff]
    apply OnTable.run_absent after others
    cases last with
    | erased _ => exact Function.update_self ..
    | unfound failure _ => omega
  · rintro key fileno rc t' ⟨clear, step⟩
    obtain ⟨m', last, _⟩ := sound.step clear step
    simp only [sound.gets_iff]
    rw [← Option.isSome_iff_exists]
    cases last with
    | erased held => exact iff_of_true rfl held
    | unfound failure absent =>
        rw [absent]
        exact iff_of_false (by omega) (by decide)
  · rintro ev t' ⟨clear, step⟩ key found other gets
    obtain ⟨m', last, sound'⟩ := sound.step clear step
    rw [sound.gets_iff] at gets
    rw [sound'.gets_iff, last.frame other, gets]
  · intro call clear
    obtain ⟨answer, t', _, ran, _⟩ := sound.call call clear
    exact ⟨answer, t', ran⟩

def DbAccessType.take (t : DbAccessType) (ev : TableEvent) : Option DbAccessType :=
  (ev.call.run t).bind fun p => if p.1 = ev.answer then some p.2 else none

theorem DbAccessType.take_sound (t : DbAccessType) (ev : TableEvent) (t' : DbAccessType)
    (taken : t.take ev = some t') : TableStep t ev t' := by
  obtain ⟨p, ran, same⟩ := Option.bind_eq_some_iff.mp taken
  split_ifs at same with answer
  cases same
  rw [TableStep, ran, ← answer]

/-- `0/t.0`, the first file of the table `t`. -/
def firstFileno : List UInt8 := [48, 47, 116, 46, 48]

/-- A record is stored, replaced where it is, and deleted again. -/
def storedOnce : List TableEvent :=
  [⟨.erase [97] firstFileno, .code 0⟩, ⟨.store [97] [2, 2] firstFileno, .code 0⟩,
    ⟨.store [98] [3] [], .code 1⟩, ⟨.store [97] [1] [], .code 1⟩]

theorem table_is_map_once : ∃ t,
    Run (Guarded DbAccessType.Cleared TableStep) (DbAccessType.fresh [116]) storedOnce t ∧
      t.Gets [97] none ∧ t.Gets [98] (some [3]) := by
  have ends : (reach (fun t ev => if t.Clear ev.call then t.take ev else none)
      (DbAccessType.fresh [116]) storedOnce).isSome = true := by decide +kernel
  obtain ⟨t, ends⟩ := Option.isSome_iff_exists.mp ends
  have run : Run (Guarded DbAccessType.Cleared TableStep) (DbAccessType.fresh [116]) storedOnce
      t := by
    apply run_of_reach _ ends
    intro t ev t' h
    split_ifs at h with clear
    exact ⟨clear, t.take_sound ev t' h⟩
  obtain ⟨maps, _⟩ := table_is_map run
  refine ⟨t, run, maps.erased [] _ [97] firstFileno rfl (fun ev mem => nomatch mem),
    maps.stored (storedOnce.take 2) (storedOnce.drop 3) [98] [3] [] 1 rfl (Or.inr rfl) ?_⟩
  intro ev mem same
  rcases List.mem_cons.mp mem with rfl | mem
  · cases same
  · rcases List.mem_cons.mp mem with rfl | mem
    · cases same
    · cases mem

theorem store_step {t t' : DbAccessType} {key data fileno f : List UInt8} {rc : ℤ}
    (stored : t.store key data fileno = some (rc, f, t')) :
    TableStep t ⟨.store key data fileno, .code rc⟩ t' := by
  change (t.store key data fileno).map _ = _
  rw [stored]
  rfl

/-- Data that is too long is stored in the first file. -/
theorem table_is_not_map : ¬ ∀ (filename : List UInt8) (T : List TableEvent) (t : DbAccessType),
    Run TableStep (DbAccessType.fresh filename) T t → TableIsMap TableStep T t := by
  intro claim
  have clear : (DbAccessType.fresh [116]).Cleared ⟨.store [97] [1] [], .code 1⟩ := by
    unfold DbAccessType.Cleared
    decide +kernel
  have opens : ((DbAccessType.fresh [116]).take ⟨.store [97] [1] [], .code 1⟩).map
      DbAccessType.databasesConf = some [firstFileno] := by decide +kernel
  obtain ⟨t₁, taken, conf⟩ := Option.map_eq_some_iff.mp opens
  have step := DbAccessType.take_sound _ _ t₁ taken
  obtain ⟨m₁, first, sound⟩ := (TableSound.fresh [116]).step clear step
  have absent : m₁ [98] = none := first.stays_absent (by intro same; cases same) rfl
  obtain ⟨data, long⟩ : ∃ data : List UInt8, datlenMax < data.length := by
    refine ⟨List.replicate (datlenMax + 1) 0, ?_⟩
    rw [List.length_replicate]
    exact Nat.lt_succ_self datlenMax
  have mem : firstFileno ∈ t₁.databasesConf := by
    rw [conf]
    exact List.mem_cons_self
  have nonempty : ([98] : List UInt8) ≠ [] := by decide
  obtain ⟨t₂, stored, sound'⟩ := sound.store_tooLong mem long nonempty
  have last := store_step stored
  have maps := claim [116] _ t₂ (.snoc (.single step) last)
  have found := maps.stored [] _ [98] _ firstFileno 0 rfl (Or.inl rfl) fun ev mem => nomatch mem
  rw [sound'.gets_iff, absent] at found
  cases found

end BloomServer
