import BloomServer.DbAccessMap

/-! What `store`, `erase` and `get` make of a table, as steps of its map. -/
namespace BloomServer
open SplitMap

namespace TableSound

variable {t : DbAccessType} {m m' : KeyMap} {f key data fileno : List UInt8} {db' : Db}

/-! ### `store` -/

theorem upToPlace_congr {t' : DbAccessType} {l : List (List UInt8)}
    (same : ∀ f ∈ l, hasPlace (t'.file f) key data = hasPlace (t.file f) key data) :
    t'.upToPlace key data l = t.upToPlace key data l := by
  induction l with
  | nil => rfl
  | cons f l ih =>
      rw [DbAccessType.upToPlace, DbAccessType.upToPlace, same f List.mem_cons_self,
        ih fun g mem => same g (List.mem_cons_of_mem f mem)]

theorem mem_upToPlace (t : DbAccessType) (key data f : List UInt8) (l : List (List UInt8)) :
    f ∈ t.upToPlace key data (f :: l) := by
  rw [DbAccessType.upToPlace]
  split_ifs <;> exact List.mem_cons_self

theorem upToPlace_subset (t : DbAccessType) (key data : List UInt8) (l : List (List UInt8)) :
    t.upToPlace key data l ⊆ l := by
  induction l with
  | nil => exact List.Subset.refl []
  | cons f l ih =>
      rw [DbAccessType.upToPlace]
      split_ifs
      · exact List.cons_subset_cons f (List.nil_subset l)
      · exact List.cons_subset_cons f ih

/-- How the loop over the files comes out. -/
inductive Looped (t : DbAccessType) (m : KeyMap) (key data : List UInt8) (l : List (List UInt8)) :
    Option (Option (ℤ × List UInt8) × DbAccessType) → Prop
  | stored (f : List UInt8) (t' : DbAccessType)
      (sound : TableSound t' (Function.update m key (some data))) :
      Looped t m key data l (some (some (1, f), t'))
  | full (file : List UInt8 → Db) (m' : KeyMap) (lost : Lost m key m')
      (sound : TableSound { t with file } m') (absent : m' key = none)
      (full : ∀ f ∈ l, hasPlace (t.file f) key data = false) :
      Looped t m key data l (some (none, { t with file }))

/-- A record that there is no place for is on its way to the other files. -/
theorem moved (refines : Refines db' (Function.update (t.file f).map key none))
    {l : List (List UInt8)}
    (holders : ∀ g ∈ t.databasesConf, t.holds g key = true → g ∈ f :: t.upToPlace key data l) :
    ∀ g ∈ t.databasesConf,
      DbAccessType.holds { t with file := Function.update t.file f db' } g key = true →
        g ∈ t.upToPlace key data l := by
  intro g there held
  have other : g ≠ f := by
    intro same
    subst same
    rw [DbAccessType.holds] at held
    dsimp only at held
    rw [Function.update_self, refines.map_eq, Function.update_self] at held
    cases held
  rw [DbAccessType.holds] at held
  dsimp only at held
  rw [Function.update_of_ne other] at held
  exact List.mem_of_ne_of_mem other (holders g there held)

theorem storeLoop (s : TableSound t m) (noNul : 0 ∉ key) (limit : data.length ≤ datlenMax)
    {l : List (List UInt8)} (sub : ∀ f ∈ l, f ∈ t.databasesConf) (nodup : l.Nodup)
    (holders : ∀ f ∈ t.databasesConf, t.holds f key = true → f ∈ t.upToPlace key data l)
    (fits : ∀ f ∈ t.upToPlace key data l, PutFits (t.file f) key data) :
    Looped t m key data l (DbAccessType.storeLoop key data fileno l t) := by
  induction l generalizing t m with
  | nil =>
      refine .full t.file m (Or.inl rfl) s ?_ fun f mem => nomatch mem
      apply s.eq_none_of_nowhere
      intro f mem held
      cases holders f mem held
  | cons f l ih =>
      have mem := sub f List.mem_cons_self
      obtain ⟨off, nodup⟩ := List.nodup_cons.mp nodup
      have out := (s.maps f mem).put noNul (fits f (mem_upToPlace t key data f l))
      unfold DbAccessType.storeLoop DbAccessType.onFile
      simp only [s.usable mem, Option.bind_eq_bind, Option.bind_some, if_true]
      rw [DbAccessType.upToPlace] at holders fits
      generalize dbPut (t.file f) key data = result at out
      cases out with
      | tooLong long => exact absurd limit (Nat.not_le.mpr long)
      | placed _ place db' refines =>
          rw [if_pos place] at holders
          exact .stored f _ (s.write mem refines fun g there held =>
            List.mem_singleton.mp (holders g there held))
      | full _ full db' refines _ =>
          rw [full, if_neg (by decide)] at holders fits
          obtain ⟨m₁, lost, sound⟩ := s.drop mem refines
          have there : ∀ g ∈ l, Function.update t.file f db' g = t.file g := fun g mem' =>
            Function.update_of_ne (ne_of_mem_of_not_mem mem' off) _ _
          have path : DbAccessType.upToPlace { t with file := Function.update t.file f db' } key data
              l = t.upToPlace key data l :=
            upToPlace_congr fun g mem' => by dsimp only; rw [there g mem']
          have rest := ih sound (fun g mem' => sub g (List.mem_cons_of_mem f mem')) nodup
            (path.symm ▸ moved refines holders) ?_
          · change Looped t m key data (f :: l) (DbAccessType.storeLoop key data fileno l
              { t with file := Function.update t.file f db' })
            generalize DbAccessType.storeLoop key data fileno l _ = result at rest
            cases rest with
            | stored g t' sound' => exact .stored g t' (lost.put data ▸ sound')
            | full file m' lost' sound' absent none =>
                refine .full file m' (lost.trans lost') sound' absent ?_
                intro g mem'
                rcases List.mem_cons.mp mem' with rfl | later
                · exact full
                · rw [← there g later]
                  exact none g later
          · rw [path]
            intro g mem'
            dsimp only
            rw [there g (upToPlace_subset t key data l mem')]
            exact fits g (List.mem_cons_of_mem f mem')

theorem openNewDb (s : TableSound t m) (room : t.dbs.entries.length ≤ topDatabases) :
    ∃ f t', t.openNewDb = some (f, t') ∧ TableSound t' m ∧ f ∈ t'.databasesConf ∧
      t'.file f = Db.fresh := by
  have absent := s.new_fileno
  have grown : ∀ g, g ∈ DbAccessType.insertConf t.databasesConf (t.filenoOf t.countOfDatabase) ↔
      g = t.filenoOf t.countOfDatabase ∨ g ∈ t.databasesConf := fun g => DbAccessType.mem_insertConf
  refine ⟨t.filenoOf t.countOfDatabase,
    { t with
      countOfDatabase := t.countOfDatabase + 1
      databasesConf := DbAccessType.insertConf t.databasesConf (t.filenoOf t.countOfDatabase)
      dbs := t.dbs.insert (t.filenoOf t.countOfDatabase) true
      file := Function.update t.file (t.filenoOf t.countOfDatabase) Db.fresh }, ?_, ?_,
    (grown _).mpr (Or.inl rfl), Function.update_self ..⟩
  · unfold DbAccessType.openNewDb DbAccessType._open
    dsimp only
    rw [if_neg (Nat.not_lt.mpr room)]
    rfl
  · have there : ∀ g ∈ t.databasesConf,
        Function.update t.file (t.filenoOf t.countOfDatabase) Db.fresh g = t.file g := fun g mem =>
      Function.update_of_ne (ne_of_mem_of_not_mem mem absent) _ _
    constructor
    · exact DbAccessType.nodup_insertConf s.nodup
    · intro f mem
      rcases (grown f).mp mem with rfl | old
      · exact ⟨_, Nat.lt_succ_self _, rfl⟩
      · obtain ⟨n, below, same⟩ := s.named f old
        exact ⟨n, Nat.lt_succ_of_lt below, same⟩
    · intro f
      dsimp only
      rw [grown f]
      by_cases same : f = t.filenoOf t.countOfDatabase
      · rw [same, AList.lookup_insert]
        exact iff_of_true rfl (Or.inl rfl)
      · rw [AList.lookup_insert_ne same, s.opened f]
        exact (or_iff_right same).symm
    · intro f mem
      rcases (grown f).mp mem with rfl | old
      · dsimp only
        rw [Function.update_self, Refines.fresh.map_eq]
        exact Refines.fresh
      · dsimp only
        rw [there f old]
        exact s.maps f old
    · apply Split.insert (f := t.filenoOf t.countOfDatabase) _ grown
      · dsimp only
        rw [Function.comp_apply, Function.update_self, Refines.fresh.map_eq]
      · apply s.split.congr
        intro f mem
        dsimp only [Function.comp_apply]
        rw [there f mem]

/-- How a store that comes to all files comes out. -/
inductive Anywhere (m : KeyMap) (key data : List UInt8) :
    Option (ℤ × List UInt8 × DbAccessType) → Prop
  | stored (fileno : List UInt8) (t' : DbAccessType)
      (sound : TableSound t' (Function.update m key (some data))) :
      Anywhere m key data (some (1, fileno, t'))
  | failed (fileno : List UInt8) (t' : DbAccessType) (m' : KeyMap) (lost : Lost m key m')
      (sound : TableSound t' m') : Anywhere m key data (some (2, fileno, t'))

theorem storeNew (s : TableSound t m) (noNul : 0 ∉ key)
    (room : t.dbs.entries.length ≤ topDatabases) (fits : PutFits Db.fresh key data)
    (absent : data.length ≤ datlenMax → m key = none) :
    Anywhere m key data (t.storeNew key data) := by
  obtain ⟨f, t₁, opened, s₁, mem, new⟩ := s.openNewDb room
  have out := (s₁.maps f mem).put noNul (new ▸ fits)
  unfold DbAccessType.storeNew DbAccessType.onFile
  simp only [opened, Option.bind_eq_bind, Option.bind_some]
  generalize dbPut (t₁.file f) key data = result at out
  cases out with
  | tooLong long =>
      apply Anywhere.failed f _ m (Or.inl rfl)
      dsimp only
      rw [Function.update_eq_self]
      exact s₁
  | full _ full db' refines _ =>
      obtain ⟨m', lost, sound⟩ := s₁.drop mem refines
      exact .failed f _ m' lost sound
  | placed limit place db' refines =>
      apply Anywhere.stored f _ (s₁.write mem refines _)
      intro g there held
      have none := absent limit
      rw [s₁.eq_of_holds there held] at none
      rw [DbAccessType.holds, none] at held
      cases held

theorem Anywhere.of_lost (lost : Lost m key m') {out : Option (ℤ × List UInt8 × DbAccessType)}
    (h : Anywhere m' key data out) : Anywhere m key data out := by
  cases h with
  | stored fileno t' sound => exact .stored fileno t' (lost.put data ▸ sound)
  | failed fileno t' m₂ lost' sound => exact .failed fileno t' m₂ (lost.trans lost') sound

/-- No file holds data that is too long. -/
theorem storeAnywhere_long (s : TableSound t m) (noNul : 0 ∉ key)
    (long : datlenMax < data.length)
    (opens : t.databasesConf = [] → t.dbs.entries.length ≤ topDatabases) :
    Anywhere m key data (t.storeAnywhere key data fileno) := by
  have beyond : ¬ data.length ≤ datlenMax := Nat.not_le.mpr long
  unfold DbAccessType.storeAnywhere
  cases conf : t.databasesConf with
  | nil => exact s.storeNew noNul (opens conf) (fun limit => absurd limit beyond) fun limit =>
      absurd limit beyond
  | cons f l =>
      have mem : f ∈ t.databasesConf := by
        rw [conf]
        exact List.mem_cons_self
      have fits : PutFits (t.file f) key data := fun limit => absurd limit beyond
      have out := (s.maps f mem).put noNul fits
      unfold DbAccessType.storeLoop DbAccessType.onFile
      simp only [s.usable mem, Option.bind_eq_bind, Option.bind_some, if_true]
      generalize dbPut (t.file f) key data = result at out
      cases out with
      | placed limit _ _ _ => exact absurd limit beyond
      | full limit _ _ _ _ => exact absurd limit beyond
      | tooLong _ =>
          apply Anywhere.failed fileno _ m (Or.inl rfl)
          dsimp only
          rw [Function.update_eq_self]
          exact s

theorem storeAnywhere (s : TableSound t m) (noNul : 0 ∉ key) (limit : data.length ≤ datlenMax)
    (holders : ∀ f ∈ t.databasesConf, t.holds f key = true →
      f ∈ t.upToPlace key data t.databasesConf)
    (fits : ∀ f ∈ t.upToPlace key data t.databasesConf, PutFits (t.file f) key data)
    (opens : (∀ f ∈ t.databasesConf, hasPlace (t.file f) key data = false) →
      t.dbs.entries.length ≤ topDatabases ∧ PutFits Db.fresh key data) :
    Anywhere m key data (t.storeAnywhere key data fileno) := by
  have out : Looped t m key data t.databasesConf
      (DbAccessType.storeLoop key data fileno t.databasesConf t) :=
    s.storeLoop noNul limit (fun _ mem => mem) s.nodup holders fits
  unfold DbAccessType.storeAnywhere
  generalize DbAccessType.storeLoop key data fileno t.databasesConf t = result at out
  cases out with
  | stored f t' sound => exact .stored f t' sound
  | full file m' lost sound absent full =>
      obtain ⟨room, fit⟩ := opens full
      exact (sound.storeNew noNul room fit fun _ => absent).of_lost lost

/-- What is stored in the file asked for. -/
theorem storeHinted (s : TableSound t m) (mem : fileno ∈ t.databasesConf) (noNul : 0 ∉ key)
    (limit : data.length ≤ datlenMax)
    (holders : ∀ f ∈ t.databasesConf, t.holds f key = true →
      f ∈ t.upToPlace key data (fileno :: t.databasesConf))
    (fits : ∀ f ∈ t.upToPlace key data (fileno :: t.databasesConf), PutFits (t.file f) key data)
    (opens : (∀ f ∈ t.databasesConf, hasPlace (t.file f) key data = false) →
      t.dbs.entries.length ≤ topDatabases ∧ PutFits Db.fresh key data) :
    (∃ t', (t.onFile fileno fun db => dbPutHinted db key data) = some (0, t') ∧
        TableSound t' (Function.update m key (some data))) ∨
      ∃ t', (t.onFile fileno fun db => dbPutHinted db key data) = some (2, t') ∧
        Anywhere m key data (t'.storeAnywhere key data fileno) := by
  have refines := s.maps fileno mem
  have fit := fits fileno (mem_upToPlace t key data fileno t.databasesConf)
  have out := refines.put noNul fit
  rw [← refines.putHinted noNul fit] at out
  rw [DbAccessType.upToPlace] at holders fits
  unfold DbAccessType.onFile
  dsimp only
  generalize dbPutHinted (t.file fileno) key data = result at out
  cases out with
  | tooLong long => exact absurd limit (Nat.not_le.mpr long)
  | placed _ place db' refines' =>
      rw [if_pos place] at holders
      exact Or.inl ⟨_, rfl, s.write mem refines' fun g there held =>
        List.mem_singleton.mp (holders g there held)⟩
  | full _ full db' refines' again =>
      rw [full, if_neg (by decide)] at holders fits
      obtain ⟨m₁, lost, sound⟩ := s.drop mem refines'
      have place : ∀ g, hasPlace (Function.update t.file fileno db' g) key data =
          hasPlace (t.file g) key data := by
        intro g
        by_cases same : g = fileno
        · rw [same, Function.update_self, full, again]
        · rw [Function.update_of_ne same]
      have path : DbAccessType.upToPlace { t with file := Function.update t.file fileno db' } key
          data t.databasesConf = t.upToPlace key data t.databasesConf :=
        upToPlace_congr fun g _ => place g
      refine Or.inr ⟨_, rfl, (sound.storeAnywhere noNul limit ?_ ?_ ?_).of_lost lost⟩
      · exact path.symm ▸ moved refines' holders
      · rw [path]
        intro g there
        by_cases same : g = fileno
        · subst same
          intro _ has
          dsimp only at has
          rw [Function.update_self, again] at has
          cases has
        · dsimp only
          rw [Function.update_of_ne same]
          exact fits g (List.mem_cons_of_mem fileno there)
      · intro none
        exact opens fun f there => (place f).symm.trans (none f there)

theorem Anywhere.onTable {out : Option (ℤ × List UInt8 × DbAccessType)}
    (h : Anywhere m key data out) : ∃ rc f t' m', out = some (rc, f, t') ∧
      OnTable m ⟨.store key data fileno, .code rc⟩ m' ∧ TableSound t' m' := by
  cases h with
  | stored f t' sound => exact ⟨1, f, t', _, rfl, .stored (Or.inr rfl), sound⟩
  | failed f t' m' lost sound =>
      rcases lost with rfl | rfl
      · exact ⟨2, f, t', _, rfl, .failed (Or.inl rfl), sound⟩
      · exact ⟨2, f, t', _, rfl, .lost, sound⟩

theorem store (s : TableSound t m) (clear : key ≠ [] → t.StoreClear key data fileno) :
    ∃ rc f t' m', t.store key data fileno = some (rc, f, t') ∧
      OnTable m ⟨.store key data fileno, .code rc⟩ m' ∧ TableSound t' m' := by
  by_cases empty : key = []
  · exact ⟨3, fileno, t, m, if_pos empty, .failed (Or.inr rfl), s⟩
  · obtain ⟨noNul, limit, holders, fits, opens⟩ := clear empty
    have s' := s.seen fileno
    have conf : (t.seen fileno).databasesConf = t.databasesConf := t.seen_databasesConf fileno
    have file : (t.seen fileno).file = t.file := t.seen_file fileno
    have path : ∀ l, (t.seen fileno).upToPlace key data l = t.upToPlace key data l := fun l =>
      upToPlace_congr fun g _ => by rw [file]
    unfold DbAccessType.comesTo at holders fits
    unfold DbAccessType.CanOpen at opens
    unfold DbAccessType.store
    simp only [if_neg empty, s.hinted fileno, Option.bind_eq_bind, Option.bind_some]
    by_cases mem : fileno ∈ t.databasesConf
    · have asked : t.Has fileno := mem
      rw [if_pos asked] at holders fits
      have within := limit asked
      rcases s'.storeHinted (conf.symm ▸ mem) noNul within
          (by rw [path, conf]; unfold DbAccessType.holds; rw [file]; exact holders within)
          (by rw [path, conf, file]; exact fits)
          (by rw [conf, file]; exact fun full => opens fun f there => ⟨within, full f there⟩)
        with ⟨t', stored, sound⟩ | ⟨t', full, out⟩
      · refine ⟨0, fileno, t', _, ?_, .stored (Or.inl rfl), sound⟩
        simp only [decide_eq_true mem, if_true, stored, Option.bind_some]
        exact if_pos (by decide)
      · simp only [decide_eq_true mem, if_true, full, Option.bind_some]
        exact out.onTable
    · have unasked : ¬ t.Has fileno := mem
      rw [if_neg unasked] at holders fits
      simp only [decide_eq_false mem, Bool.false_eq_true, if_false]
      apply Anywhere.onTable
      by_cases long : datlenMax < data.length
      · apply s'.storeAnywhere_long noNul long
        rw [conf]
        intro none
        exact (opens fun f there => nomatch none ▸ there).1
      · have within := Nat.le_of_not_lt long
        apply s'.storeAnywhere noNul within
        · rw [path, conf]
          unfold DbAccessType.holds
          rw [file]
          exact holders within
        · rw [path, conf, file]
          exact fits
        · rw [conf, file]
          exact fun full => opens fun f there => ⟨within, full f there⟩

/-! ### `erase` and `get` -/

/-- A deletion in the file that holds the key, if one does. -/
theorem eraseIn (s : TableSound t m) (mem : f ∈ t.databasesConf)
    (clear : ∀ g ∈ t.databasesConf, t.holds g key = true → g = f) :
    ∃ rc t' m', (t.onFile f fun db => dbDelete db key) = some (rc, t') ∧
      OnTable m ⟨.erase key fileno, .code rc⟩ m' ∧ TableSound t' m' := by
  obtain ⟨db', deleted, refines⟩ := (s.maps f mem).erase key
  have sound := s.write mem refines clear
  have answer : (t.onFile f fun db => dbDelete db key) =
      some (if t.holds f key = true then 0 else -1,
        { t with file := Function.update t.file f db' }) := by
    unfold DbAccessType.onFile
    dsimp only
    rw [deleted]
    rfl
  by_cases held : t.holds f key = true
  · rw [if_pos held] at answer
    exact ⟨0, _, _, answer, .erased (s.isSome_iff_holds.mpr ⟨f, mem, held⟩), sound⟩
  · have none : m key = none := by
      apply s.eq_none_of_nowhere
      intro g there held'
      rw [clear g there held'] at held'
      exact held held'
    rw [if_neg held] at answer
    refine ⟨-1, _, m, answer, .unfound (Or.inr rfl) none, ?_⟩
    rwa [← none, Function.update_eq_self] at sound

theorem looked (s : TableSound t m) (fileno : List UInt8) :
    (if fileno = [] then (false, t) else t.index fileno) =
      (decide (fileno ∈ t.databasesConf), t.seen fileno) := by
  unfold DbAccessType.seen
  split_ifs with nil
  · rw [nil, decide_eq_false s.nil_not_mem]
  · rw [← (s.index fileno).1]

theorem erase (s : TableSound t m) (clear : t.EraseClear key fileno) :
    ∃ rc t' m', t.erase key fileno = some (rc, t') ∧
      OnTable m ⟨.erase key fileno, .code rc⟩ m' ∧ TableSound t' m' := by
  have s' := s.seen fileno
  have conf : (t.seen fileno).databasesConf = t.databasesConf := t.seen_databasesConf fileno
  have file : (t.seen fileno).file = t.file := t.seen_file fileno
  have clear' : ∀ f, (∀ g ∈ t.databasesConf, t.holds g key = true → g = f) →
      ∀ g ∈ (t.seen fileno).databasesConf, (t.seen fileno).holds g key = true → g = f := by
    intro f only
    rw [conf]
    unfold DbAccessType.holds
    rw [file]
    exact only
  unfold DbAccessType.erase
  rw [s.looked fileno]
  by_cases mem : fileno ∈ t.databasesConf
  · simp only [decide_eq_true mem, if_true]
    apply s'.eraseIn (conf.symm ▸ mem)
    apply clear'
    intro g there held
    have only := clear g there held
    have asked : t.Has fileno := mem
    rwa [if_pos asked] at only
  · simp only [decide_eq_false mem, Bool.false_eq_true, if_false]
    cases files : (t.seen fileno).databasesConf with
    | nil =>
        refine ⟨1, _, m, rfl, .unfound (Or.inl rfl) ?_, s'⟩
        apply s'.eq_none_of_nowhere
        intro f there
        rw [files] at there
        cases there
    | cons f l =>
        have mem' : f ∈ (t.seen fileno).databasesConf := by
          rw [files]
          exact List.mem_cons_self
        unfold DbAccessType.eraseLoop
        simp only [s'.usable mem', Option.bind_eq_bind, Option.bind_some, if_true]
        apply s'.eraseIn mem'
        apply clear'
        intro g there held
        have only := clear g there held
        have unasked : ¬ t.Has fileno := mem
        rw [if_neg unasked, ← conf, files] at only
        exact (Option.some.inj only).symm

theorem getLoop (s : TableSound t m) {l : List (List UInt8)} (sub : ∀ f ∈ l, f ∈ t.databasesConf)
    (rest : ∀ f ∈ t.databasesConf, t.holds f key = true → f ∈ l) :
    ∃ f, DbAccessType.getLoop key fileno l t = some (m key, f, t) := by
  induction l with
  | nil =>
      have none : m key = none := by
        apply s.eq_none_of_nowhere
        intro f mem held
        cases rest f mem held
      rw [none]
      exact ⟨fileno, rfl⟩
  | cons f l ih =>
      have mem := sub f List.mem_cons_self
      unfold DbAccessType.getLoop
      simp only [s.usable mem, (s.maps f mem).fetch key, Option.bind_eq_bind, Option.bind_some,
        if_true]
      by_cases held : t.holds f key = true
      · refine ⟨f, ?_⟩
        rw [s.eq_of_holds mem held]
        exact if_pos held
      · obtain ⟨g, found⟩ := ih (fun g mem' => sub g (List.mem_cons_of_mem f mem')) (by
          intro g there held'
          rcases List.mem_cons.mp (rest g there held') with rfl | later
          · exact absurd held' held
          · exact later)
        refine ⟨g, ?_⟩
        rw [← found]
        exact if_neg held

theorem getByPos (s : TableSound t m) (key fileno : List UInt8) :
    ∃ dbs r, t.getByPos key fileno = some (r, { t with dbs }) ∧ TableSound { t with dbs } m ∧
      (r.isSome = true → r = m key) := by
  obtain ⟨dbs, frame⟩ := t.index_frame fileno
  obtain ⟨handle, s'⟩ := s.index fileno
  rw [frame] at s'
  unfold DbAccessType.getByPos
  by_cases mem : fileno ∈ t.databasesConf
  · have fetched := (s.maps fileno mem).fetch key
    rw [decide_eq_true mem] at handle
    refine ⟨dbs, (t.file fileno).map key, ?_, s', ?_⟩
    · simp only [handle, frame, not_true_eq_false, and_false, if_false, if_true,
        Option.bind_eq_bind, Option.bind_some, fetched]
      rfl
    · intro held
      exact (s.eq_of_holds mem held).symm
  · have absent : DbAccessType.openExistDb { t with dbs } fileno = some (false, { t with dbs }) :=
      if_neg mem
    rw [decide_eq_false mem] at handle
    refine ⟨dbs, none, ?_, s', fun held => nomatch held⟩
    simp only [handle, frame, absent, ite_self, Option.bind_eq_bind, Option.bind_some,
      Bool.false_eq_true, if_false]
    rfl

theorem get (s : TableSound t m) (key fileno : List UInt8) (pos : Bool) :
    ∃ f t', t.get fileno key pos = some (m key, f, t') ∧ TableSound t' m := by
  have all : ∀ {t'}, TableSound t' m →
      ∃ f, DbAccessType.getLoop key fileno t'.databasesConf t' = some (m key, f, t') := fun s' =>
    s'.getLoop (fun _ mem => mem) fun _ mem _ => mem
  unfold DbAccessType.get
  by_cases asked : fileno ≠ [] ∧ pos
  · obtain ⟨dbs, r, found, s', right⟩ := s.getByPos key fileno
    simp only [if_pos asked, found, Option.bind_eq_bind, Option.bind_some]
    by_cases held : r.isSome = true
    · refine ⟨fileno, _, ?_, s'⟩
      rw [if_pos held, right held]
      rfl
    · obtain ⟨f, loop⟩ := all s'
      refine ⟨f, _, ?_, s'⟩
      rw [if_neg held]
      exact loop
  · obtain ⟨f, loop⟩ := all s
    simp only [if_neg asked, Option.bind_eq_bind, Option.bind_some, Option.isSome_none,
      Bool.false_eq_true, if_false]
    exact ⟨f, t, loop, s⟩

/-! ### Runs -/

/-- A call answers as the map does, and leaves a table that is again the map. -/
theorem call (s : TableSound t m) (call : TableCall) (clear : t.Clear call) :
    ∃ answer t' m', call.run t = some (answer, t') ∧ OnTable m ⟨call, answer⟩ m' ∧
      TableSound t' m' := by
  cases call with
  | store key data fileno =>
      obtain ⟨rc, f, t', m', stored, maps, sound⟩ := s.store clear
      refine ⟨.code rc, t', m', ?_, maps, sound⟩
      rw [TableCall.run, stored]
      rfl
  | erase key fileno =>
      obtain ⟨rc, t', m', erased, maps, sound⟩ := s.erase clear
      refine ⟨.code rc, t', m', ?_, maps, sound⟩
      rw [TableCall.run, erased]
      rfl
  | get key fileno pos =>
      obtain ⟨f, t', got, sound⟩ := s.get key fileno pos
      refine ⟨.data (m key), t', m, ?_, .got, sound⟩
      rw [TableCall.run, got]
      rfl

/-- A step of the table is a step of the map. -/
theorem step {t' : DbAccessType} {ev : TableEvent} (s : TableSound t m) (clear : t.Clear ev.call)
    (step : TableStep t ev t') : ∃ m', OnTable m ev m' ∧ TableSound t' m' := by
  obtain ⟨answer, t₁, m', ran, maps, sound⟩ := s.call ev.call clear
  rw [step] at ran
  cases ran
  exact ⟨m', maps, sound⟩

theorem gets (s : TableSound t m) (key : List UInt8) : t.Gets key (m key) := by
  intro fileno pos
  obtain ⟨f, t', got, _⟩ := s.get key fileno pos
  exact ⟨f, t', got⟩

theorem gets_iff (s : TableSound t m) {found : Option (List UInt8)} :
    t.Gets key found ↔ m key = found := by
  constructor
  · intro gets
    obtain ⟨_, _, got⟩ := gets [] false
    obtain ⟨_, _, got'⟩ := s.gets key [] false
    rw [got'] at got
    cases got
    rfl
  · rintro rfl
    exact s.gets key

end TableSound

end BloomServer
