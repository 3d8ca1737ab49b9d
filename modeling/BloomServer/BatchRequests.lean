import BloomServer.Membership

/-! `ServHandler::fill` and `ServHandler::get`: the requests on lists of urls, as the folds
of `blooms_set` and `blooms_get` over the list. -/
namespace BloomServer
open LabelledRun

/-- The bytes of a `std::string`. They may contain NUL. -/
abbrev StdString := List UInt8

def StdString.cStr (s : StdString) : CString := s.takeWhile (· != 0)

/-- The thrift struct `element`. -/
structure Element where
  isExist : Int16
  url : StdString
  deriving DecidableEq

namespace ServHandler

/-- The loop over `vector_url`. Each branch pushes the value it tests for, so a value
outside `branches` adds nothing to the answer. -/
def answerLoop (single : CString → Store → Except Stop (Int × Store)) (branches : List Int16) :
    List Element → List Element → Store → Except Stop (List Element × Store)
  | [], answer, σ => .ok (answer, σ)
  | x :: rest, answer, σ => do
      let (result, σ) ← single x.url.cStr σ
      let ret := Int16.ofInt result
      if ret ∈ branches then answerLoop single branches rest (answer ++ [⟨ret, x.url⟩]) σ
      else answerLoop single branches rest answer σ

def fill (E : Env) (key : StdString) (urls : List Element) (σ : Store) :
    Except Stop (List Element × Store) :=
  answerLoop (bloomsSet E key.cStr) [0, 1] urls [] σ

def get (E : Env) (key : StdString) (urls : List Element) (σ : Store) :
    Except Stop (List Element × Store) :=
  answerLoop (bloomsGet E key.cStr) [1, 0, -1] urls [] σ

/-- One single call after the other, each with an answer that carries its url and its value. -/
inductive Folded (E : Env) (call : CString → Call) :
    Store → List Element → List Element → Store → Prop
  | nil {σ} : Folded E call σ [] [] σ
  | cons {σ σ₁ σ₂ x r xs rs} (returns : Returns E σ (call x.url.cStr, r.isExist.toInt) σ₁)
      (url : r.url = x.url) (rest : Folded E call σ₁ xs rs σ₂) :
      Folded E call σ (x :: xs) (r :: rs) σ₂

namespace Folded

variable {E : Env} {call : CString → Call} {σ σ' : Store} {xs rs : List Element}

theorem urls (folded : Folded E call σ xs rs σ') : rs.map Element.url = xs.map Element.url := by
  induction folded with
  | nil => rfl
  | cons _ url _ ih => rw [List.map_cons, List.map_cons, url, ih]

/-- The events of a batch. -/
theorem run (folded : Folded E call σ xs rs σ') :
    ∃ T, Run (Returns E) σ T σ' ∧
      ∀ ev, ev ∈ T ↔ ∃ r ∈ rs, ev = (call r.url.cStr, r.isExist.toInt) := by
  induction folded with
  | nil => exact ⟨[], .nil, by simp⟩
  | @cons σ σ₁ σ₂ x r xs rs returns url rest ih =>
      obtain ⟨T, run, events⟩ := ih
      refine ⟨T ++ [(call x.url.cStr, r.isExist.toInt)], (Run.single returns).append run, ?_⟩
      intro ev
      rw [List.mem_append, List.mem_singleton, events, List.exists_mem_cons_iff, url]
      exact or_comm

end Folded

section Loop

variable {E : Env} {single : CString → Store → Except Stop (Int × Store)}
  {call : CString → Call} {branches : List Int16}

/-- The loop with branches for all values of the single call is the fold of that call. -/
theorem answerLoop_eq_ok (call : CString → Call) (same : ∀ s σ, single s σ = (call s).exec E σ)
    (covered : ∀ s σ r σ', single s σ = .ok (r, σ') → ∃ c ∈ branches, r = c.toInt)
    (xs answer out : List Element) (σ σ' : Store) :
    answerLoop single branches xs answer σ = .ok (out, σ') ↔
      ∃ rs, out = answer ++ rs ∧ Folded E call σ xs rs σ' := by
  induction xs generalizing answer σ with
  | nil =>
      constructor
      · intro h
        cases h
        exact ⟨[], (List.append_nil _).symm, .nil⟩
      · intro h
        obtain ⟨rs, rfl, folded⟩ := h
        cases folded
        rw [List.append_nil]
        rfl
  | cons x xs ih =>
      cases first : single x.url.cStr σ with
      | error s =>
          simp only [answerLoop, first]
          constructor
          · intro h
            cases h
          · intro h
            obtain ⟨rs, _, folded⟩ := h
            cases folded with
            | cons returns _ _ => cases first.symm.trans ((same _ _).trans returns)
      | ok result =>
          obtain ⟨r, σ₁⟩ := result
          obtain ⟨c, mem, value⟩ := covered _ _ _ _ first
          have pushed : answerLoop single branches (x :: xs) answer σ =
              answerLoop single branches xs (answer ++ [⟨c, x.url⟩]) σ₁ := by
            have ret : Int16.ofInt r = c := by rw [value, Int16.ofInt_toInt]
            simp only [answerLoop, first]
            change (if Int16.ofInt r ∈ branches then _ else _) = _
            rw [ret, if_pos mem]
          rw [pushed, ih]
          constructor
          · intro h
            obtain ⟨rs, rfl, folded⟩ := h
            refine ⟨⟨c, x.url⟩ :: rs, by rw [List.append_assoc]; rfl, .cons ?_ rfl folded⟩
            rw [← value]
            exact (same _ _).symm.trans first
          · intro h
            obtain ⟨rs, rfl, folded⟩ := h
            cases folded with
            | @cons _ σ₂ _ _ q _ rs returns url rest =>
                have both := Except.ok.inj (first.symm.trans ((same _ _).trans returns))
                cases both
                have answered : q = ⟨c, x.url⟩ := by
                  cases q
                  cases Int16.toInt_inj.mp value
                  cases url
                  rfl
                exact ⟨rs, by rw [answered, List.append_assoc]; rfl, rest⟩

end Loop

theorem bloomsSet_values {E : Env} {key s : CString} {σ σ' : Store} {r : Int}
    (h : bloomsSet E key s σ = .ok (r, σ')) : r = 0 ∨ r = 1 := by
  unfold bloomsSet at h
  cases found : bloomsSearch key σ with
  | error stop => rw [found] at h; cases h
  | ok node =>
      rw [found] at h
      cases node with
      | none => cases h; exact Or.inr rfl
      | some p =>
          change (readNode σ.heap p >>= fun nd => bloomSet E nd.bloom s >>= fun b =>
            Except.ok ((0 : Int), (σ.setBloom p b).bumpSet)) = _ at h
          cases read : readNode σ.heap p with
          | error stop => rw [read] at h; cases h
          | ok nd =>
              rw [read] at h
              change (bloomSet E nd.bloom s >>= _) = _ at h
              cases set : bloomSet E nd.bloom s with
              | error stop => rw [set] at h; cases h
              | ok b => rw [set] at h; cases h; exact Or.inl rfl

theorem bloomsGet_values {E : Env} {key s : CString} {σ σ' : Store} {r : Int}
    (h : bloomsGet E key s σ = .ok (r, σ')) : r = 1 ∨ r = 0 ∨ r = -1 := by
  unfold bloomsGet at h
  cases found : bloomsSearch key σ with
  | error stop => rw [found] at h; cases h
  | ok node =>
      rw [found] at h
      cases node with
      | none => cases h; exact Or.inr (Or.inr rfl)
      | some p =>
          change (readNode σ.heap p >>= fun nd => bloomGet E nd.bloom s >>= fun q =>
            Except.ok (q.1, (σ.setBloom p q.2).bumpGet q.1)) = _ at h
          cases read : readNode σ.heap p with
          | error stop => rw [read] at h; cases h
          | ok nd =>
              rw [read] at h
              change (bloomGet E nd.bloom s >>= _) = _ at h
              cases got : bloomGet E nd.bloom s with
              | error stop => rw [got] at h; cases h
              | ok q =>
                  rw [got] at h
                  cases h
                  exact (bloomGet_frame got).2.imp (fun hit => hit.1) fun miss => Or.inl miss.1

/-- `fill` has a branch for every value of `blooms_set`. -/
theorem fill_eq_ok {E : Env} {key : StdString} {xs rs : List Element} {σ σ' : Store} :
    fill E key xs σ = .ok (rs, σ') ↔ Folded E (.set key.cStr) σ xs rs σ' := by
  refine (answerLoop_eq_ok (.set key.cStr) (fun _ _ => rfl) ?_ xs [] rs σ σ').trans ?_
  · intro s σ r σ' h
    rcases bloomsSet_values h with rfl | rfl
    · exact ⟨0, by decide, rfl⟩
    · exact ⟨1, by decide, rfl⟩
  · simp only [List.nil_append, exists_eq_left']

/-- `get` has a branch for every value of `blooms_get`. -/
theorem get_eq_ok {E : Env} {key : StdString} {xs rs : List Element} {σ σ' : Store} :
    get E key xs σ = .ok (rs, σ') ↔ Folded E (.get key.cStr) σ xs rs σ' := by
  refine (answerLoop_eq_ok (.get key.cStr) (fun _ _ => rfl) ?_ xs [] rs σ σ').trans ?_
  · intro s σ r σ' h
    rcases bloomsGet_values h with rfl | rfl | rfl
    · exact ⟨1, by decide, rfl⟩
    · exact ⟨0, by decide, rfl⟩
    · exact ⟨-1, by decide, rfl⟩
  · simp only [List.nil_append, exists_eq_left']

end ServHandler

/-! ### A subkey that was set stays found, whatever the size of the filter -/

/-- Every probe of `s` lies inside the vector and is set. -/
def Bloom.Marked (E : Env) (b : Bloom) (s : CString) : Prop :=
  ∃ map, b.vHash = some map ∧
    ∀ j < b.rounds, b.m ≠ 0 ∧ position (E.hash s) b.m j ∈ WordBitmap.members map

theorem inside_of_member {map : List Word} {x : Nat} (mem : x ∈ WordBitmap.members map) :
    x < 32 * map.length := by
  by_contra outside
  have slot : map.length ≤ x / 32 := by omega
  rw [WordBitmap.mem_members, WordBitmap.test, List.getElem?_eq_none slot] at mem
  cases mem

theorem bitmapSet_inside {map map' : List Word} {i : UInt64} (h : bitmapSet map i = .ok map') :
    i.toNat < 32 * map.length := by
  by_contra outside
  have slot : map.length ≤ i.toNat / 32 := by omega
  simp only [bitmapSet, toNat_shiftRight_five, List.getElem?_eq_none slot] at h
  cases h

/-- What a loop that came to its end has written, without knowing that its probes fit. -/
theorem setLoop_marks {h : UInt64 × UInt64} {m : UInt64} {rest i : Nat} {map map' : List Word}
    (run : setLoop h m rest i map = .ok map') :
    WordBitmap.members map ⊆ WordBitmap.members map' ∧
      ∀ j, i ≤ j → j < i + rest → m ≠ 0 ∧ position h m j ∈ WordBitmap.members map' := by
  induction rest generalizing i map with
  | zero =>
      cases run
      exact ⟨fun x mem => mem, fun j low high => by omega⟩
  | succ rest ih =>
      simp only [setLoop, probe] at run
      split_ifs at run with zero
      · cases run
      · change (bitmapSet map _ >>= fun map => setLoop h m rest (i + 1) map) = _ at run
        cases write : bitmapSet map ((h.1 + UInt64.ofNat i * h.2) % m) with
        | error s => rw [write] at run; cases run
        | ok mid =>
            have inside := bitmapSet_inside write
            rw [write] at run
            cases (bitmapSet_eq map inside).symm.trans write
            obtain ⟨grows, marks⟩ := ih run
            rw [WordBitmap.members_insert inside] at grows
            refine ⟨fun x mem => grows (Set.mem_insert_of_mem _ mem), ?_⟩
            intro j low high
            by_cases first : j = i
            · subst first
              exact ⟨zero, grows (Set.mem_insert _ _)⟩
            · exact marks j (by omega) (by omega)

theorem getLoop_of_marked {h : UInt64 × UInt64} {m : UInt64} {map : List Word} {rest i : Nat}
    (marked : ∀ j, i ≤ j → j < i + rest → m ≠ 0 ∧ position h m j ∈ WordBitmap.members map) :
    getLoop h m map rest i = .ok true := by
  induction rest generalizing i with
  | zero => rfl
  | succ rest ih =>
      obtain ⟨zero, mem⟩ := marked i (Nat.le_refl i) (by omega)
      obtain ⟨word, read, clear⟩ := bitmapCheck_eq map (inside_of_member mem)
      have set : word ≠ 0#32 := by
        intro unset
        rw [WordBitmap.mem_members] at mem
        have test := clear.mp unset
        rw [position] at mem
        rw [mem] at test
        cases test
      simp only [getLoop, probe, if_neg zero]
      change (bitmapCheck map _ >>= fun word =>
        if word = 0#32 then .ok false else getLoop h m map rest (i + 1)) = _
      rw [read]
      change (if word = 0#32 then _ else _) = _
      rw [if_neg set]
      exact ih fun j low high => marked j (by omega) (by omega)

theorem bloomSet_loop {E : Env} {b b' : Bloom} {s : CString} (run : bloomSet E b s = .ok b') :
    ∃ map map', b.vHash = some map ∧ setLoop (E.hash s) b.m b.rounds 0 map = .ok map' ∧
      b' = { b with vHash := some map', setCount := b.setCount + 1 } := by
  unfold bloomSet at run
  split at run
  · cases run
  · rename_i map vector
    cases loop : setLoop (E.hash s) b.m b.rounds 0 map with
    | error stop => rw [loop] at run; cases run
    | ok map' =>
        rw [loop] at run
        cases run
        exact ⟨map, map', vector, loop, rfl⟩

namespace Bloom.Marked

variable {E : Env} {b b' : Bloom} {s s' : CString} {r : Int}

theorem of_set (run : bloomSet E b s = .ok b') : b'.Marked E s := by
  obtain ⟨map, map', _, loop, rfl⟩ := bloomSet_loop run
  refine ⟨map', rfl, ?_⟩
  intro j high
  exact (setLoop_marks loop).2 j (Nat.zero_le j) (by rw [Nat.zero_add]; exact high)

theorem set (marked : b.Marked E s) (run : bloomSet E b s' = .ok b') : b'.Marked E s := by
  obtain ⟨map, map', vector, loop, rfl⟩ := bloomSet_loop run
  obtain ⟨old, vector', every⟩ := marked
  cases vector.symm.trans vector'
  refine ⟨map', rfl, ?_⟩
  intro j high
  exact ⟨(every j high).1, (setLoop_marks loop).1 (every j high).2⟩

theorem get (marked : b.Marked E s) (run : bloomGet E b s' = .ok (r, b')) : b'.Marked E s := by
  obtain ⟨_, ⟨_, rfl⟩ | ⟨_, rfl⟩⟩ := bloomGet_frame run
  · exact marked
  · exact marked

theorem found (marked : b.Marked E s) :
    bloomGet E b s = .ok (1, { b with getCount := b.getCount + 1 }) := by
  obtain ⟨map, vector, every⟩ := marked
  have hit : getLoop (E.hash s) b.m map b.rounds 0 = .ok true := by
    apply getLoop_of_marked
    intro j _ high
    exact every j (by omega)
  simp only [bloomGet, vector, hit]
  rfl

end Bloom.Marked
/-- The step lemma: only a deletion of the key ends it. -/
theorem FilterMap.Step.marked {E : Env} {M M' : FilterMap} {ev : Event} {key s : CString}
    (step : FilterMap.Step E M ev M') (kept : ev ≠ (.delete key, 0))
    (held : ∃ b, M key = some b ∧ b.Marked E s) : ∃ b, M' key = some b ∧ b.Marked E s := by
  obtain ⟨b, present, marked⟩ := held
  by_cases other : key ≠ ev.1.key
  · exact ⟨b, (step.frame other).trans present, marked⟩
  · cases not_not.mp other
    cases step with
    | addPresent => exact ⟨b, present, marked⟩
    | addRejected absent | added absent | setAbsent absent | getAbsent absent
    | deleteAbsent absent => cases absent.symm.trans present
    | set found run =>
        cases found.symm.trans present
        exact ⟨_, Function.update_self .., marked.set run⟩
    | got found run =>
        cases found.symm.trans present
        exact ⟨_, Function.update_self .., marked.get run⟩
    | deleted => exact absurd rfl kept

theorem FilterMap.Step.set_absent {E : Env} {M M' : FilterMap} {key s : CString} {r : Int}
    (step : FilterMap.Step E M (.set key s, r) M') (absent : M key = none) :
    r = 1 ∧ M' key = none := by
  cases step with
  | setAbsent => exact ⟨rfl, absent⟩
  | set present => cases absent.symm.trans present

theorem FilterMap.Step.set_present {E : Env} {M M' : FilterMap} {key s : CString} {r : Int}
    (step : FilterMap.Step E M (.set key s, r) M') (there : M key ≠ none) :
    ∃ b, M' key = some b ∧ b.Marked E s := by
  cases step with
  | setAbsent absent => exact absurd absent there
  | set present run => exact ⟨_, Function.update_self .., .of_set run⟩

theorem FilterMap.Step.get_marked {E : Env} {M M' : FilterMap} {key s : CString} {r : Int}
    (step : FilterMap.Step E M (.get key s, r) M')
    (held : ∃ b, M key = some b ∧ b.Marked E s) : r = 1 := by
  obtain ⟨b, present, marked⟩ := held
  cases step with
  | getAbsent absent => cases absent.symm.trans present
  | got found run =>
      cases found.symm.trans present
      cases marked.found.symm.trans run
      rfl

/-- The run lemma. -/
theorem marked_of_run {E : Env} {M M' : FilterMap} {T : List Event} {key s : CString}
    (run : Run (FilterMap.Step E) M T M') (kept : (.delete key, 0) ∉ T)
    (held : ∃ b, M key = some b ∧ b.Marked E s) : ∃ b, M' key = some b ∧ b.Marked E s := by
  induction run with
  | nil => exact held
  | snoc _ last ih =>
      apply last.marked
      · intro same
        exact kept (same ▸ List.mem_cons_self)
      · exact ih fun mem => kept (List.mem_cons_of_mem _ mem)

theorem Returns.step {E : Env} {σ σ' : Store} {B : Buckets} {ev : Event} (rep : Represents σ B)
    (returns : Returns E σ ev σ') :
    FilterMap.Step E σ.contents ev σ'.contents ∧ ∃ B', Represents σ' B' := by
  obtain ⟨B', eff⟩ := returns.effect rep
  exact ⟨eff.refines rep, B', eff.represents rep⟩

namespace ServHandler.Folded

variable {E : Env} {σ σ' : Store} {B : Buckets} {key s : CString} {xs rs : List Element}

/-- A batch of sets under an absent key answers 1 throughout. -/
theorem absent (folded : Folded E (.set key) σ xs rs σ') (rep : Represents σ B)
    (none : σ.contents key = none) : ∀ r ∈ rs, r.isExist = 1 := by
  induction folded generalizing B with
  | nil => intro r mem; cases mem
  | @cons σ σ₁ σ₂ x r xs rs returns url rest ih =>
      obtain ⟨step, B', rep'⟩ := returns.step rep
      obtain ⟨one, same⟩ := step.set_absent none
      intro q mem
      rcases List.mem_cons.mp mem with rfl | later
      · exact Int16.toInt_inj.mp one
      · exact ih rep' same q later

/-- Under a present key it marks every url of the batch. -/
theorem marks (folded : Folded E (.set key) σ xs rs σ') (rep : Represents σ B)
    (there : σ.contents key ≠ none) :
    ∀ x ∈ xs, ∃ b, σ'.contents key = some b ∧ b.Marked E x.url.cStr := by
  induction folded generalizing B with
  | nil => intro x mem; cases mem
  | @cons σ σ₁ σ₂ x r xs rs returns url rest ih =>
      obtain ⟨step, B', rep'⟩ := returns.step rep
      have marked := step.set_present there
      obtain ⟨T, run, events⟩ := rest.run
      intro y mem
      rcases List.mem_cons.mp mem with rfl | later
      · refine marked_of_run (refines_run rep' run) ?_ marked
        intro deleted
        obtain ⟨q, _, same⟩ := (events _).mp deleted
        cases same
      · obtain ⟨b, present, _⟩ := marked
        exact ih rep' (by rw [present]; exact Option.some_ne_none b) y later

/-- A batch of gets answers 1 for every url that is marked. -/
theorem found (folded : Folded E (.get key) σ xs rs σ') (rep : Represents σ B)
    (held : ∃ b, σ.contents key = some b ∧ b.Marked E s) :
    ∀ r ∈ rs, r.url.cStr = s → r.isExist = 1 := by
  induction folded generalizing B with
  | nil => intro r mem; cases mem
  | @cons σ σ₁ σ₂ x r xs rs returns url rest ih =>
      obtain ⟨step, B', rep'⟩ := returns.step rep
      intro q mem same
      rcases List.mem_cons.mp mem with rfl | later
      · rw [← url, same] at step
        exact Int16.toInt_inj.mp (step.get_marked held)
      · exact ih rep' (step.marked (by intro h; cases h) held) q later same

end ServHandler.Folded

/-! ### Every request on a filter of a positive size comes to its end -/

section Total

variable {E : Env} {max : UInt64} {heap : List Node} {σ : Store} {T : List Event}

theorem set_total (run : Run (Returns E) (bloomsInit max heap) T σ) (sizes : SmallSizes T)
    (key s : CString) : ∃ c : Int16, ∃ σ', Returns E σ (.set key s, c.toInt) σ' := by
  obtain ⟨B, rep⟩ := reachable_represents run
  have sim := refines_run (bloomsInit_represents max heap) run
  rw [contents_bloomsInit] at sim
  rcases rep.set_cases E key s with ⟨_, one⟩ | ⟨p, b, held, zero⟩
  · exact ⟨1, σ, one⟩
  · obtain ⟨map, usable, _⟩ := remembers_of_run sim sizes key b (rep.contents_of_holds held)
    obtain ⟨map', set, _⟩ := bloomSet_spec E usable s
    rw [set] at zero
    exact ⟨0, _, zero⟩

theorem get_total (run : Run (Returns E) (bloomsInit max heap) T σ) (sizes : SmallSizes T)
    (key s : CString) : ∃ c : Int16, ∃ σ', Returns E σ (.get key s, c.toInt) σ' := by
  obtain ⟨B, rep⟩ := reachable_represents run
  have sim := refines_run (bloomsInit_represents max heap) run
  rw [contents_bloomsInit] at sim
  rcases rep.get_cases E key s with ⟨_, none⟩ | ⟨p, b, held, _⟩
  · exact ⟨-1, σ, none⟩
  · obtain ⟨r, ⟨σ', returns⟩, value, _⟩ := rep.get_answer (remembers_of_run sim sizes) held s
    rcases value with rfl | rfl
    · exact ⟨0, σ', returns⟩
    · exact ⟨1, σ', returns⟩

/-- A batch comes to its end when its calls do and none of them adds a filter. -/
theorem ServHandler.exists_folded (call : CString → Call)
    (total : ∀ T σ, Run (Returns E) (bloomsInit max heap) T σ → SmallSizes T →
      ∀ s, ∃ c : Int16, ∃ σ', Returns E σ (call s, c.toInt) σ')
    (noAdd : ∀ s key n e mem, call s ≠ .add key n e mem)
    (run : Run (Returns E) (bloomsInit max heap) T σ) (sizes : SmallSizes T) (xs : List Element) :
    ∃ rs σ', Folded E call σ xs rs σ' := by
  induction xs generalizing T σ with
  | nil => exact ⟨[], σ, .nil⟩
  | cons x xs ih =>
      obtain ⟨c, σ₁, returns⟩ := total T σ run sizes x.url.cStr
      have longer : SmallSizes ((call x.url.cStr, c.toInt) :: T) := by
        intro key n e mem r added
        rcases List.mem_cons.mp added with same | old
        · exact absurd (Prod.mk.inj same).1.symm (noAdd _ _ _ _ _)
        · exact sizes key n e mem r old
      obtain ⟨rs, σ', rest⟩ := ih (run.snoc returns) longer
      exact ⟨⟨c, x.url⟩ :: rs, σ', .cons returns rfl rest⟩

end Total

open ServHandler (fill get Folded fill_eq_ok get_eq_ok exists_folded)

/-- The batch requests are the folds of the single ones, and what a batch has filled every later
batch finds. -/
theorem batch_requests {E : Env} {max : UInt64} {heap : List Node} {T : List Event} {σ : Store}
    (run : Run (Returns E) (bloomsInit max heap) T σ) (key : StdString) (xs : List Element) :
    (∀ rs σ', fill E key xs σ = .ok (rs, σ') ↔ Folded E (.set key.cStr) σ xs rs σ') ∧
    (∀ rs σ', get E key xs σ = .ok (rs, σ') ↔ Folded E (.get key.cStr) σ xs rs σ') ∧
    (∀ rs σ', fill E key xs σ = .ok (rs, σ') ∨ get E key xs σ = .ok (rs, σ') →
      rs.map Element.url = xs.map Element.url) ∧
    (SmallSizes T → (∃ rs σ', fill E key xs σ = .ok (rs, σ')) ∧
      ∃ rs σ', get E key xs σ = .ok (rs, σ')) ∧
    (∀ rs σ₁ T₂ σ₂ ys qs σ₃, fill E key xs σ = .ok (rs, σ₁) → (∃ r ∈ rs, r.isExist = 0) →
      Run (Returns E) σ₁ T₂ σ₂ → (.delete key.cStr, 0) ∉ T₂ → get E key ys σ₂ = .ok (qs, σ₃) →
        ∀ q ∈ qs, (∃ x ∈ xs, x.url = q.url) → q.isExist = 1) := by
  refine ⟨fun rs σ' => fill_eq_ok, fun rs σ' => get_eq_ok, ?_, ?_, ?_⟩
  · intro rs σ' h
    rcases h with filled | got
    · exact (fill_eq_ok.mp filled).urls
    · exact (get_eq_ok.mp got).urls
  · intro sizes
    obtain ⟨rs, σ₁, filled⟩ := exists_folded (.set key.cStr)
      (fun _ _ run sizes s => set_total run sizes key.cStr s) (by simp) run sizes xs
    obtain ⟨qs, σ₂, got⟩ := exists_folded (.get key.cStr)
      (fun _ _ run sizes s => get_total run sizes key.cStr s) (by simp) run sizes xs
    exact ⟨⟨rs, σ₁, fill_eq_ok.mpr filled⟩, ⟨qs, σ₂, get_eq_ok.mpr got⟩⟩
  · intro rs σ₁ T₂ σ₂ ys qs σ₃ filled zero between kept got
    obtain ⟨B, rep⟩ := reachable_represents run
    have batch := fill_eq_ok.mp filled
    obtain ⟨r, mem, value⟩ := zero
    have there : σ.contents key.cStr ≠ none := by
      intro none
      have one := batch.absent rep none r mem
      rw [value] at one
      cases one
    intro q mem' same
    obtain ⟨x, memx, url⟩ := same
    have marked := batch.marks rep there x memx
    obtain ⟨T₁, run₁, _⟩ := batch.run
    obtain ⟨B₁, rep₁⟩ := represents_of_run rep run₁
    obtain ⟨B₂, rep₂⟩ := represents_of_run rep₁ between
    have later := marked_of_run (refines_run rep₁ between) kept marked
    exact (get_eq_ok.mp got).found rep₂ later q mem' (by rw [url])

/-- Two urls, one of them twice, in a filter for 32 elements. -/
theorem batch_requests_twice :
    ∃ σ, Run (Returns (serverEnv Libm.oneHalf)) (bloomsInit 1000 [])
      [(.add [97, 98] 32 0.5 ⟨true, true⟩, 0)] σ ∧
      ∃ rs σ', fill (serverEnv Libm.oneHalf) [97, 98] [⟨0, [120]⟩, ⟨0, [121]⟩, ⟨0, [120]⟩] σ =
        .ok (rs, σ') := by
  refine Exists.imp (fun σ run => ⟨run, ?_⟩) (exists_run (by decide +kernel))
  obtain ⟨_, _, _, total, _⟩ := batch_requests run [97, 98] [⟨0, [120]⟩, ⟨0, [121]⟩, ⟨0, [120]⟩]
  refine (total ?_).1
  intro key n e mem r added
  rw [List.mem_singleton, Prod.mk.injEq, Call.add.injEq] at added
  obtain ⟨⟨_, rfl, _⟩, _⟩ := added
  decide

end BloomServer
