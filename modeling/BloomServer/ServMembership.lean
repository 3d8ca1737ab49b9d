import BloomServer.ServSystem

/-! The handler of the server: what one client has filled, every client finds. -/
namespace BloomServer
open ByteCodec FieldProtocol LabelledRun

/-- The execution fills the url under the key, and is told so. -/
def Execution.Fills (key s : CString) : Execution → Prop
  | ⟨.fillOne, (a : UrlArgs), outcome⟩ => a.key.cStr = key ∧ a.url.cStr = s ∧ outcome = .ok (0 : Int16)
  | ⟨.fill, (a : UrlsArgs), outcome⟩ => a.key.cStr = key ∧
      ∃ rs : List Element, outcome = .ok rs ∧ ∃ x ∈ rs, x.url.cStr = s ∧ x.isExist = 0
  | _ => False

/-- The execution deletes the filter of the key. -/
def Execution.Deletes (key : CString) : Execution → Prop
  | ⟨.deleteBlooms, (a : KeyArgs), outcome⟩ => a.key.cStr = key ∧ outcome = .ok (0 : Int16)
  | _ => False

/-- If the execution asks for the url under the key, it is told that the url is there. -/
def Execution.Finds (key s : CString) : Execution → Prop
  | ⟨.getOne, (a : UrlArgs), outcome⟩ => a.key.cStr = key → a.url.cStr = s → outcome = .ok (1 : Int16)
  | ⟨.get, (a : UrlsArgs), outcome⟩ => a.key.cStr = key →
      ∀ rs : List Element, outcome = .ok rs → ∀ x ∈ rs, x.url.cStr = s → x.isExist = 1
  | _ => True

/-- The table finds the url under the key. -/
def Store.Knows (E : Env) (key s : CString) (σ : Store) : Prop :=
  ∃ b, σ.contents key = some b ∧ b.Marked E s

section Handler

variable {E : Env} {m : Method} {args : m.Args} {σ σ' : Store} {outcome : Except FieldProtocol.Bytes m.Result}
  {B : Buckets} {key s : CString}

/-- What a handler does to the table is a run of single calls, and it deletes only what it says. -/
theorem ServHandler.serv_run (ran : serv E m args σ outcome σ') : ∃ T, Run (Returns E) σ T σ' ∧
    ∀ key, (.delete key, 0) ∈ T → Execution.Deletes key ⟨m, args, outcome⟩ := by
  cases m with
  | add =>
      obtain ⟨mem, r, _, returns⟩ := ran
      exact ⟨_, Run.single returns, fun key deleted => by simp at deleted⟩
  | fill =>
      obtain ⟨rs, _, run⟩ := ran
      obtain ⟨T, run, events⟩ := (fill_eq_ok.mp run).run
      refine ⟨T, run, fun key deleted => ?_⟩
      obtain ⟨r, _, same⟩ := (events _).mp deleted
      cases same
  | get =>
      obtain ⟨rs, _, run⟩ := ran
      obtain ⟨T, run, events⟩ := (get_eq_ok.mp run).run
      refine ⟨T, run, fun key deleted => ?_⟩
      obtain ⟨r, _, same⟩ := (events _).mp deleted
      cases same
  | getOne | fillOne =>
      obtain ⟨r, _, returns⟩ := ran
      exact ⟨_, Run.single returns, fun key deleted => by simp at deleted⟩
  | deleteBlooms =>
      obtain ⟨r, rfl, returns⟩ := ran
      refine ⟨_, Run.single returns, fun key deleted => ?_⟩
      simp only [List.mem_singleton, Prod.mk.injEq, Call.delete.injEq] at deleted
      obtain ⟨rfl, rfl⟩ := deleted
      exact ⟨rfl, rfl⟩
  | getStats | getBloomsStats | getBloomStats | setMem | deleteBloomsAll =>
      obtain ⟨_, rfl⟩ := ran
      exact ⟨[], .nil, fun key deleted => by simp at deleted⟩

theorem ServHandler.serv_keeps (ran : serv E m args σ outcome σ') (rep : Represents σ B)
    (kept : ¬ Execution.Deletes key ⟨m, args, outcome⟩) (knows : σ.Knows E key s) :
    σ'.Knows E key s := by
  obtain ⟨T, run, deletes⟩ := serv_run ran
  exact marked_of_run (refines_run rep run) (fun deleted => kept (deletes key deleted)) knows

theorem ServHandler.serv_fills (ran : serv E m args σ outcome σ') (rep : Represents σ B)
    (fills : Execution.Fills key s ⟨m, args, outcome⟩) : σ'.Knows E key s := by
  cases m with
  | fillOne =>
      obtain ⟨r, value, returns⟩ := ran
      obtain ⟨rfl, rfl, zero⟩ := fills
      obtain ⟨step, _⟩ := returns.step rep
      apply step.set_present
      intro absent
      obtain ⟨rfl, _⟩ := step.set_absent absent
      cases Except.ok.inj (value.symm.trans zero)
  | fill =>
      obtain ⟨rs, value, run⟩ := ran
      obtain ⟨rfl, rs', value', x, mem, rfl, zero⟩ := fills
      cases Except.ok.inj (value.symm.trans value')
      have folded := fill_eq_ok.mp run
      have there : σ.contents args.key.cStr ≠ none := fun none => by
        have one := folded.absent rep none x mem
        cases one.symm.trans zero
      have urls : x.url ∈ args.vectorUrl.map Element.url := by
        rw [← folded.urls]
        exact List.mem_map_of_mem mem
      obtain ⟨y, mem', same⟩ := List.mem_map.mp urls
      rw [← same]
      exact folded.marks rep there y mem'
  | _ => exact absurd fills id

theorem ServHandler.serv_finds (ran : serv E m args σ outcome σ') (rep : Represents σ B)
    (knows : σ.Knows E key s) : Execution.Finds key s ⟨m, args, outcome⟩ := by
  cases m with
  | getOne =>
      obtain ⟨r, rfl, returns⟩ := ran
      rintro rfl rfl
      obtain ⟨step, _⟩ := returns.step rep
      rw [step.get_marked knows]
      rfl
  | get =>
      obtain ⟨rs, rfl, run⟩ := ran
      rintro rfl rs' same x mem url
      cases same
      exact (get_eq_ok.mp run).found rep knows x mem url
  | _ => trivial

end Handler

section Runs

variable {E : Env} {σ σ' : Store} {B : Buckets} {key s : CString}
  {X : List (ConnId × Execution)}

theorem Sequential.represents (run : Sequential (ServHandler.serv E) σ X σ')
    (rep : Represents σ B) : ∃ B', Represents σ' B' := by
  induction run with
  | nil => exact ⟨B, rep⟩
  | snoc _ last ih =>
      obtain ⟨B', rep'⟩ := ih
      obtain ⟨T, run, _⟩ := ServHandler.serv_run last
      exact represents_of_run rep' run

theorem Sequential.keeps (run : Sequential (ServHandler.serv E) σ X σ') (rep : Represents σ B)
    (kept : ∀ x ∈ X, ¬ x.2.Deletes key) (knows : σ.Knows E key s) : σ'.Knows E key s := by
  induction run with
  | nil => exact knows
  | snoc before last ih =>
      have knows := ih fun x mem => kept x (List.mem_cons_of_mem _ mem)
      obtain ⟨B', rep'⟩ := Sequential.represents before rep
      exact ServHandler.serv_keeps last rep' (kept _ List.mem_cons_self) knows

end Runs

/-- As long as a worker takes a call only when no other worker has one, a url that some client has
filled under a key is found by every later get of any client, unless some client has deleted the
filter of the key in between. Two gets at once may miss it: the iterator they walk with is one. -/
theorem filled_url_found {E : Env} {T : Thrift} {H : ServThread Store} {max : UInt64}
    {heap : List Node} {history : List ServEvent} {s : ServSystem H} {c c' : ConnId} {x y : Execution}
    {X₁ X₂ X₃ : List (ConnId × Execution)} {key url : CString} (lawful : T.Lawful)
    (alone : ∀ m args σ outcome σ', H.alone m args σ outcome σ' →
      ServHandler.serv E m args σ outcome σ')
    (run : Run (Guarded ServSystem.OneAtATime (ServStep T)) (.start (bloomsInit max heap)) history s)
    (fits : ∀ ev ∈ history, ev.Fits)
    (order : executed history = X₃ ++ (c', y) :: (X₂ ++ (c, x) :: X₁))
    (fills : x.Fills key url) (kept : ∀ z ∈ X₂, ¬ z.2.Deletes key) : y.Finds key url := by
  obtain ⟨t, calls, _⟩ := refines_of_oneAtATime lawful run fits
  obtain ⟨_, steps⟩ := sequential_of_oneAtATime calls
  rw [order] at steps
  have all := steps.mono fun _ _ _ ran => alone _ _ _ _ _ ran
  have init := bloomsInit_represents max heap
  obtain ⟨σ₃, upto, _⟩ := all.split
  obtain ⟨σ₂, upto, asks⟩ := upto.of_cons
  obtain ⟨σ₁, first, between⟩ := upto.split
  obtain ⟨σ₀, before, filled⟩ := first.of_cons
  obtain ⟨B₀, rep₀⟩ := Sequential.represents before init
  obtain ⟨B₁, rep₁⟩ := Sequential.represents first init
  obtain ⟨B₂, rep₂⟩ := Sequential.represents upto init
  have known := ServHandler.serv_fills filled rep₀ fills
  exact ServHandler.serv_finds asks rep₂ (Sequential.keeps between rep₁ kept known)

/-- One client adds a filter and fills a url, another asks for it. -/
def filledExecutions : List (ConnId × Execution) :=
  [(1, ⟨.getOne, (⟨[97], [120]⟩ : UrlArgs), .ok (1 : Int16)⟩),
    (0, ⟨.fillOne, (⟨[97], [120]⟩ : UrlArgs), .ok (0 : Int16)⟩),
    (0, ⟨.add, (⟨[97], 32, 0x3FE0000000000000⟩ : AddArgs), .ok (0 : Int16)⟩)]

theorem exists_filledExecutions : ∃ σ, Sequential (ServHandler.serv (serverEnv Libm.oneHalf))
    (bloomsInit 1000 []) filledExecutions σ := by
  obtain ⟨σ, run⟩ := exists_run (E := serverEnv Libm.oneHalf) (σ := bloomsInit 1000 [])
    (T := [(.get [97] [120], 1), (.set [97] [120], 0),
      (.add [97] 32 (Float.ofBits 0x3FE0000000000000) ⟨true, true⟩, 0)]) (by decide +kernel)
  obtain ⟨σ₂, before, third⟩ := run.of_cons
  obtain ⟨σ₁, before, second⟩ := before.of_cons
  obtain ⟨_, before, first⟩ := before.of_cons
  cases before.of_nil
  have one : Sequential (ServHandler.serv (serverEnv Libm.oneHalf)) (bloomsInit 1000 [])
      [(0, ⟨.add, (⟨[97], 32, 0x3FE0000000000000⟩ : AddArgs), .ok (0 : Int16)⟩)] σ₁ :=
    Run.single ⟨⟨true, true⟩, 0, rfl, first⟩
  have two : Sequential (ServHandler.serv (serverEnv Libm.oneHalf)) (bloomsInit 1000 [])
      filledExecutions.tail σ₂ := one.snoc ⟨0, rfl, second⟩
  exact ⟨σ, two.snoc ⟨1, rfl, third⟩⟩

theorem filled_url_found_other : ∃ E s,
    Run (Guarded ServSystem.OneAtATime (ServStep binaryThrift
        (H := (ServHandler.serv (serverEnv Libm.oneHalf)).inOneStep)))
      (.start (bloomsInit 1000 [])) E s ∧ executed E = filledExecutions ∧
    Execution.Finds [97] [120] ⟨.getOne, (⟨[97], [120]⟩ : UrlArgs), .ok (1 : Int16)⟩ := by
  obtain ⟨σ, run⟩ := exists_filledExecutions
  have short : (1 : ℕ) < maxCount := by decide
  have fits : ∀ x ∈ filledExecutions, x.2.1.ArgsFit x.2.2.1 ∧ x.2.1.OutcomeFits x.2.2.2 := by
    rintro x (_ | ⟨_, _ | ⟨_, _ | ⟨_, none⟩⟩⟩)
    · exact ⟨⟨short, short⟩, trivial⟩
    · exact ⟨⟨short, short⟩, trivial⟩
    · exact ⟨short, trivial⟩
    · cases none
  have steps := run.mono fun _ _ _ ran => (ServIf.inOneStep_alone _).mpr ran
  obtain ⟨E, t, calls, same, _, _, fits⟩ := served_of_sequential steps fits
  obtain ⟨s, bytes, _⟩ := ServSystem.Refines.lift_oneAtATime binaryThrift_lawful calls fits
  have order : executed E = [] ++ (1, ⟨.getOne, (⟨[97], [120]⟩ : UrlArgs), .ok (1 : Int16)⟩) ::
      ([] ++ (0, ⟨.fillOne, (⟨[97], [120]⟩ : UrlArgs), .ok (0 : Int16)⟩) ::
        [(0, ⟨.add, (⟨[97], 32, 0x3FE0000000000000⟩ : AddArgs), .ok (0 : Int16)⟩)]) := same
  have finds : Execution.Finds [97] [120] _ := filled_url_found binaryThrift_lawful
    (fun _ _ _ _ _ ran => (ServIf.inOneStep_alone _).mp ran) bytes fits order
    ⟨by decide, by decide, rfl⟩ fun z none => absurd none List.not_mem_nil
  exact ⟨E, s, bytes, same, finds⟩

end BloomServer
