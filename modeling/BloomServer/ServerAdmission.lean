import BloomServer.Accounting
import BloomServer.Membership

/-! Which requests for a new filter the server admits, and what can be done with the
filters it creates for them. -/
namespace BloomServer
open LabelledRun
open BinaryRounding (roundTo lt_roundTo_add roundTo_le_add)

/-- The argument of `bloomfilter.initialize`. -/
def serverBudget : UInt64 := 4000000000

/-- The conversion of an `int32_t` argument to `UINT64_RC`. -/
def widen (maxElements : Int32) : UInt64 := maxElements.toInt64.toUInt64

/-- `ServHandler::add`. -/
def serverAdd (E : Env) (mem : Alloc) (key : CString) (maxElements : Int32) (falseRate : Float)
    (σ : Store) : Except Stop (Int × Store) :=
  bloomsAdd E mem key (widen maxElements) falseRate σ

theorem toNat_widen (c : Int32) :
    ((widen c).toNat : Int) = if c.toInt < 0 then c.toInt + 2 ^ 64 else c.toInt := by
  have value : c.toInt64.toBitVec.toInt = c.toInt := c.toInt_toInt64
  rw [BitVec.toInt_eq_toNat_cond] at value
  have bound := c.toInt64.toBitVec.isLt
  change (c.toInt64.toBitVec.toNat : Int) = _
  split_ifs at value ⊢ <;> omega

/-- What `calculate` makes of an argument close below `2 ^ 64`: only `x = 2` passes the comparison
in floating point, and then either the size is huge or the round-up wraps to no words at all. -/
theorem calculate_of_negative {L : Libm} {n : UInt64} {e : Float} (high : 2 ^ 64 - 2 ^ 31 ≤ n.toNat) :
    (calculate L n e).bytes = 0 ∨ serverBudget < (calculate L n e).bytes ∨
      ((calculate L n e).m = n ∧ wordsOf (calculate L n e).bytes = 0) := by
  obtain ⟨low, _⟩ := sizing_bounds L e
  have bound := UInt64.toNat_lt n
  cases large : overflows (sizing L e).1 n with
  | true => exact Or.inl (by rw [calculate_of_overflows large]; rfl)
  | false =>
      right
      have two : (sizing L e).1 = 2 := by
        by_contra more
        have near := lt_roundTo_add (p := 53) bound
        have above := roundTo_le_add (p := 53) bound
        have least : 2 * roundTo 53 n.toNat ≤ ((sizing L e).1 - 1) * roundTo 53 n.toNat :=
          Nat.mul_le_mul_right _ (by omega)
        have most : ((sizing L e).1 - 1) * roundTo 53 n.toNat ≤ 99 * roundTo 53 n.toNat :=
          Nat.mul_le_mul_right _ (by omega)
        have size : ((sizing L e).1 - 1) * roundTo 53 n.toNat < 2 ^ 72 := by omega
        have rounded := lt_roundTo_add (p := 53) size
        have top : roundTo 53 (2 ^ 64 - 1) = 2 ^ 64 := by decide
        rw [overflows, decide_eq_false_iff_not, top] at large
        omega
      have bits : bitsFor L n e = n := by
        rw [bitsFor, two]
        exact UInt64.one_mul n
      rw [calculate_of_not_overflows large, bits]
      change serverBudget < bitBytes n + sizeofBloom ∨ (n = n ∧ wordsOf (bitBytes n + sizeofBloom) = 0)
      rw [UInt64.lt_iff_toNat_lt, toNat_sizeBytes, wordsOf_sizeBytes, UInt64.toNat_add]
      change 4000000000 < 136 + 4 * ((n.toNat + 31) % 2 ^ 64 / 32) ∨
        (n = n ∧ (n.toNat + 31) % 2 ^ 64 / 32 = 0)
      by_cases wraps : 2 ^ 64 ≤ n.toNat + 31
      · exact Or.inr ⟨rfl, by omega⟩
      · exact Or.inl (by omega)

theorem calculate_of_zero (L : Libm) (e : Float) : (calculate L 0 e).m = 0 := by
  cases large : overflows (sizing L e).1 0 with
  | true => rw [calculate_of_overflows large]; rfl
  | false =>
      rw [calculate_of_not_overflows large]
      exact UInt64.mul_zero

/-- A size the server admits is that of a usable filter exactly for a positive request. -/
theorem admitted_iff {L : Libm} {c : Int32} {e : Float} (size : (calculate L (widen c) e).bytes ≠ 0)
    (fits : (calculate L (widen c) e).bytes ≤ serverBudget) :
    (0 < (calculate L (widen c) e).m ∧ (calculate L (widen c) e).m.toNat ≤
      32 * wordsOf (calculate L (widen c) e).bytes) ↔ 0 < c := by
  have value := toNat_widen c
  have low := c.minValue_le_toInt
  have high := c.toInt_le
  change -2 ^ 31 ≤ c.toInt at low
  change c.toInt ≤ 2 ^ 31 - 1 at high
  rw [Int32.lt_iff_toInt_lt]
  change _ ↔ 0 < c.toInt
  split_ifs at value with negative
  · have top : 2 ^ 64 - 2 ^ 31 ≤ (widen c).toNat := by omega
    rcases calculate_of_negative (L := L) (e := e) top with zero | huge | ⟨bits, none⟩
    · exact absurd zero size
    · exact absurd fits (UInt64.not_le.mpr huge)
    · rw [bits, none]
      constructor
      · rintro ⟨_, inside⟩
        omega
      · intro positive
        omega
  · by_cases zero : c.toInt = 0
    · have none : widen c = 0 := by
        apply UInt64.toNat_inj.mp
        change (widen c).toNat = 0
        omega
      rw [none, calculate_of_zero]
      constructor
      · rintro ⟨positive, _⟩
        exact absurd positive (by decide)
      · intro positive
        omega
    · have positive : 0 < widen c := by
        rw [UInt64.lt_iff_toNat_lt]
        change 0 < (widen c).toNat
        omega
      have small : widen c < 2 ^ 31 := by
        rw [UInt64.lt_iff_toNat_lt]
        change (widen c).toNat < 2 ^ 31
        omega
      obtain ⟨nonzero, inside⟩ := calculate_of_small (L := L) (e := e) positive small
      constructor
      · intro _
        omega
      · exact fun _ => ⟨UInt64.pos_iff_ne_zero.mpr nonzero, inside⟩

/-- A usable filter stays usable as long as it is not deleted. -/
theorem FilterMap.Step.usable {E : Env} {M M' : FilterMap} {ev : Event} {key : CString}
    {b : Bloom} {map : List Word} (step : FilterMap.Step E M ev M') (found : M key = some b)
    (usable : b.Usable map) (kept : ev ≠ (.delete key, 0)) :
    ∃ b' map', M' key = some b' ∧ b'.Usable map' := by
  by_cases other : key ≠ ev.1.key
  · exact ⟨b, map, (step.frame other).trans found, usable⟩
  · cases not_not.mp other
    cases step with
    | addPresent => exact ⟨b, map, found, usable⟩
    | addRejected absent | added absent | setAbsent absent | getAbsent absent
    | deleteAbsent absent => cases absent.symm.trans found
    | @set key s c c' present run =>
        cases present.symm.trans found
        obtain ⟨map', run', size, _⟩ := bloomSet_spec E usable s
        cases run.symm.trans run'
        refine ⟨_, map', Function.update_self .., rfl, usable.modulus, ?_⟩
        rw [size]
        exact usable.fits
    | @got key s c r c' present run =>
        cases present.symm.trans found
        rcases (bloomGet_frame run).2 with ⟨_, rfl⟩ | ⟨_, rfl⟩
        · exact ⟨_, map, Function.update_self .., usable.vector, usable.modulus, usable.fits⟩
        · exact ⟨_, map, Function.update_self .., usable.vector, usable.modulus, usable.fits⟩
    | deleted => exact absurd rfl kept

theorem usable_of_run {E : Env} {M M' : FilterMap} {T : List Event} {key : CString} {b : Bloom}
    {map : List Word} (run : Run (FilterMap.Step E) M T M') (found : M key = some b)
    (usable : b.Usable map) (kept : (.delete key, 0) ∉ T) :
    ∃ b' map', M' key = some b' ∧ b'.Usable map' := by
  induction run with
  | nil => exact ⟨b, map, found, usable⟩
  | snoc before last ih =>
      obtain ⟨c, map', there, still⟩ := ih fun mem => kept (List.mem_cons_of_mem _ mem)
      exact last.usable there still fun same => kept (same ▸ List.mem_cons_self)

/-- Setting and getting a subkey of a usable filter return. -/
theorem Represents.returns_of_usable {E : Env} {σ : Store} {B : Buckets} {key : CString}
    {p : Addr} {b : Bloom} {map : List Word} (rep : Represents σ B) (held : σ.Holds key p b)
    (usable : b.Usable map) (s : CString) :
    CanReturn E σ (.set key s) 0 ∧ (CanReturn E σ (.get key s) 0 ∨ CanReturn E σ (.get key s) 1) := by
  constructor
  · rcases rep.set_cases E key s with ⟨absent, _⟩ | ⟨q, c, other, run⟩
    · exact absurd ⟨p, b, held⟩ absent
    · obtain ⟨rfl, rfl⟩ := rep.holds_unique held other
      obtain ⟨map', set, _⟩ := bloomSet_spec E usable s
      exact ⟨_, run.trans (by rw [set]; rfl)⟩
  · rcases rep.get_cases E key s with ⟨absent, _⟩ | ⟨q, c, other, run⟩
    · exact absurd ⟨p, b, held⟩ absent
    · obtain ⟨rfl, rfl⟩ := rep.holds_unique held other
      rcases bloomGet_spec E usable s with ⟨_, got⟩ | ⟨_, got⟩
      · exact Or.inr ⟨_, run.trans (by rw [got]; rfl)⟩
      · exact Or.inl ⟨_, run.trans (by rw [got]; rfl)⟩

/-- Of the requests the server admits, exactly those for a positive number of elements get a
filter with `0 < m` and room for `m` bits; on such a filter no later call divides by zero or
leaves the vector. -/
theorem server_admission {E : Env} {heap : List Node} {T : List Event} {σ σ' : Store}
    {mem : Alloc} {key : CString} {maxElements : Int32} {falseRate : Float}
    (run : Run (Returns E) (bloomsInit serverBudget heap) T σ)
    (admitted : serverAdd E mem key maxElements falseRate σ = .ok (0, σ')) :
    (∃ p b map, σ'.Holds key p b ∧ b.vHash = some map ∧
      ((0 < b.m ∧ b.m.toNat ≤ 32 * map.length) ↔ 0 < maxElements)) ∧
    (0 < maxElements → ∀ T' τ, Run (Returns E) σ' T' τ → (.delete key, 0) ∉ T' →
      ∀ s, CanReturn E τ (.set key s) 0 ∧
        (CanReturn E τ (.get key s) 0 ∨ CanReturn E τ (.get key s) 1)) := by
  obtain ⟨B, rep⟩ := reachable_represents run
  have returns : Returns E σ (.add key (widen maxElements) falseRate mem, 0) σ' := admitted
  have held := rep.holds_of_added returns
  obtain ⟨B', eff⟩ := returns.effect rep
  have rep' := eff.represents rep
  have size : (calculate E.libm (widen maxElements) falseRate).bytes ≠ 0 ∧
      (calculate E.libm (widen maxElements) falseRate).bytes ≤ serverBudget := by
    cases eff with
    | added absent init =>
        obtain ⟨_, nonzero, fits, _⟩ := bloomInit_eq_some init
        have below := (reachable_accounted run).budget
        refine ⟨nonzero, ?_⟩
        rw [UInt64.le_iff_toNat_le, UInt64.toNat_sub_of_le _ _ below,
          reachable_maxBytes run] at fits
        rw [UInt64.le_iff_toNat_le]
        omega
  have usable := admitted_iff size.1 size.2
  refine ⟨⟨_, _, _, held, rfl, ?_⟩, ?_⟩
  · rw [List.length_replicate]
    exact usable
  · intro positive T' τ later kept s
    have good : (newBloom E key (widen maxElements) falseRate).Usable _ :=
      ⟨rfl, UInt64.pos_iff_ne_zero.mp (usable.mpr positive).1, by
        rw [List.length_replicate]
        exact (usable.mpr positive).2⟩
    obtain ⟨B'', rep''⟩ := represents_of_run rep' later
    obtain ⟨b, map, found, still⟩ := usable_of_run (refines_run rep' later)
      (rep'.contents_of_holds held) good kept
    obtain ⟨p, there⟩ := rep''.contents_iff.mp found
    exact rep''.returns_of_usable there still s

theorem server_admission_positive :
    ∃ σ', serverAdd (serverEnv Libm.oneHalf) ⟨true, true⟩ [97] 32 0.5 (bloomsInit serverBudget []) =
        .ok (0, σ') ∧
      CanReturn (serverEnv Libm.oneHalf) σ' (.set [97] [120]) 0 := by
  obtain ⟨σ', admitted⟩ : ∃ σ', serverAdd (serverEnv Libm.oneHalf) ⟨true, true⟩ [97] 32 0.5
    (bloomsInit serverBudget []) = .ok (0, σ') := ⟨_, rfl⟩
  have later := (server_admission .nil admitted).2 (by decide) [] σ' .nil (by decide) [120]
  exact ⟨σ', admitted, later.1⟩

/-- A request for no elements is admitted, and the first set on its filter divides by zero. -/
theorem server_admits_zero :
    ∃ σ' p b, serverAdd (serverEnv Libm.oneHalf) ⟨true, true⟩ [97] 0 0.5
        (bloomsInit serverBudget []) = .ok (0, σ') ∧
      σ'.Holds [97] p b ∧ b.m = 0 ∧
      bloomsSet (serverEnv Libm.oneHalf) [97] [120] σ' = .error .divByZero := by
  have rep := bloomsInit_represents serverBudget []
  have returns : Returns (serverEnv Libm.oneHalf) (bloomsInit serverBudget [])
    (.add [97] (widen 0) 0.5 ⟨true, true⟩, 0) _ := rfl
  exact ⟨_, _, _, rfl, rep.holds_of_added returns, rfl, rfl⟩

end BloomServer
