import BloomServer.Accounting

/-! The memory budget of one process, and the one limit of its accounts: `count` is an `int`. -/
namespace BloomServer
open LabelledRun

/-- After any calls, `bytes` is the sum over the table and within the budget, `count` is the size
of the table as an `int`, and every filter has the size of its vector. -/
theorem memory_accounting {E : Env} {max : UInt64} {heap : List Node} {T : List Event} {σ : Store}
    (run : Run (Returns E) (bloomsInit max heap) T σ) :
    σ.blooms.bytes.toNat = σ.total (fun b => b.bytes.toNat) ∧
    σ.blooms.bytes ≤ σ.blooms.maxBytes ∧ σ.blooms.maxBytes = max ∧
    σ.blooms.count = Int32.ofNat σ.table.card ∧
    (σ.table.card < 2 ^ 31 → σ.blooms.count.toInt = σ.table.card) ∧
    (max.toNat < 136 * 2 ^ 31 → σ.table.card < 2 ^ 31) ∧
    (∀ key p b, σ.Holds key p b →
      ∃ map, b.vHash = some map ∧ b.bytes.toNat = sizeofBloom.toNat + 4 * map.length) ∧
    (∀ key n e mem r σ', r ≠ 0 →
      Returns E σ (.add key n e mem, r) σ' ∨ Returns E σ (.delete key, r) σ' → σ' = σ) := by
  obtain ⟨B, rep⟩ := reachable_represents run
  have acc := reachable_accounted run
  have budget := reachable_maxBytes run
  refine ⟨acc.bytes, acc.budget, budget, acc.count, ?_, ?_, ?_, ?_⟩
  · intro few
    rw [acc.count, Int32.toInt_ofNat_of_lt few]
  · exact reachable_card_lt run
  · exact fun key p b held => reachable_each (sized_kept E) run held
  · exact fun key n e mem r σ' failed returns => rep.eq_of_failed failed returns

theorem memory_accounting_readded :
    ∃ σ, Run (Returns (serverEnv Libm.oneHalf)) (bloomsInit 280 [])
      [(.add [99] 32 0.5 ⟨true, true⟩, 2), (.add [98] 32 0.5 ⟨true, true⟩, 0), (.delete [97], 0),
        (.add [97] 32 0.5 ⟨true, true⟩, 0)] σ ∧
      σ.blooms.bytes ≤ σ.blooms.maxBytes ∧ σ.blooms.count.toInt = σ.table.card := by
  refine Exists.imp (fun σ run => ⟨run, ?_⟩) (exists_run (by decide +kernel))
  obtain ⟨_, within, _, _, count, few, _⟩ := memory_accounting run
  exact ⟨within, count (few (by decide))⟩

/-! ### A table too large for `count` -/

/-- Distinct keys without NUL bytes: the digits of `i` to the base 128, each plus one. -/
def numberedKey (i : Nat) : CString :=
  [UInt8.ofNat (i % 128 + 1), UInt8.ofNat (i / 128 % 128 + 1), UInt8.ofNat (i / 128 ^ 2 % 128 + 1),
    UInt8.ofNat (i / 128 ^ 3 % 128 + 1), UInt8.ofNat (i / 128 ^ 4 % 128 + 1)]

theorem numberedKey_inj {i j : Nat} (hi : i < 2 ^ 32) (hj : j < 2 ^ 32)
    (same : numberedKey i = numberedKey j) : i = j := by
  have digit : ∀ a b : Nat, UInt8.ofNat (a % 128 + 1) = UInt8.ofNat (b % 128 + 1) →
      a % 128 = b % 128 := by
    intro a b same
    have values := congrArg UInt8.toNat same
    rw [UInt8.toNat_ofNat', UInt8.toNat_ofNat'] at values
    omega
  simp only [numberedKey, List.cons.injEq, and_true] at same
  obtain ⟨d₀, d₁, d₂, d₃, d₄⟩ := same
  have e₀ := digit _ _ d₀
  have e₁ := digit _ _ d₁
  have e₂ := digit _ _ d₂
  have e₃ := digit _ _ d₃
  have e₄ := digit _ _ d₄
  omega

/-- One more filter of 32 bits fits while less than `2 ^ 31` of them are there. -/
theorem exists_run_card (N : Nat) (bound : N ≤ 2 ^ 31) :
    ∃ T σ, Run (Returns (serverEnv Libm.oneHalf)) (bloomsInit 0xFFFFFFFFFFFFFFFF []) T σ ∧
      σ.table.card = N ∧ σ.blooms.bytes.toNat = 140 * N ∧ σ.blooms.maxBytes = 0xFFFFFFFFFFFFFFFF ∧
      ∀ i, N ≤ i → i < 2 ^ 32 → ¬ σ.Present (numberedKey i) := by
  induction N with
  | zero =>
      refine ⟨[], _, .nil, ?_, rfl, rfl, ?_⟩
      · rw [table_bloomsInit]
        rfl
      · rintro i _ _ ⟨p, b, held⟩
        obtain ⟨mem, _⟩ := (bloomsInit_represents _ _).holds_iff.mp held
        cases mem
  | succ N ih =>
      obtain ⟨T, σ, run, card, bytes, budget, free⟩ := ih (by omega)
      obtain ⟨B, rep⟩ := reachable_represents run
      have absent := free N (Nat.le_refl N) (by omega)
      have size : (calculate Libm.oneHalf 1 0.5).bytes = 140 := by decide
      have room : (140 : UInt64) ≤ σ.blooms.maxBytes - σ.blooms.bytes := by
        have top : (0xFFFFFFFFFFFFFFFF : UInt64).toNat = 0xFFFFFFFFFFFFFFFF := rfl
        rw [budget, UInt64.le_iff_toNat_le, UInt64.toNat_sub_of_le _ _ (by
          rw [UInt64.le_iff_toNat_le, top, bytes]
          omega), top, bytes]
        change 140 ≤ _
        omega
      have accepted : ¬ Rejects (serverEnv Libm.oneHalf) ⟨true, true⟩ σ.blooms 1 0.5 := by
        rintro (zero | large | fails)
        · exact absurd (size.symm.trans zero) (by decide)
        · change (calculate Libm.oneHalf 1 0.5).bytes > _ at large
          rw [size] at large
          exact absurd room (UInt64.not_le.mpr large)
        · cases fails
      have short : (numberedKey N).length < maxKeyLen := by
        change 5 < 32
        decide
      have init := bloomInit_accepts accepted rfl short
      rcases rep.add_cases (serverEnv Libm.oneHalf) ⟨true, true⟩ (numberedKey N) 1 0.5 with
        ⟨present, _⟩ | ⟨_, rejects, _⟩ | ⟨_, _, add⟩ | ⟨_, s, failed, _⟩
      · exact absurd present absent
      · exact absurd rejects accepted
      · have step : Returns (serverEnv Libm.oneHalf) σ
            (.add (numberedKey N) 1 0.5 ⟨true, true⟩, 0) _ := add
        refine ⟨_, _, run.snoc step, ?_, ?_, budget, ?_⟩
        · rw [(rep.table_added (w := fun _ => 0) absent rfl).1, card]
        · change (σ.blooms.bytes + (calculate Libm.oneHalf 1 0.5).bytes).toNat = _
          rw [size, UInt64.toNat_add, bytes]
          change (140 * N + 140) % 2 ^ 64 = _
          omega
        · rintro i later small ⟨p, b, held⟩
          rcases (rep.holds_added absent rfl).mp held with old | ⟨_, _, same⟩
          · exact free i (by omega) small ⟨p, b, old⟩
          · exact absurd (numberedKey_inj small (by omega) same) (by omega)
      · cases init.symm.trans failed

/-- With `2 ^ 31` filters in the table `count` is negative. -/
theorem count_wraps :
    ∃ T σ, Run (Returns (serverEnv Libm.oneHalf)) (bloomsInit 0xFFFFFFFFFFFFFFFF []) T σ ∧
      σ.table.card = 2 ^ 31 ∧ σ.blooms.count.toInt = -2 ^ 31 := by
  obtain ⟨T, σ, run, card, _⟩ := exists_run_card (2 ^ 31) (Nat.le_refl _)
  refine ⟨T, σ, run, card, ?_⟩
  rw [(reachable_accounted run).count, card]
  decide

end BloomServer
