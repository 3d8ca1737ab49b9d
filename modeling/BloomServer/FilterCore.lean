import BloomServer.FilterSize
import BloomServer.Library.WordBitmap
import BloomServer.Library.ProbeFilter

/-! One filter: its creation, and setting and getting subkeys. -/
namespace BloomServer

/-- What the code takes from outside: the mathematics library and the hash of a
subkey with `SALT_CONSTANT`, as the two words `checksum[0]` and `checksum[1]`. -/
structure Env where
  libm : Libm
  hash : CString → UInt64 × UInt64

/-- The environment of the server itself. -/
def serverEnv (L : Libm) : Env :=
  ⟨L, fun key => murmurHash3_x64_128_for_bloomfilter key saltConstant⟩

/-- How the two allocations of `bloom_init` turn out. -/
structure Alloc where
  malloc : Bool
  newVector : Bool
  deriving DecidableEq

/-- `map[i>>SHIFT] |= (1<<(i & MASK))`. -/
def bitmapSet (map : List Word) (i : UInt64) : Except Stop (List Word) :=
  let slot := (i >>> 5).toNat
  match map[slot]? with
  | some word => .ok (map.set slot (word ||| (1#32 <<< (i &&& 0x1F).toNat)))
  | none => .error .outOfBounds

/-- `map[i>>SHIFT] &= ~(1<<(i & MASK))`. -/
def bitmapClear (map : List Word) (i : UInt64) : Except Stop (List Word) :=
  let slot := (i >>> 5).toNat
  match map[slot]? with
  | some word => .ok (map.set slot (word &&& ~~~(1#32 <<< (i &&& 0x1F).toNat)))
  | none => .error .outOfBounds

/-- `map[i>>SHIFT] & (1<<(i & MASK))`. -/
def bitmapCheck (map : List Word) (i : UInt64) : Except Stop Word :=
  match map[(i >>> 5).toNat]? with
  | some word => .ok (word &&& (1#32 <<< (i &&& 0x1F).toNat))
  | none => .error .outOfBounds

/-- The filter `bloom_init` builds once its checks and allocations have succeeded. -/
def newBloom (E : Env) (key : CString) (n : UInt64) (e : Float) : Bloom :=
  let size := calculate E.libm n e
  { bytes := size.bytes, key := key, n := n, m := size.m
    getCount := 0, setCount := 0, getMissCount := 0
    e := e, e2 := size.e2, k := size.k
    vHash := some (List.replicate (wordsOf size.bytes) 0#32) }

/-- `bloom_init`; `none` is the `NULL` it returns. -/
def bloomInit (E : Env) (mem : Alloc) (blooms : Blooms) (key : CString) (n : UInt64) (e : Float) :
    Except Stop (Option Bloom) :=
  let bytes := (calculate E.libm n e).bytes
  if bytes = 0 then .ok none
  else if bytes > blooms.maxBytes - blooms.bytes then .ok none
  else if mem.malloc = false then .ok none
  else if mem.newVector = false then .error .badAlloc
  else if maxKeyLen ≤ key.length then .error .keyOverflow
  else .ok (some (newBloom E key n e))

/-- `(h1 + i * h2) % m`, where `h` is the checksum. -/
def probe (h : UInt64 × UInt64) (m : UInt64) (i : Nat) : Except Stop UInt64 :=
  if m = 0 then .error .divByZero
  else .ok ((h.1 + UInt64.ofNat i * h.2) % m)

/-- The loop of `bloom_set` from probe `i` on, with `rest` probes to go. -/
def setLoop (h : UInt64 × UInt64) (m : UInt64) : Nat → Nat → List Word → Except Stop (List Word)
  | 0, _, map => .ok map
  | rest + 1, i, map => do
      let hashes ← probe h m i
      let map ← bitmapSet map hashes
      setLoop h m rest (i + 1) map

/-- The loop of `bloom_get`; it stops at the first probe whose bit is clear. -/
def getLoop (h : UInt64 × UInt64) (m : UInt64) (map : List Word) : Nat → Nat → Except Stop Bool
  | 0, _ => .ok true
  | rest + 1, i => do
      let hashes ← probe h m i
      let word ← bitmapCheck map hashes
      if word = 0#32 then .ok false else getLoop h m map rest (i + 1)

/-- The number of rounds of `for (i = 0; i < bloom->k; i++)`. -/
def Bloom.rounds (b : Bloom) : Nat := b.k.toInt.toNat

def bloomSet (E : Env) (b : Bloom) (subkey : CString) : Except Stop Bloom :=
  match b.vHash with
  | none => .error .deadVector
  | some map => do
      let map ← setLoop (E.hash subkey) b.m b.rounds 0 map
      .ok { b with vHash := some map, setCount := b.setCount + 1 }

/-- `bloom_get` without the two counters of the global table, which `bloomsGet` bumps. -/
def bloomGet (E : Env) (b : Bloom) (subkey : CString) : Except Stop (Int × Bloom) :=
  match b.vHash with
  | none => .error .deadVector
  | some map => do
      if ← getLoop (E.hash subkey) b.m map b.rounds 0 then
        .ok (1, { b with getCount := b.getCount + 1 })
      else
        .ok (0, { b with getMissCount := b.getMissCount + 1 })

/-! ### The bit vector as a set of positions -/

theorem toNat_shiftRight_five (i : UInt64) : (i >>> 5).toNat = i.toNat / 32 := by
  rw [UInt64.toNat_shiftRight, Nat.shiftRight_eq_div_pow]
  rfl

theorem toNat_and_mask (i : UInt64) : (i &&& 0x1F).toNat = i.toNat % 32 := by
  rw [UInt64.toNat_and]
  exact Nat.and_two_pow_sub_one_eq_mod i.toNat 5

theorem bitmapSet_eq (map : List Word) {i : UInt64} (inside : i.toNat < 32 * map.length) :
    bitmapSet map i = .ok (WordBitmap.insert map i.toNat) := by
  have slot : i.toNat / 32 < map.length := Nat.div_lt_of_lt_mul inside
  simp only [bitmapSet, toNat_shiftRight_five, toNat_and_mask, List.getElem?_eq_getElem slot,
    WordBitmap.insert, WordBitmap.mask, List.modify_eq_set_getElem?, Option.map_eq_map,
    Option.map_some, Option.getD_some]

theorem bitmapClear_eq (map : List Word) {i : UInt64} (inside : i.toNat < 32 * map.length) :
    bitmapClear map i = .ok (WordBitmap.erase map i.toNat) := by
  have slot : i.toNat / 32 < map.length := Nat.div_lt_of_lt_mul inside
  simp only [bitmapClear, toNat_shiftRight_five, toNat_and_mask, List.getElem?_eq_getElem slot,
    WordBitmap.erase, WordBitmap.mask, List.modify_eq_set_getElem?, Option.map_eq_map,
    Option.map_some, Option.getD_some]

theorem bitmapCheck_eq (map : List Word) {i : UInt64} (inside : i.toNat < 32 * map.length) :
    ∃ word, bitmapCheck map i = .ok word ∧
      (word = 0#32 ↔ WordBitmap.test map i.toNat = false) := by
  have slot : i.toNat / 32 < map.length := Nat.div_lt_of_lt_mul inside
  refine ⟨map[i.toNat / 32] &&& WordBitmap.mask 32 i.toNat, ?_, ?_⟩
  · simp only [bitmapCheck, toNat_shiftRight_five, toNat_and_mask, List.getElem?_eq_getElem slot,
      WordBitmap.mask]
  · rw [← not_iff_not, ← ne_eq, WordBitmap.and_mask_ne_zero_iff _ _ (by decide),
      WordBitmap.test, List.getElem?_eq_getElem slot, Bool.not_eq_false]

theorem bitmapCheck_ok (map : List Word) {i : UInt64} (inside : i.toNat < 32 * map.length) :
    ∃ word, bitmapCheck map i = .ok word ∧ (word ≠ 0#32 ↔ i.toNat ∈ WordBitmap.members map) := by
  obtain ⟨word, read, clear⟩ := bitmapCheck_eq map inside
  refine ⟨word, read, ?_⟩
  rw [ne_eq, clear, Bool.not_eq_false, WordBitmap.mem_members]

/-- Probe position `i` of a checksum in a filter of `m` bits. -/
def position (h : UInt64 × UInt64) (m : UInt64) (i : Nat) : Nat :=
  ((h.1 + UInt64.ofNat i * h.2) % m).toNat

/-- The probe positions of a subkey in a filter. -/
def probesOf (E : Env) (m : UInt64) (rounds : Nat) (subkey : CString) : Set Nat :=
  { x | ∃ i < rounds, position (E.hash subkey) m i = x }

theorem position_lt (h : UInt64 × UInt64) {m : UInt64} (hm : m ≠ 0) (i : Nat) :
    position h m i < m.toNat := by
  have positive : 0 < m.toNat := Nat.pos_of_ne_zero fun zero => hm (UInt64.toNat_inj.mp zero)
  rw [position, UInt64.toNat_mod]
  exact Nat.mod_lt _ positive

theorem setLoop_spec (h : UInt64 × UInt64) {m : UInt64} (hm : m ≠ 0) (rest i : Nat) (map : List Word)
    (fits : m.toNat ≤ 32 * map.length) :
    ∃ map', setLoop h m rest i map = .ok map' ∧ map'.length = map.length ∧
      WordBitmap.members map' =
        { x | ∃ j, i ≤ j ∧ j < i + rest ∧ position h m j = x } ∪ WordBitmap.members map := by
  induction rest generalizing i map with
  | zero =>
      refine ⟨map, rfl, rfl, ?_⟩
      ext x
      constructor
      · exact fun mem => Or.inr mem
      · rintro (⟨j, low, high, -⟩ | mem)
        · omega
        · exact mem
  | succ rest ih =>
      have inside : position h m i < 32 * map.length := (position_lt h hm i).trans_le fits
      have write := bitmapSet_eq map inside
      obtain ⟨map', run, size, bits⟩ := ih (i + 1) (WordBitmap.insert map (position h m i))
        (by rw [WordBitmap.length_insert]; exact fits)
      refine ⟨map', ?_, size.trans (WordBitmap.length_insert _ _), ?_⟩
      · simp only [setLoop, probe, if_neg hm]
        change (bitmapSet map _ >>= fun map => setLoop h m rest (i + 1) map) = _
        rw [write]
        exact run
      · rw [bits, WordBitmap.members_insert inside]
        ext x
        constructor
        · rintro (⟨j, low, high, rfl⟩ | rfl | mem)
          · exact Or.inl ⟨j, by omega, by omega, rfl⟩
          · exact Or.inl ⟨i, by omega, by omega, rfl⟩
          · exact Or.inr mem
        · rintro (⟨j, low, high, rfl⟩ | mem)
          · by_cases first : j = i
            · exact Or.inr (Or.inl (by rw [first]))
            · exact Or.inl ⟨j, by omega, by omega, rfl⟩
          · exact Or.inr (Or.inr mem)

theorem getLoop_spec (h : UInt64 × UInt64) {m : UInt64} (hm : m ≠ 0) (map : List Word)
    (fits : m.toNat ≤ 32 * map.length) (rest i : Nat) :
    ∃ hit, getLoop h m map rest i = .ok hit ∧
      (hit = true ↔ ∀ j, i ≤ j → j < i + rest → position h m j ∈ WordBitmap.members map) := by
  induction rest generalizing i with
  | zero => exact ⟨true, rfl, by simp only [true_iff]; intro j low high; omega⟩
  | succ rest ih =>
      have inside : position h m i < 32 * map.length := (position_lt h hm i).trans_le fits
      obtain ⟨word, read, clear⟩ := bitmapCheck_eq map inside
      obtain ⟨hit, run, all⟩ := ih (i + 1)
      have start : getLoop h m map (rest + 1) i =
          if word = 0#32 then .ok false else getLoop h m map rest (i + 1) := by
        simp only [getLoop, probe, if_neg hm]
        change (bitmapCheck map _ >>= fun word =>
          if word = 0#32 then .ok false else getLoop h m map rest (i + 1)) = _
        rw [read]
        rfl
      rw [start]
      by_cases zero : word = 0#32
      · refine ⟨false, if_pos zero, ?_⟩
        simp only [Bool.false_eq_true, false_iff]
        intro every
        have bit := every i (Nat.le_refl i) (by omega)
        rw [WordBitmap.mem_members] at bit
        exact absurd (clear.mp zero) (by rw [position] at bit; rw [bit]; decide)
      · refine ⟨hit, by rw [if_neg zero, run], ?_⟩
        have bit : position h m i ∈ WordBitmap.members map := by
          rw [WordBitmap.mem_members, ← Bool.not_eq_false]
          exact fun unset => zero (clear.mpr unset)
        rw [all]
        constructor
        · intro every j low high
          by_cases first : j = i
          · rw [first]; exact bit
          · exact every j (by omega) (by omega)
        · exact fun every j low high => every j (by omega) (by omega)

/-! ### What the operations do to a filter whose vector holds `m` bits -/

/-- A live filter: its vector exists and holds at least `m > 0` bits. -/
structure Bloom.Usable (b : Bloom) (map : List Word) : Prop where
  vector : b.vHash = some map
  modulus : b.m ≠ 0
  fits : b.m.toNat ≤ 32 * map.length

theorem bloomSet_spec (E : Env) {b : Bloom} {map : List Word} (h : b.Usable map) (subkey : CString) :
    ∃ map', bloomSet E b subkey =
        .ok { b with vHash := some map', setCount := b.setCount + 1 } ∧
      map'.length = map.length ∧
      WordBitmap.members map' = probesOf E b.m b.rounds subkey ∪ WordBitmap.members map := by
  obtain ⟨map', run, size, bits⟩ := setLoop_spec (E.hash subkey) h.modulus b.rounds 0 map h.fits
  refine ⟨map', ?_, size, ?_⟩
  · simp only [bloomSet, h.vector, run]
    rfl
  · rw [bits]
    congr 1
    ext x
    simp only [probesOf, Set.mem_ofPred_eq, Nat.zero_le, true_and, Nat.zero_add]

theorem bloomGet_spec (E : Env) {b : Bloom} {map : List Word} (h : b.Usable map) (subkey : CString) :
    (ProbeFilter.Answers (probesOf E b.m b.rounds) (WordBitmap.members map) subkey ∧
      bloomGet E b subkey = .ok (1, { b with getCount := b.getCount + 1 })) ∨
    (¬ ProbeFilter.Answers (probesOf E b.m b.rounds) (WordBitmap.members map) subkey ∧
      bloomGet E b subkey = .ok (0, { b with getMissCount := b.getMissCount + 1 })) := by
  obtain ⟨hit, run, all⟩ := getLoop_spec (E.hash subkey) h.modulus map h.fits b.rounds 0
  have answers : ProbeFilter.Answers (probesOf E b.m b.rounds) (WordBitmap.members map) subkey ↔
      hit = true := by
    rw [all]
    constructor
    · exact fun sub j _ high => sub ⟨j, by omega, rfl⟩
    · rintro every x ⟨j, high, rfl⟩
      exact every j (Nat.zero_le j) (by omega)
  cases hit with
  | true =>
      refine Or.inl ⟨answers.mpr rfl, ?_⟩
      simp only [bloomGet, h.vector, run]
      rfl
  | false =>
      refine Or.inr ⟨fun sub => absurd (answers.mp sub) (by decide), ?_⟩
      simp only [bloomGet, h.vector, run]
      rfl

/-! ### What they leave alone, whatever the parameters of the filter -/

theorem bitmapSet_length {map map' : List Word} {i : UInt64} (h : bitmapSet map i = .ok map') :
    map'.length = map.length := by
  unfold bitmapSet at h
  dsimp only at h
  split at h
  · cases h
    exact List.length_set
  · cases h

theorem setLoop_length {h : UInt64 × UInt64} {m : UInt64} {rest i : Nat} {map map' : List Word}
    (run : setLoop h m rest i map = .ok map') : map'.length = map.length := by
  induction rest generalizing i map with
  | zero => cases run; rfl
  | succ rest ih =>
      simp only [setLoop, probe] at run
      split_ifs at run with zero
      · cases run
      · change (bitmapSet map _ >>= fun map => setLoop h m rest (i + 1) map) = _ at run
        cases write : bitmapSet map ((h.1 + UInt64.ofNat i * h.2) % m) with
        | error s => rw [write] at run; cases run
        | ok mid =>
            rw [write] at run
            exact (ih run).trans (bitmapSet_length write)

/-- `bloom_set` writes bits and its counter, nothing else. -/
theorem bloomSet_frame {E : Env} {b b' : Bloom} {subkey : CString}
    (h : bloomSet E b subkey = .ok b') :
    ∃ map map', b.vHash = some map ∧ map'.length = map.length ∧
      b' = { b with vHash := some map', setCount := b.setCount + 1 } := by
  unfold bloomSet at h
  split at h
  · cases h
  · rename_i map vector
    cases run : setLoop (E.hash subkey) b.m b.rounds 0 map with
    | error s => rw [run] at h; cases h
    | ok map' =>
        rw [run] at h
        cases h
        exact ⟨map, map', vector, setLoop_length run, rfl⟩

/-- `bloom_get` returns 0 or 1 and writes one of its two counters, nothing else. -/
theorem bloomGet_frame {E : Env} {b b' : Bloom} {subkey : CString} {r : Int}
    (h : bloomGet E b subkey = .ok (r, b')) :
    b.vHash.isSome ∧ ((r = 1 ∧ b' = { b with getCount := b.getCount + 1 }) ∨
      (r = 0 ∧ b' = { b with getMissCount := b.getMissCount + 1 })) := by
  unfold bloomGet at h
  split at h
  · cases h
  · rename_i map vector
    refine ⟨by rw [vector]; rfl, ?_⟩
    cases run : getLoop (E.hash subkey) b.m map b.rounds 0 with
    | error s => rw [run] at h; cases h
    | ok hit =>
        rw [run] at h
        cases hit with
        | true => cases h; exact Or.inl ⟨rfl, rfl⟩
        | false => cases h; exact Or.inr ⟨rfl, rfl⟩

/-! ### `bloom_init` -/

/-- `bloom_init` returns `NULL`: the size does not exist, exceeds the budget left, or `malloc` fails. -/
def Rejects (E : Env) (mem : Alloc) (blooms : Blooms) (n : UInt64) (e : Float) : Prop :=
  (calculate E.libm n e).bytes = 0 ∨
  (calculate E.libm n e).bytes > blooms.maxBytes - blooms.bytes ∨
  mem.malloc = false

instance (E : Env) (mem : Alloc) (blooms : Blooms) (n : UInt64) (e : Float) :
    Decidable (Rejects E mem blooms n e) := by
  unfold Rejects
  infer_instance

theorem bloomInit_eq_none_iff {E : Env} {mem : Alloc} {blooms : Blooms} {key : CString}
    {n : UInt64} {e : Float} :
    bloomInit E mem blooms key n e = .ok none ↔ Rejects E mem blooms n e := by
  unfold bloomInit Rejects
  dsimp only
  split_ifs with zero large fails throws long <;> simp_all

theorem bloomInit_eq_some {E : Env} {mem : Alloc} {blooms : Blooms} {key : CString}
    {n : UInt64} {e : Float} {b : Bloom} (h : bloomInit E mem blooms key n e = .ok (some b)) :
    b = newBloom E key n e ∧ (calculate E.libm n e).bytes ≠ 0 ∧
      (calculate E.libm n e).bytes ≤ blooms.maxBytes - blooms.bytes ∧ key.length < maxKeyLen ∧
      mem.newVector = true := by
  unfold bloomInit at h
  dsimp only at h
  split_ifs at h with zero large fails throws long
  · cases h
  · cases h
  · cases h
  · cases h
    exact ⟨rfl, zero, UInt64.not_lt.mp large, Nat.lt_of_not_le long, Bool.not_eq_false _ ▸ throws⟩

/-- The only failure under a key that fits is that of the vector. -/
theorem bloomInit_eq_error {E : Env} {mem : Alloc} {blooms : Blooms} {key : CString}
    {n : UInt64} {e : Float} {s : Stop} (h : bloomInit E mem blooms key n e = .error s)
    (short : key.length < maxKeyLen) : s = .badAlloc ∧ mem.newVector = false := by
  unfold bloomInit at h
  dsimp only at h
  split_ifs at h with zero large fails throws long
  · cases h
    exact ⟨rfl, throws⟩
  · exact absurd short (Nat.not_lt_of_le long)

theorem bloomInit_eq_badAlloc {E : Env} {mem : Alloc} {blooms : Blooms} {key : CString}
    {n : UInt64} {e : Float} (h : bloomInit E mem blooms key n e = .error .badAlloc) :
    ¬ Rejects E mem blooms n e ∧ mem.newVector = false := by
  unfold bloomInit at h
  unfold Rejects
  dsimp only at h
  split_ifs at h with zero large fails throws long
  · exact ⟨by tauto, throws⟩
  · cases h

theorem bloomInit_badAlloc {E : Env} {mem : Alloc} {blooms : Blooms} {key : CString}
    {n : UInt64} {e : Float} (ok : ¬ Rejects E mem blooms n e) (vector : mem.newVector = false) :
    bloomInit E mem blooms key n e = .error .badAlloc := by
  unfold Rejects at ok
  push Not at ok
  unfold bloomInit
  dsimp only
  rw [if_neg ok.1, if_neg ok.2.1, if_neg ok.2.2, if_pos vector]

theorem bloomInit_accepts {E : Env} {mem : Alloc} {blooms : Blooms} {key : CString}
    {n : UInt64} {e : Float} (ok : ¬ Rejects E mem blooms n e) (vector : mem.newVector = true)
    (short : key.length < maxKeyLen) :
    bloomInit E mem blooms key n e = .ok (some (newBloom E key n e)) := by
  obtain ⟨nonzero, fits, memory⟩ : (calculate E.libm n e).bytes ≠ 0 ∧
      ¬ (calculate E.libm n e).bytes > blooms.maxBytes - blooms.bytes ∧ mem.malloc ≠ false :=
    ⟨fun h => ok (Or.inl h), fun h => ok (Or.inr (Or.inl h)), fun h => ok (Or.inr (Or.inr h))⟩
  unfold bloomInit
  dsimp only
  rw [if_neg nonzero, if_neg fits, if_neg memory, if_neg (by simp [vector]),
    if_neg (Nat.not_le_of_lt short)]

/-! ### The vector of a new filter has room for its bits -/

theorem wordsOf_eq {m : UInt64} (below : m.toNat < 2 ^ 64 - 31) :
    wordsOf (bitBytes m + sizeofBloom) = (m.toNat + 31) / 32 := by
  have sum : (m + 0x1F).toNat = m.toNat + 31 := by
    rw [UInt64.toNat_add]
    change (m.toNat + 31) % 2 ^ 64 = _
    omega
  rw [wordsOf_sizeBytes, sum]

theorem newBloom_words {E : Env} (key : CString) {n : UInt64} {e : Float}
    (sized : (calculate E.libm n e).bytes ≠ 0) :
    ∃ words, (newBloom E key n e).vHash = some words ∧
      words.length = wordsOf (bitBytes (newBloom E key n e).m + sizeofBloom) := by
  refine ⟨_, rfl, ?_⟩
  rw [List.length_replicate]
  cases large : overflows (sizing E.libm e).1 n with
  | true => exact absurd (by rw [calculate_of_overflows large]; rfl) sized
  | false => simp only [newBloom, calculate_of_not_overflows large]

/-- The words are the set of the positions whose bits they hold: setting a position adds it,
clearing one removes it, and `bloom_init` allocates as many words as the bits need. -/
theorem bitmap_refines (v : List Word) (i j : UInt64) (hi : i.toNat < 32 * v.length)
    (hj : j.toNat < 32 * v.length) (m : UInt64) (hm : m.toNat < 2 ^ 64 - 31) :
    (∃ old, bitmapCheck v j = .ok old ∧
      (∃ v' new, bitmapSet v i = .ok v' ∧ bitmapCheck v' j = .ok new ∧
        (new ≠ 0#32 ↔ i = j ∨ old ≠ 0#32)) ∧
      (∃ v' new, bitmapClear v i = .ok v' ∧ bitmapCheck v' j = .ok new ∧
        (new ≠ 0#32 ↔ i ≠ j ∧ old ≠ 0#32))) ∧
    wordsOf (bitBytes m + sizeofBloom) = (m.toNat + 31) / 32 ∧
    ∀ (E : Env) (mem : Alloc) (blooms : Blooms) (key : CString) (n : UInt64) (e : Float) (b : Bloom),
      bloomInit E mem blooms key n e = .ok (some b) → b.m = m →
        ∃ words, b.vHash = some words ∧ words.length = (m.toNat + 31) / 32 := by
  have same : j.toNat = i.toNat ↔ i = j := ⟨fun h => UInt64.toNat_inj.mp h.symm, fun h => by rw [h]⟩
  obtain ⟨old, read, bit⟩ := bitmapCheck_ok v hj
  refine ⟨⟨old, read, ?_, ?_⟩, wordsOf_eq hm, ?_⟩
  · obtain ⟨new, after, newBit⟩ := bitmapCheck_ok (WordBitmap.insert v i.toNat)
      (by rw [WordBitmap.length_insert]; exact hj)
    refine ⟨_, new, bitmapSet_eq v hi, after, ?_⟩
    rw [newBit, WordBitmap.members_insert hi, Set.mem_insert_iff, same, bit]
  · obtain ⟨new, after, newBit⟩ := bitmapCheck_ok (WordBitmap.erase v i.toNat)
      (by rw [WordBitmap.length_erase]; exact hj)
    refine ⟨_, new, bitmapClear_eq v hi, after, ?_⟩
    rw [newBit, WordBitmap.members_erase hi, Set.mem_sdiff, Set.mem_singleton_iff, same, bit, and_comm]
  · rintro E mem blooms key n e b run rfl
    obtain ⟨rfl, sized, -⟩ := bloomInit_eq_some run
    obtain ⟨words, vector, size⟩ := newBloom_words key sized
    exact ⟨words, vector, by rw [size, wordsOf_eq hm]⟩

theorem bitmap_refines_lastBit :
    ∃ old, bitmapCheck [0#32, 0x80000001#32] 63 = .ok old ∧
      ∃ v' new, bitmapClear [0#32, 0x80000001#32] 31 = .ok v' ∧ bitmapCheck v' 63 = .ok new ∧
        (new ≠ 0#32 ↔ (31 : UInt64) ≠ 63 ∧ old ≠ 0#32) := by
  obtain ⟨⟨old, read, -, clear⟩, -⟩ := bitmap_refines [0#32, 0x80000001#32] 31 63 (by decide)
    (by decide) 0 (by decide)
  exact ⟨old, read, clear⟩

end BloomServer
