import BloomServer.LayoutEffect

/-! The filter that `blooms_add` creates: whether it has the key and the parameters it was given,
and what the later calls leave of them. -/
namespace BloomServer
open LinkedChain ByteCodec ByteFile LabelledRun LayoutStore

/-! ### The members of a new filter -/

/-- The members that `bloom_init` assigns behind the key, and no later call: their offsets and
their bytes. -/
def members (size : Size) (n : UInt64) (e : Float) (v : ℕ) : List (ℕ × List UInt8) :=
  [(offsetM, toBytes 8 size.m.toNat), (offsetE, toBytes 8 e.toBits.toNat),
    (offsetE2, toBytes 8 size.e2.toBits.toNat), (offsetK, toBytes 4 size.k.toUInt32.toNat),
    (offsetN, toBytes 8 n.toNat), (offsetVHash, toBytes 8 v)]

/-- The offsets of the counters. -/
def counters : List ℕ := [offsetGetCount, offsetSetCount, offsetGetMissCount]

theorem members_apart {size : Size} {n : UInt64} {e : Float} {v : ℕ} {x : ℕ × List UInt8}
    (mem : x ∈ members size n e v) {offset : ℕ} (counter : offset ∈ counters) :
    x.1 + x.2.length ≤ offset ∨ offset + 8 ≤ x.1 := by
  simp only [counters, List.mem_cons, List.not_mem_nil, or_false] at counter
  simp only [members, List.mem_cons, List.not_mem_nil, or_false] at mem
  rcases mem with rfl | rfl | rfl | rfl | rfl | rfl <;>
    rcases counter with rfl | rfl | rfl <;>
      simp [offsetN, offsetM, offsetE, offsetE2, offsetK, offsetVHash, offsetGetCount,
        offsetSetCount, offsetGetMissCount]

theorem members_inside {size : Size} {n : UInt64} {e : Float} {v : ℕ} {x : ℕ × List UInt8}
    (mem : x ∈ members size n e v) : 32 ≤ x.1 ∧ x.1 + x.2.length ≤ bodySize := by
  simp only [members, List.mem_cons, List.not_mem_nil, or_false] at mem
  rcases mem with rfl | rfl | rfl | rfl | rfl | rfl <;>
    simp [offsetN, offsetM, offsetE, offsetE2, offsetK, offsetVHash, bodySize]

theorem counters_inside {offset : ℕ} (counter : offset ∈ counters) :
    48 ≤ offset ∧ offset + 8 ≤ bodySize := by
  simp only [counters, List.mem_cons, List.not_mem_nil, or_false] at counter
  rcases counter with rfl | rfl | rfl <;>
    simp [offsetGetCount, offsetSetCount, offsetGetMissCount, bodySize]

namespace LayoutNode

/-- What no later call is to change: the key, `n`, `m`, `k`, the bits of `e`, and the vector. -/
def params (nd : LayoutNode) : CString × UInt64 × UInt64 × Int32 × UInt64 × ℕ :=
  (nd.key, nd.n, nd.m, nd.k, nd.eBits, nd.vHash)

/-- The node has the key and the members that `bloom_init` assigned. -/
structure Initialised (size : Size) (key : CString) (n : UInt64) (e : Float) (v : ℕ)
    (nd : LayoutNode) : Prop where
  key_eq : nd.key = key
  members : nd.m = size.m ∧ nd.eBits = e.toBits ∧ nd.e2Bits = size.e2.toBits ∧ nd.k = size.k ∧
    nd.n = n ∧ nd.vHash = v
  counters : nd.getCount = 0 ∧ nd.setCount = 0 ∧ nd.getMissCount = 0

variable {nd : LayoutNode} {body : ByteFile} {offset v : ℕ}

theorem number64_iff (inside : offset + 8 ≤ body.size) (x : UInt64) :
    UInt64.ofNat (body.number offset 8) = x ↔ At body offset (toBytes 8 x.toNat) := by
  rw [← number_eq_iff inside x.toNat_lt]
  constructor
  · rintro rfl
    have small : body.number offset 8 < 2 ^ 64 := number_lt body offset 8
    rw [UInt64.toNat_ofNat', Nat.mod_eq_of_lt small]
  · intro same
    rw [same, UInt64.ofNat_toNat]

theorem number32_iff (inside : offset + 4 ≤ body.size) (x : Int32) :
    (UInt32.ofNat (body.number offset 4)).toInt32 = x ↔
      At body offset (toBytes 4 x.toUInt32.toNat) := by
  rw [← number_eq_iff inside x.toUInt32.toNat_lt]
  constructor
  · rintro rfl
    have small : body.number offset 4 < 2 ^ 32 := number_lt body offset 4
    rw [UInt32.toUInt32_toInt32, UInt32.toNat_ofNat', Nat.mod_eq_of_lt small]
  · intro same
    rw [same, UInt32.ofNat_toNat, Int32.toInt32_toUInt32]

/-- A node has its members exactly if their bytes stand in it. -/
theorem members_iff {size : Size} {n : UInt64} {e : Float} (whole : bodySize ≤ nd.body.size)
    (pointer : v < 2 ^ 64) :
    (nd.m = size.m ∧ nd.eBits = e.toBits ∧ nd.e2Bits = size.e2.toBits ∧ nd.k = size.k ∧ nd.n = n ∧
      nd.vHash = v) ↔ ∀ x ∈ members size n e v, At nd.body x.1 x.2 := by
  have member : ∀ offset, offset + 8 ≤ bodySize → ∀ x : UInt64,
      UInt64.ofNat (nd.body.number offset 8) = x ↔ At nd.body offset (toBytes 8 x.toNat) :=
    fun offset fits x => number64_iff (fits.trans whole) x
  have vHash_iff : nd.body.number offsetVHash 8 = v ↔ At nd.body offsetVHash (toBytes 8 v) :=
    number_eq_iff ((by decide : offsetVHash + 8 ≤ bodySize).trans whole) pointer
  simp only [members, List.forall_mem_cons, List.not_mem_nil, IsEmpty.forall_iff, implies_true,
    and_true]
  exact and_congr (member offsetM (by decide) size.m)
    (and_congr (member offsetE (by decide) e.toBits)
      (and_congr (member offsetE2 (by decide) size.e2.toBits)
        (and_congr (number32_iff ((by decide : offsetK + 4 ≤ bodySize).trans whole) size.k)
          (and_congr (member offsetN (by decide) n) vHash_iff))))

theorem counters_iff (whole : bodySize ≤ nd.body.size) :
    (nd.getCount = 0 ∧ nd.setCount = 0 ∧ nd.getMissCount = 0) ↔
      ∀ offset ∈ counters, At nd.body offset (toBytes 8 0) := by
  have counter : ∀ offset, offset + 8 ≤ bodySize →
      (UInt64.ofNat (nd.body.number offset 8) = 0 ↔ At nd.body offset (toBytes 8 0)) :=
    fun offset fits => number64_iff (fits.trans whole) 0
  simp only [counters, List.forall_mem_cons, List.not_mem_nil, IsEmpty.forall_iff, implies_true,
    and_true]
  exact and_congr (counter offsetGetCount (by decide)) (and_congr (counter offsetSetCount (by decide))
    (counter offsetGetMissCount (by decide)))

end LayoutNode

section NewBody

variable {size : Size} {key : CString} {n : UInt64} {e : Float} {v offset : ℕ} {data : List UInt8}

theorem at_zeros {width : ℕ} (inside : offset + width ≤ bodySize) :
    At ⟨fun _ => 0, bodySize⟩ offset (toBytes width 0) := by
  have zeros : ∀ width, toBytes width 0 = List.replicate width 0 := by
    intro width
    induction width with
    | zero => rfl
    | succ width ih => rw [toBytes, Nat.zero_div, ih, List.replicate_succ]; rfl
  refine ⟨by rw [length_toBytes]; exact inside, fun i b place => ?_⟩
  rw [zeros, List.getElem?_replicate] at place
  split_ifs at place
  exact Option.some.inj place

theorem newBody_eq : newBody size n e v = fill ⟨fun _ => 0, bodySize⟩ (members size n e v) := rfl

theorem size_newBody : (newBody size n e v).size = bodySize :=
  size_fill fun _ mem => (members_inside mem).2

/-- Before the key is copied the node has its members, and counters of zero. -/
theorem at_newBody : (∀ x ∈ members size n e v, At (newBody size n e v) x.1 x.2) ∧
    ∀ offset ∈ counters, At (newBody size n e v) offset (toBytes 8 0) := by
  rw [newBody_eq]
  constructor
  · refine at_fill ?_ fun x mem => (members_inside mem).2
    simp [members, Apart, offsetM, offsetE, offsetE2, offsetK, offsetN, offsetVHash]
  · intro offset counter
    refine (at_zeros (counters_inside counter).2).fill fun x mem => ?_
    have apart := members_apart mem counter
    rw [Apart, length_toBytes]
    exact apart.symm

/-- A member survives the copy of the key if the key has the same bytes where it reaches into it. -/
theorem at_copyKey_iff (old : At (newBody size n e v) offset data) :
    At (copyKey (newBody size n e v) key) offset data ↔
      ∀ i b c, data[i]? = some b → (key ++ [0])[offset + i]? = some c → c = b := by
  constructor
  · intro h i b c place new
    exact agree_of_at_pwrite h place (Nat.zero_le _) new
  · intro agree
    exact old.pwrite_agree fun i b c place _ new => agree i b c place new

theorem at_copyKey : At (copyKey (newBody size n e v) key) 0 (key ++ [0]) :=
  at_pwrite _ fun _ => Nat.zero_le _

end NewBody

/-! ### Keys that fit -/

/-- No `blooms_set` and no `blooms_get` of such a filter returns: it has probes, and no word for
them. -/
def Size.Dead (size : Size) : Prop := wordsOf size.bytes = 0 ∧ 0 < size.k.toInt

instance (size : Size) : Decidable size.Dead := by
  unfold Size.Dead
  infer_instance

/-- What a `bloom_t` holds from `n` on before any call has counted. -/
def behindKey (size : Size) (n : UInt64) : List UInt8 :=
  toBytes 8 n.toNat ++ toBytes 8 size.m.toNat

/-- What is copied past the member `key`, with its NUL, are the bytes that `n` and `m` have anyway.
Where no call will ever count a hit, the NUL may also be the first byte of `get_count`. -/
def KeyFits (size : Size) (n : UInt64) (key : CString) : Prop :=
  (key ++ [0]).drop maxKeyLen <+: behindKey size n ++ if size.Dead then [0] else []

instance (size : Size) (n : UInt64) (key : CString) : Decidable (KeyFits size n key) := by
  unfold KeyFits
  infer_instance

section KeyFits

variable {size : Size} {key : CString} {n : UInt64} {e : Float} {v : ℕ}

theorem length_behindKey : (behindKey size n).length = 16 := by
  rw [behindKey, List.length_append, length_toBytes, length_toBytes]

/-- Every key of at most 31 bytes fits. -/
theorem keyFits_of_short (short : key.length < maxKeyLen) : KeyFits size n key := by
  have none : (key ++ [0]).drop maxKeyLen = [] := by
    rw [List.drop_eq_nil_iff, List.length_append]
    exact short
  rw [KeyFits, none]
  exact List.nil_prefix

theorem keyFits_iff : KeyFits size n key ↔
    (key ++ [0]).drop maxKeyLen <+: behindKey size n ++ [0] ∧ (key.length < 48 ∨ size.Dead) := by
  have length : ((key ++ [0]).drop maxKeyLen).length = key.length + 1 - 32 := by
    rw [List.length_drop, List.length_append]
    rfl
  rw [KeyFits]
  by_cases dead : size.Dead
  · rw [if_pos dead]
    exact ⟨fun fits => ⟨fits, Or.inr dead⟩, And.left⟩
  · rw [if_neg dead, List.append_nil, List.prefix_concat_iff]
    constructor
    · intro fits
      have short := fits.length_le
      rw [length, length_behindKey] at short
      exact ⟨Or.inr fits, Or.inl (by omega)⟩
    · rintro ⟨whole | fits, short | out⟩
      · have full := congrArg List.length whole
        rw [length, List.length_append, length_behindKey] at full
        simp only [List.length_cons, List.length_nil] at full
        omega
      · exact absurd out dead
      · exact fits
      · exact absurd out dead

theorem byte_lt {l : List UInt8} {i : ℕ} {b : UInt8} (place : l[i]? = some b) : i < l.length :=
  (List.getElem?_eq_some_iff.mp place).1

/-- Copying the key leaves the members and the counters exactly if the copy runs into `n` and `m`
with their own bytes, and with no more than its NUL into `get_count`. -/
theorem copyKey_keeps_iff (noNul : 0 ∉ key) :
    ((∀ x ∈ members size n e v, At (copyKey (newBody size n e v) key) x.1 x.2) ∧
      ∀ offset ∈ counters, At (copyKey (newBody size n e v) key) offset (toBytes 8 0)) ↔
    (key ++ [0]).drop maxKeyLen <+: behindKey size n ++ [0] := by
  have oldMembers : ∀ x ∈ members size n e v, At (newBody size n e v) x.1 x.2 := at_newBody.1
  have oldCounters : ∀ offset ∈ counters, At (newBody size n e v) offset (toBytes 8 0) := at_newBody.2
  have shift : ∀ i, ((key ++ [0]).drop maxKeyLen)[i]? = (key ++ [0])[32 + i]? :=
    fun i => List.getElem?_drop
  have last : ∀ {i : ℕ} {c}, 48 ≤ i → (key ++ [0])[i]? = some c → key.length ≤ 48 → c = 0 := by
    intro i c high place short
    have inside := byte_lt place
    rw [List.length_append, List.length_singleton] at inside
    rw [List.getElem?_append_right (by omega)] at place
    have zero : i - key.length = 0 := by omega
    rw [zero, List.getElem?_cons_zero] at place
    exact (Option.some.inj place).symm
  have front : ∀ {i : ℕ} {b}, (toBytes 8 n.toNat)[i]? = some b → (behindKey size n)[i]? = some b := by
    intro i b place
    rw [behindKey, List.getElem?_append_left (byte_lt place), place]
  have back : ∀ {i : ℕ} {b}, (toBytes 8 size.m.toNat)[i]? = some b →
      (behindKey size n)[8 + i]? = some b := by
    intro i b place
    rw [behindKey, List.getElem?_append_right (by rw [length_toBytes]; omega), length_toBytes,
      Nat.add_sub_cancel_left, place]
  rw [List.prefix_iff_getElem?]
  constructor
  · rintro ⟨atMembers, atCounters⟩
    have memN : (offsetN, toBytes 8 n.toNat) ∈ members size n e v := by simp [members]
    have memM : (offsetM, toBytes 8 size.m.toNat) ∈ members size n e v := by simp [members]
    have agreeN := (at_copyKey_iff (oldMembers _ memN)).mp (atMembers _ memN)
    have agreeM := (at_copyKey_iff (oldMembers _ memM)).mp (atMembers _ memM)
    have agreeGet := (at_copyKey_iff (oldCounters offsetGetCount (by decide))).mp
      (atCounters offsetGetCount (by decide))
    have short : key.length ≤ 48 := by
      by_contra long
      have inside : 48 < key.length := Nat.lt_of_not_le long
      have place : (key ++ [0])[48]? = some key[48] := by
        rw [List.getElem?_append_left inside]
        exact List.getElem?_eq_getElem inside
      have zero := agreeGet 0 0 key[48] (by decide) place
      exact noNul (zero ▸ List.getElem_mem inside)
    intro i inside
    have place := shift i
    rw [List.getElem?_eq_getElem inside] at place
    generalize ((key ++ [0]).drop maxKeyLen)[i] = c at place
    have total := byte_lt place.symm
    rw [List.length_append, List.length_singleton] at total
    by_cases low : i < 8
    · have byte := List.getElem?_eq_getElem (l := toBytes 8 n.toNat) (by rw [length_toBytes]; exact low)
      rw [List.getElem?_append_left (by rw [length_behindKey]; omega), front byte,
        agreeN i _ c byte place.symm]
    · by_cases mid : i < 16
      · obtain ⟨j, rfl⟩ : ∃ j, i = 8 + j := ⟨i - 8, by omega⟩
        have byte := List.getElem?_eq_getElem (l := toBytes 8 size.m.toNat) (i := j)
          (by rw [length_toBytes]; omega)
        rw [← Nat.add_assoc] at place
        rw [List.getElem?_append_left (by rw [length_behindKey]; omega), back byte,
          agreeM j _ c byte place.symm]
      · have here : i = 16 := by omega
        subst here
        rw [last (by omega) place.symm short, List.getElem?_append_right (by rw [length_behindKey]),
          length_behindKey]
        rfl
  · intro fits
    have short : key.length ≤ 48 := by
      by_contra long
      have inside : 17 < ((key ++ [0]).drop maxKeyLen).length := by
        rw [List.length_drop, List.length_append, List.length_singleton, maxKeyLen]
        omega
      have beyond := byte_lt (fits 17 inside)
      rw [List.length_append, length_behindKey] at beyond
      exact absurd beyond (by decide)
    have agree : ∀ (i : ℕ) b c, (behindKey size n)[i]? = some b → (key ++ [0])[32 + i]? = some c →
        c = b := by
      intro i b c old new
      rw [← shift] at new
      obtain ⟨inside, rfl⟩ := List.getElem?_eq_some_iff.mp new
      have same := fits i inside
      rw [List.getElem?_append_left (byte_lt old), old] at same
      exact (Option.some.inj same).symm
    have beyond : ∀ {offset i : ℕ} {c}, 49 ≤ offset → (key ++ [0])[offset + i]? = some c → False := by
      intro offset i c high place
      have inside := byte_lt place
      rw [List.length_append, List.length_singleton] at inside
      omega
    constructor
    · intro x mem
      refine (at_copyKey_iff (oldMembers x mem)).mpr fun i b c old new => ?_
      simp only [members, List.mem_cons, List.not_mem_nil, or_false] at mem
      rcases mem with rfl | rfl | rfl | rfl | rfl | rfl
      · refine agree (8 + i) b c (back old) ?_
        rw [← Nat.add_assoc]
        exact new
      · exact (beyond (by decide : 49 ≤ offsetE) new).elim
      · exact (beyond (by decide : 49 ≤ offsetE2) new).elim
      · exact (beyond (by decide : 49 ≤ offsetK) new).elim
      · exact agree i b c (front old) new
      · exact (beyond (by decide : 49 ≤ offsetVHash) new).elim
    · intro offset counter
      refine (at_copyKey_iff (oldCounters offset counter)).mpr fun i b c old new => ?_
      have inside := byte_lt new
      rw [List.length_append, List.length_singleton] at inside
      have high := (counters_inside counter).1
      have zero := last (by omega) new short
      have here : i = 0 := by omega
      subst here
      rw [zero]
      exact Option.some.inj old

end KeyFits

/-! ### What the later calls leave -/

/-- The bytes of a filter with this key and these members. -/
structure Intact (size : Size) (key : CString) (n : UInt64) (e : Float) (v : ℕ) (body : ByteFile) :
    Prop where
  whole : bodySize ≤ body.size
  key : At body 0 (key ++ [0])
  fields : ∀ x ∈ members size n e v, At body x.1 x.2

/-- The node `p` is still linked with its key and its members. If a hit would write over the key,
no call on it returns. -/
structure Lasts (size : Size) (key : CString) (n : UInt64) (e : Float) (v : ℕ) (p : Addr)
    (σ : LayoutStore) : Prop where
  linked : ∃ B, Threaded σ.view B ∧ p ∈ B (bucketOf hashPower key)
  node : ∃ nd, σ.nodes[p]? = some nd ∧ Intact size key n e v nd.body
  known : v ≤ σ.vectors.length
  quiet : key.length < 48 ∨ (size.Dead ∧ ∀ map, σ.vector v = some map → map = [])

section Lasts

variable {E : Env} {size : Size} {key : CString} {n : UInt64} {e : Float} {v : ℕ} {p q : Addr}
  {σ σ' : LayoutStore} {nd : LayoutNode} {body : ByteFile} {B : Buckets}

theorem Intact.members_eq (intact : Intact size key n e v nd.body) (pointer : v < 2 ^ 64) :
    nd.m = size.m ∧ nd.eBits = e.toBits ∧ nd.e2Bits = size.e2.toBits ∧ nd.k = size.k ∧ nd.n = n ∧
      nd.vHash = v :=
  (LayoutNode.members_iff intact.whole pointer).mpr intact.fields

theorem Intact.params_eq (intact : Intact size key n e v nd.body) (noNul : 0 ∉ key)
    (pointer : v < 2 ^ 64) : nd.params = (key, n, size.m, size.k, e.toBits, v) := by
  obtain ⟨m, bits, -, k, n, vHash⟩ := intact.members_eq pointer
  have text : nd.key = key := text_of_at noNul intact.key
  rw [LayoutNode.params, text, n, m, k, bits, vHash]

/-- Counting leaves the key and the members, as long as the key ends before the counter. -/
theorem Intact.count (intact : Intact size key n e v body) {offset : ℕ} (short : key.length < offset)
    (counter : offset ∈ counters) (count : ℕ) : Intact size key n e v (body.put offset 8 count) := by
  refine ⟨intact.whole.trans size_le_pwrite, intact.key.put (Or.inl ?_), fun x mem => ?_⟩
  · rw [List.length_append, List.length_singleton, Nat.zero_add]
    exact short
  · exact (intact.fields x mem).put (members_apart mem counter)

theorem Lasts.touched (kept : Lasts size key n e v p σ) (pointer : v < 2 ^ 64)
    (here : σ.nodes[q]? = some nd) (touched : σ.Touched q nd σ') : Lasts size key n e v p σ' := by
  obtain ⟨B, thr, mem⟩ := kept.linked
  obtain ⟨np, there, intact⟩ := kept.node
  obtain ⟨offset, count, which, nodes⟩ := touched.node
  have counter : offset ∈ counters := by
    simpa only [counters, List.mem_cons, List.not_mem_nil, or_false] using which
  refine ⟨⟨B, touched.threaded thr, mem⟩, ?_, touched.allocated ▸ kept.known, ?_⟩
  · rw [nodes, List.getElem?_modify, there, Option.map_eq_map, Option.map_some]
    by_cases same : q = p
    · subst same
      rw [if_pos rfl]
      refine ⟨_, rfl, ?_⟩
      rcases kept.quiet with short | ⟨dead, empty⟩
      · exact intact.count (short.trans_le (counters_inside counter).1) counter count
      · obtain rfl := Option.some.inj (here.symm.trans there)
        obtain ⟨-, -, -, k, -, vHash⟩ := intact.members_eq pointer
        obtain ⟨map, vector, words⟩ := touched.words
        rw [vHash] at vector
        have probes : 0 < (σ.bloom nd).rounds := by
          have positive := dead.2
          change 0 < nd.k.toInt.toNat
          rw [k]
          omega
        exact absurd (empty map vector) (words probes)
    · rw [if_neg same]
      exact ⟨np, rfl, intact⟩
  · refine kept.quiet.imp id fun ⟨dead, empty⟩ => ⟨dead, fun map vector => ?_⟩
    have length := touched.lengths v
    rw [vector] at length
    obtain ⟨old, read, same⟩ := Option.map_eq_some_iff.mp length.symm
    rw [empty old read] at same
    exact List.length_eq_zero_iff.mp same.symm

theorem Lasts.unlinked (kept : Lasts size key n e v p σ) (thr : Threaded σ.view B)
    (differ : p ≠ q) (gone : σ.Unlinked B q σ') : Lasts size key n e v p σ' := by
  obtain ⟨B', thr', mem⟩ := kept.linked
  obtain ⟨np, there, intact⟩ := kept.node
  have same : B' (bucketOf hashPower key) = B (bucketOf hashPower key) :=
    (thr'.chain _).unique (thr.chain _)
  refine ⟨⟨_, gone.threaded, (List.mem_erase_of_ne differ).mpr (same ▸ mem)⟩, ?_,
    gone.allocated ▸ kept.known, ?_⟩
  · have body := gone.bodies p
    rw [there, Option.map_some] at body
    obtain ⟨np', there', same⟩ := Option.map_eq_some_iff.mp body
    exact ⟨np', there', same ▸ intact⟩
  · refine kept.quiet.imp id fun ⟨dead, empty⟩ => ⟨dead, fun map vector => ?_⟩
    rcases gone.vectors v with old | none
    · exact empty map (old ▸ vector)
    · rw [none] at vector
      cases vector

theorem Lasts.added (kept : Lasts size key n e v p σ) (E : Env) (key' : CString) (n' : UInt64)
    (e' : Float) : Lasts size key n e v p (added E key' n' e' σ) := by
  obtain ⟨B, thr, mem⟩ := kept.linked
  obtain ⟨np, there, intact⟩ := kept.node
  have inside : p < σ.nodes.length := (List.getElem?_eq_some_iff.mp there).1
  have old : (LayoutStore.added E key' n' e' σ).vector v = σ.vector v := by
    cases v with
    | zero => rfl
    | succ i => simp only [vector, LayoutStore.added, List.getElem?_append_left kept.known]
  refine ⟨⟨_, threaded_added thr E key' n' e', ?_⟩, ⟨np, ?_, intact⟩, ?_, ?_⟩
  · by_cases same : bucketOf hashPower key = bucketOf hashPower key'
    · rw [same, Function.update_self, ← same]
      exact List.mem_cons_of_mem _ mem
    · rw [Function.update_of_ne same]
      exact mem
  · rw [LayoutStore.added]
    simp only [List.getElem?_append_left inside, there]
  · simp only [LayoutStore.added, List.length_append, List.length_singleton]
    exact Nat.le_succ_of_le kept.known
  · rw [old]
    exact kept.quiet

theorem Lasts.step (kept : Lasts size key n e v p σ) (noNul : 0 ∉ key) (pointer : v < 2 ^ 64)
    {ev : Event} (other : ev.1 ≠ .delete key) (returned : LayoutReturns E σ ev σ') :
    Lasts size key n e v p σ' := by
  obtain ⟨B, thr, mem⟩ := kept.linked
  obtain ⟨call, r⟩ := ev
  cases call with
  | add key' n' e' mem' =>
      rcases add_cases returned with ⟨-, rfl⟩ | ⟨-, -, -, rfl⟩
      · exact kept
      · exact kept.added E key' n' e'
  | set key' subkey =>
      rcases set_cases thr returned with rfl | ⟨q, nd, -, here, -, touched⟩
      · exact kept
      · exact kept.touched pointer here touched
  | get key' subkey =>
      rcases get_cases thr returned with ⟨rfl, -⟩ | ⟨-, q, nd, -, here, -, touched⟩
      · exact kept
      · exact kept.touched pointer here touched
  | delete key' =>
      rcases delete_cases thr returned with rfl | ⟨q, nd, here, same, gone⟩
      · exact kept
      · refine kept.unlinked thr ?_ gone
        rintro rfl
        obtain ⟨np, there, intact⟩ := kept.node
        obtain rfl := Option.some.inj (here.symm.trans there)
        have text : nd.key = key := text_of_at noNul intact.key
        exact other (by rw [← same, text])

theorem Lasts.run (kept : Lasts size key n e v p σ) (noNul : 0 ∉ key) (pointer : v < 2 ^ 64)
    {T : List Event} (run : Run (LayoutReturns E) σ T σ') (others : ∀ ev ∈ T, ev.1 ≠ .delete key) :
    Lasts size key n e v p σ' := by
  induction run with
  | nil => exact kept
  | @snoc T σ₁ σ₂ ev _ last ih =>
      have before := ih fun ev mem => others ev (List.mem_cons_of_mem _ mem)
      exact before.step noNul pointer (others ev List.mem_cons_self) last

end Lasts

/-! ### The new filter -/

section NewFilter

variable {E : Env} {key : CString} {n : UInt64} {e : Float} {σ τ : LayoutStore}

theorem whole_newNode : bodySize ≤ (newNode E key n e σ).body.size := by
  have size : (newBody (calculate E.libm n e) n e (σ.vectors.length + 1)).size = bodySize :=
    size_newBody
  rw [← size]
  exact size_le_pwrite

theorem key_newNode (noNul : 0 ∉ key) : (newNode E key n e σ).key = key :=
  text_of_at noNul at_copyKey

theorem newNode_keeps_iff (noNul : 0 ∉ key) :
    ((∀ x ∈ members (calculate E.libm n e) n e (σ.vectors.length + 1),
        At (newNode E key n e σ).body x.1 x.2) ∧
      ∀ offset ∈ counters, At (newNode E key n e σ).body offset (toBytes 8 0)) ↔
    (key ++ [0]).drop maxKeyLen <+: behindKey (calculate E.libm n e) n ++ [0] :=
  copyKey_keeps_iff noNul

theorem added_newNode : (added E key n e σ).nodes[σ.nodes.length]? = some (newNode E key n e σ) := by
  rw [added]
  simp only [List.getElem?_append_right (Nat.le_refl _), Nat.sub_self, List.getElem?_cons_zero]

theorem added_vector : (added E key n e σ).vector (σ.vectors.length + 1) =
    some (List.replicate (wordsOf (calculate E.libm n e).bytes) 0#32) := by
  rw [vector, added]
  simp only [List.getElem?_append_right (Nat.le_refl _), Nat.sub_self, List.getElem?_cons_zero]
  rfl

/-- The head of its chain is found at once. -/
theorem search_head {p : Addr} {nd : LayoutNode}
    (head : σ.blooms.hashtable (σ.view.bucket key) = some p) (here : σ.nodes[p]? = some nd)
    (same : nd.key = key) : bloomsSearch key σ.view = .ok (some p) := by
  have inside : p < σ.nodes.length := (List.getElem?_eq_some_iff.mp here).1
  obtain ⟨fuel, length⟩ : ∃ fuel, σ.view.heap.length = fuel + 1 :=
    ⟨σ.nodes.length - 1, by rw [length_view_heap, Nat.sub_add_cancel (Nat.one_le_of_lt inside)]⟩
  have read : BloomServer.readNode σ.view.heap p = .ok ⟨nd.hashNext, σ.bloom nd⟩ := by
    apply BloomServer.readNode_eq
    rw [view]
    simp only [List.getElem?_map, here, Option.map_some]
  rw [bloomsSearch, length]
  change searchLoop σ.view.heap key (fuel + 1) (σ.blooms.hashtable (σ.view.bucket key)) = _
  rw [head, searchLoop, read]
  exact if_pos same

/-- A filter with words has `m > 0` bits in them, whatever wrapped in `calculate`. -/
theorem usable_of_words {L : Libm} (words : wordsOf (calculate L n e).bytes ≠ 0)
    (accepted : (calculate L n e).bytes ≠ 0) : (calculate L n e).m ≠ 0 ∧
      (calculate L n e).m.toNat ≤ 32 * wordsOf (calculate L n e).bytes := by
  cases large : overflows (sizing L e).1 n with
  | true => exact absurd (by rw [calculate_of_overflows large]; rfl) accepted
  | false =>
      rw [calculate_of_not_overflows large] at words ⊢
      dsimp only at words ⊢
      rw [wordsOf_sizeBytes, UInt64.toNat_add] at words ⊢
      change ((bitsFor L n e).toNat + 31) % 2 ^ 64 / 32 ≠ 0 at words
      change _ ∧ _ ≤ 32 * (((bitsFor L n e).toNat + 31) % 2 ^ 64 / 32)
      have bound := (bitsFor L n e).toNat_lt
      refine ⟨fun zero => ?_, by omega⟩
      rw [zero] at words
      exact words rfl

/-- After a subkey has been set, its probes all find their bits. -/
theorem getLoop_setLoop (h : UInt64 × UInt64) {m : UInt64} {rounds : ℕ} {map : List Word}
    (usable : rounds = 0 ∨ (m ≠ 0 ∧ m.toNat ≤ 32 * map.length)) :
    ∃ map', setLoop h m rounds 0 map = .ok map' ∧ getLoop h m map' rounds 0 = .ok true := by
  rcases usable with rfl | ⟨modulus, fits⟩
  · exact ⟨map, rfl, rfl⟩
  · obtain ⟨map', set, length, bits⟩ := setLoop_spec h modulus rounds 0 map fits
    obtain ⟨hit, get, all⟩ := getLoop_spec h modulus map' (by rw [length]; exact fits) rounds 0
    have found : hit = true := by
      rw [all, bits]
      exact fun j low high => Or.inl ⟨j, low, high, rfl⟩
    exact ⟨map', set, by rw [get, found]⟩

/-- The NUL of a key of 48 bytes is the first byte of `get_count`: once the filter answers a
subkey, its key is no longer the one given. -/
theorem exists_hit (noNul : 0 ∉ key) (long : key.length = 48)
    (accepted : (calculate E.libm n e).bytes ≠ 0) (alive : ¬ (calculate E.libm n e).Dead)
    (pointer : σ.vectors.length + 1 < 2 ^ 64)
    (init : (newNode E key n e σ).Initialised (calculate E.libm n e) key n e
      (σ.vectors.length + 1)) :
    ∃ ρ nd, Run (LayoutReturns E) (added E key n e σ) [(.get key [], 1), (.set key [], 0)] ρ ∧
      ρ.nodes[σ.nodes.length]? = some nd ∧ nd.key ≠ key := by
  let τ := added E key n e σ
  let p := σ.nodes.length
  let nd := newNode E key n e σ
  let v := σ.vectors.length + 1
  have here : τ.nodes[p]? = some nd := added_newNode
  have intact : Intact (calculate E.libm n e) key n e v nd.body :=
    ⟨whole_newNode, at_copyKey, (LayoutNode.members_iff whole_newNode pointer).mp init.members⟩
  obtain ⟨m, -, -, k, -, vHash⟩ : nd.m = _ ∧ _ ∧ _ ∧ nd.k = _ ∧ _ ∧ nd.vHash = v := init.members
  have head : τ.blooms.hashtable (τ.view.bucket key) = some p := Function.update_self ..
  have vector : τ.vector nd.vHash = some (List.replicate (wordsOf (calculate E.libm n e).bytes) 0#32) := by
    rw [vHash]
    exact added_vector
  have usable : (τ.bloom nd).rounds = 0 ∨ (nd.m ≠ 0 ∧ nd.m.toNat ≤
      32 * (List.replicate (wordsOf (calculate E.libm n e).bytes) (0#32 : Word)).length) := by
    rw [m, List.length_replicate]
    by_cases words : wordsOf (calculate E.libm n e).bytes = 0
    · left
      have none : ¬ 0 < (calculate E.libm n e).k.toInt := fun probes => alive ⟨words, probes⟩
      change nd.k.toInt.toNat = 0
      rw [k]
      omega
    · exact Or.inr (usable_of_words words accepted)
  obtain ⟨map', set, get⟩ := getLoop_setLoop (E.hash []) usable
  -- The subkey is set; the count lies behind the NUL of the key.
  let nd₁ : LayoutNode := { nd with body := nd.body.put offsetSetCount 8 (nd.setCount + 1).toNat }
  let σ₁ : LayoutStore :=
    { (τ.writeVector (some map') nd.vHash).writeCounter p offsetSetCount (nd.setCount + 1) with
      blooms := { τ.blooms with setCount := τ.blooms.setCount + 1 } }
  have first : LayoutReturns E τ (.set key [], 0) σ₁ := by
    change τ.bloomsSet E key [] = _
    rw [LayoutStore.bloomsSet, search_head head here init.key_eq]
    change (τ.setAt E [] p >>= _) = _
    rw [setAt_eq here vector, set]
    rfl
  have here₁ : σ₁.nodes[p]? = some nd₁ := by
    have same : (τ.writeVector (some map') nd.vHash).nodes = τ.nodes := by cases nd.vHash <;> rfl
    change ((τ.writeVector (some map') nd.vHash).nodes.modify p _)[p]? = _
    rw [same, List.getElem?_modify_eq, here]
    rfl
  have intact₁ : Intact (calculate E.libm n e) key n e v nd₁.body :=
    intact.count (by rw [long]; decide) (by decide) _
  obtain ⟨m₁, -, -, k₁, -, vHash₁⟩ := intact₁.members_eq pointer
  have key₁ : nd₁.key = key := text_of_at noNul intact₁.key
  have vector₁ : σ₁.vector nd₁.vHash = some map' := by
    rw [vHash₁]
    change (τ.writeVector (some map') nd.vHash).vector v = _
    rw [← vHash]
    exact vector_writeVector_self (by rw [vector]; rfl)
  have count₁ : nd₁.getCount = 0 := by
    have zero := (LayoutNode.counters_iff whole_newNode).mp init.counters offsetGetCount (by decide)
    have still : At nd₁.body offsetGetCount (toBytes 8 0) := zero.put (Or.inl (by decide))
    have inside : offsetGetCount + 8 ≤ nd₁.body.size := (by decide : _ ≤ bodySize).trans intact₁.whole
    exact (LayoutNode.number64_iff inside 0).mpr still
  have second : LayoutReturns E σ₁ (.get key [], 1) (σ₁.counted p nd₁ true).2 := by
    change σ₁.bloomsGet E key [] = _
    have head₁ : σ₁.blooms.hashtable (σ₁.view.bucket key) = some p := head
    have same : getLoop (E.hash []) nd₁.m map' (σ₁.bloom nd₁).rounds 0 = .ok true := by
      have rounds : (σ₁.bloom nd₁).rounds = (τ.bloom nd).rounds := by
        change nd₁.k.toInt.toNat = nd.k.toInt.toNat
        rw [k₁, k]
      rw [rounds, m₁, ← m, get]
    rw [LayoutStore.bloomsGet, search_head head₁ here₁ key₁]
    change σ₁.getAt E [] p = _
    rw [getAt_eq here₁ vector₁, same]
    rfl
  refine ⟨_, { nd₁ with body := nd₁.body.put offsetGetCount 8 (nd₁.getCount + 1).toNat },
    (Run.single first).snoc second, ?_, ?_⟩
  · change (σ₁.nodes.modify p _)[p]? = _
    rw [List.getElem?_modify_eq, here₁]
    rfl
  · intro same
    have one : At (nd₁.body.put offsetGetCount 8 (nd₁.getCount + 1).toNat) offsetGetCount
        (toBytes 8 1) := by
      rw [count₁]
      exact at_put (by decide)
    have byte := one.bytes 0 1 rfl
    have inside : key.length < (nd₁.body.put offsetGetCount 8 (nd₁.getCount + 1).toNat).size := by
      rw [long]
      exact ((by decide : 48 < bodySize).trans_le intact₁.whole).trans_le size_le_pwrite
    have nul := byte_of_text same inside
    rw [long] at nul
    exact absurd (byte.symm.trans nul) (by decide)

end NewFilter

/-! ### Which filters keep what they were given -/

/-- The call looks at a filter, and may write in it. -/
def Call.Probes : Call → Prop
  | .set _ _ | .get _ _ => True
  | .add _ _ _ _ | .delete _ => False

/-- `blooms_add` of the key has led from `σ` to `τ`. The new node has the key and the members it was
given; whatever is called afterwards, as long as the key is not deleted, leaves its key, its
parameters and the length of its vector, and `blooms_get` finds a filter of the key. -/
def KeepsFilter (E : Env) (key : CString) (n : UInt64) (e : Float) (σ τ : LayoutStore) : Prop :=
  ∃ nd, τ.nodes[σ.nodes.length]? = some nd ∧
    nd.Initialised (calculate E.libm n e) key n e (σ.vectors.length + 1) ∧
    ∀ T ρ, Run (LayoutReturns E) τ T ρ → (∀ ev ∈ T, ev.1 ≠ .delete key) →
      (∃ nd', ρ.nodes[σ.nodes.length]? = some nd' ∧ nd'.params = nd.params) ∧
      (∀ ev ρ', ev.1.Probes → LayoutReturns E ρ ev ρ' →
        (ρ'.vector nd.vHash).map List.length = (ρ.vector nd.vHash).map List.length) ∧
      ∀ subkey r ρ', LayoutReturns E ρ (.get key subkey, r) ρ' → r ≠ -1

section KeepsFilter

variable {E : Env} {max : UInt64} {T : List Event} {σ τ : LayoutStore} {key : CString} {n : UInt64}
  {e : Float} {mem : Alloc}

theorem lengths_of_probes {ev : Event} (threaded : ∃ B, Threaded σ.view B) (probes : ev.1.Probes)
    (returned : LayoutReturns E σ ev τ) (v : ℕ) :
    (τ.vector v).map List.length = (σ.vector v).map List.length := by
  obtain ⟨B, thr⟩ := threaded
  obtain ⟨call, r⟩ := ev
  cases call with
  | set key subkey =>
      rcases set_cases thr returned with rfl | ⟨p, nd, -, -, -, touched⟩
      · rfl
      · exact touched.lengths v
  | get key subkey =>
      rcases get_cases thr returned with ⟨rfl, -⟩ | ⟨-, p, nd, -, -, -, touched⟩
      · rfl
      · exact touched.lengths v
  | add key n e mem => cases probes
  | delete key => cases probes

/-- A filter whose key is linked and unchanged is found. -/
theorem Lasts.get_ne {size : Size} {v : ℕ} {p : Addr} (kept : Lasts size key n e v p σ)
    (noNul : 0 ∉ key) {subkey : CString} {r : Int}
    (returned : LayoutReturns E σ (.get key subkey, r) τ) : r ≠ -1 := by
  obtain ⟨B, thr, mem⟩ := kept.linked
  obtain ⟨nd, here, intact⟩ := kept.node
  rcases get_cases thr returned with ⟨-, absent⟩ | ⟨differ, -⟩
  · exact absurd (text_of_at noNul intact.key) (absent p mem nd here)
  · exact differ

/-- The new filter is kept if its key fits. -/
theorem kept_added {B : Buckets} (thr : Threaded σ.view B) (noNul : 0 ∉ key)
    (fits : KeyFits (calculate E.libm n e) n key) :
    Lasts (calculate E.libm n e) key n e (σ.vectors.length + 1) σ.nodes.length
      (added E key n e σ) := by
  obtain ⟨behind, room⟩ := keyFits_iff.mp fits
  have fields := ((newNode_keeps_iff (E := E) (σ := σ) (e := e) noNul).mpr behind).1
  refine ⟨⟨_, threaded_added thr E key n e, ?_⟩,
    ⟨_, added_newNode, whole_newNode, at_copyKey, fields⟩, ?_, ?_⟩
  · rw [Function.update_self]
    exact List.mem_cons_self
  · simp only [added, List.length_append, List.length_singleton, Nat.le_refl]
  · refine room.imp id fun dead => ⟨dead, fun map vector => ?_⟩
    rw [added_vector, dead.1] at vector
    exact (Option.some.inj vector).symm

end KeepsFilter

end BloomServer
