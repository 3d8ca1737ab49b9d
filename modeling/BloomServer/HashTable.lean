import BloomServer.Library.Buckets
import BloomServer.Library.LabelledRun
import Mathlib.Algebra.Group.Nat.Defs
import Mathlib.Data.Int.Notation

/-! `hash_table.c`: chains of entries in buckets, which are doubled as the table fills. There is always
memory for an entry, and for the buckets as far as `Malloc` can ask for them. -/
namespace BloomServer
open Buckets LabelledRun

structure HashEntry where
  key : List UInt8
  value : ℤ
  deriving DecidableEq

structure HashTable where
  entries : ℕ
  buckets : ℕ
  bucket : ℕ → List HashEntry

namespace HashTable

/-- A `char` added to an `unsigned int`. -/
def signedByte (c : UInt8) : UInt32 := if c < 128 then c.toUInt32 else c.toUInt32 + 0xFFFFFF00

def hash (key : List UInt8) : UInt32 := key.foldl (fun h c => (h <<< 5) + h + signedByte c) 0

def index (t : HashTable) (key : List UInt8) : ℕ := (hash key).toNat % t.buckets

/-- The loop of `create_hash_table` that finds the number of buckets. -/
def doubled (initSize s : ℕ) : ℕ := if s < initSize ∧ 0 < s then doubled initSize (2 * s) else s
termination_by initSize - s

/-- The pointers to the buckets take eight bytes each. The size of 2 ^ 28 of them is a negative `int` for
`Malloc`, and there is no table; that of more is 0, and what is written then has not been allocated. -/
def create (initSize : ℕ) : Option HashTable :=
  let s := doubled initSize 256
  if s * 8 < 2 ^ 31 then some ⟨0, s, fun _ => []⟩ else none

def hashFind (t : HashTable) (key : List UInt8) : Option HashEntry :=
  find HashEntry.key t.index t.bucket key

/-- What `hash_map` goes through. -/
def visited (t : HashTable) : List HashEntry := Buckets.entries t.bucket t.buckets

/-- An entry goes in front of its chain. -/
def push (t : HashTable) (e : HashEntry) : HashTable :=
  { t with
    entries := t.entries + 1
    bucket := Function.update t.bucket (t.index e.key) (e :: t.bucket (t.index e.key)) }

/-- Where no larger table can be made the old one stays as it is. -/
def rehash (t : HashTable) : HashTable :=
  match create (2 * t.buckets) with
  | none => t
  | some new => t.visited.foldl push new

/-- `hash_find_or_add`: whether the key was found, its entry, and the table; a full table is doubled, if
it can be, and looked through again. -/
def hashFindOrAdd : ℕ → HashTable → List UInt8 → ℤ → Option (Bool × HashEntry × HashTable)
  | 0, _, _, _ => none
  | fuel + 1, t, key, value =>
      match t.hashFind key with
      | some e => some (true, e, t)
      | none =>
          if t.buckets < t.entries then hashFindOrAdd fuel t.rehash key value
          else
            let i := t.index key
            some (false, ⟨key, value⟩,
              { t with
                entries := t.entries + 1
                bucket := Function.update t.bucket i (t.bucket i ++ [⟨key, value⟩]) })

def hashRemove (t : HashTable) (key : List UInt8) : HashTable :=
  if (t.hashFind key).isSome then
    let i := t.index key
    { t with
      entries := t.entries - 1
      bucket := Function.update t.bucket i ((t.bucket i).eraseP fun e => e.key = key) }
  else t

/-! ### The table holds a map -/

/-- The value of a key. -/
def view (t : HashTable) (key : List UInt8) : Option ℤ := (t.hashFind key).map HashEntry.value

/-- The most buckets that a table can have. -/
def maxBuckets : ℕ := 2 ^ 27

structure Sound (t : HashTable) : Prop where
  power : ∃ k, 8 ≤ k ∧ k ≤ 27 ∧ t.buckets = 2 ^ k
  placed : Placed HashEntry.key t.index t.bucket t.buckets
  counted : t.entries = t.visited.length
  loaded : t.entries ≤ t.buckets + 1

variable {t : HashTable} {e : HashEntry} {key : List UInt8}

theorem doubled_pow (initSize : ℕ) {s j : ℕ} (power : s = 2 ^ j) : ∃ k, j ≤ k ∧ doubled initSize s = 2 ^ k := by
  induction s using doubled.induct initSize generalizing j with
  | case1 s more ih =>
      rw [doubled, if_pos more]
      obtain ⟨k, le, same⟩ := @ih (j + 1) (by rw [power, Nat.pow_succ, Nat.mul_comm])
      exact ⟨k, Nat.le_of_succ_le le, same⟩
  | case2 s stop =>
      rw [doubled, if_neg stop]
      exact ⟨j, Nat.le_refl j, power⟩

/-- A power of two that is large enough is found as it is. -/
theorem doubled_of_pow {m s j : ℕ} (power : s = 2 ^ j) (le : j ≤ m) : doubled (2 ^ m) s = 2 ^ m := by
  induction s using doubled.induct (2 ^ m) generalizing j with
  | case1 s more ih =>
      rw [doubled, if_pos more]
      refine @ih (j + 1) (by rw [power, Nat.pow_succ, Nat.mul_comm]) ?_
      rw [power, Nat.pow_lt_pow_iff_right (by decide)] at more
      exact more.1
  | case2 s stop =>
      rw [doubled, if_neg stop, power]
      have positive : 0 < 2 ^ j := Nat.two_pow_pos j
      rw [power] at stop
      have large : 2 ^ m ≤ 2 ^ j := by omega
      rw [Nat.pow_le_pow_iff_right (by decide)] at large
      rw [Nat.le_antisymm le large]

theorem pow_fits {k : ℕ} : 2 ^ k * 8 < 2 ^ 31 ↔ k ≤ 27 := by
  have eight : 2 ^ k * 8 = 2 ^ (k + 3) := by rw [Nat.pow_add]
  rw [eight, Nat.pow_lt_pow_iff_right (by decide)]
  omega

/-- A new table is empty. -/
theorem create_empty {initSize : ℕ} (made : create initSize = some t) : t.Sound ∧ t.visited = [] ∧ t.entries = 0 := by
  obtain ⟨k, least, same⟩ := doubled_pow initSize (s := 256) (j := 8) (by decide)
  rw [create, same] at made
  split at made
  next fits =>
    cases made
    have none : visited ⟨0, 2 ^ k, fun _ => []⟩ = [] := entries_empty _
    refine ⟨⟨⟨k, least, pow_fits.mp fits, rfl⟩, ⟨fun key => Nat.mod_lt _ (Nat.two_pow_pos k), ?_, ?_⟩, ?_, Nat.zero_le _⟩,
      none, rfl⟩
    · exact fun i _ e mem => absurd mem List.not_mem_nil
    · rw [visited] at none
      rw [none]
      exact List.nodup_nil
    · rw [none]
      rfl
  next => cases made

/-- A table can be doubled if it is not the largest. -/
theorem create_twice {k : ℕ} (least : 8 ≤ k) (size : t.buckets = 2 ^ k) :
    create (2 * t.buckets) = if k < 27 then some ⟨0, 2 * t.buckets, fun _ => []⟩ else none := by
  have twice : 2 * t.buckets = 2 ^ (k + 1) := by rw [size, Nat.pow_succ, Nat.mul_comm]
  have same : doubled (2 ^ (k + 1)) 256 = 2 ^ (k + 1) := doubled_of_pow (j := 8) (by decide) (by omega)
  rw [create, twice, same]
  exact if_congr pow_fits rfl rfl

theorem Sound.view_eq_some (sound : t.Sound) {value : ℤ} :
    t.view key = some value ↔ ⟨key, value⟩ ∈ t.visited := by
  rw [view, Option.map_eq_some_iff]
  constructor
  · rintro ⟨e, found, rfl⟩
    obtain ⟨mem, rfl⟩ := sound.placed.find_eq_some.mp found
    exact mem
  · intro mem
    exact ⟨⟨key, value⟩, sound.placed.find_eq_some.mpr ⟨mem, rfl⟩, rfl⟩

/-- Tables that hold the same entries hold the same map. -/
theorem view_of_perm {t' : HashTable} (sound : t.Sound) (sound' : t'.Sound) (same : t'.visited.Perm t.visited) :
    t'.view = t.view := by
  funext key
  refine Option.ext fun value => ?_
  rw [sound'.view_eq_some, sound.view_eq_some, same.mem_iff]

/-! ### Growing -/

theorem push_placed (placed : Placed HashEntry.key t.index t.bucket t.buckets)
    (new : ∀ e' ∈ t.visited, e'.key ≠ e.key) :
    Placed HashEntry.key (t.push e).index (t.push e).bucket (t.push e).buckets ∧
      (t.push e).visited.Perm (e :: t.visited) :=
  placed.insert new (List.Perm.refl _)

theorem foldl_push {es : List HashEntry} (placed : Placed HashEntry.key t.index t.bucket t.buckets)
    (counted : t.entries = t.visited.length) (nodup : (es.map HashEntry.key).Nodup)
    (new : ∀ e ∈ es, ∀ e' ∈ t.visited, e'.key ≠ e.key) :
    Placed HashEntry.key (es.foldl push t).index (es.foldl push t).bucket (es.foldl push t).buckets ∧
      (es.foldl push t).visited.Perm (es ++ t.visited) ∧ (es.foldl push t).buckets = t.buckets ∧
      (es.foldl push t).entries = (es.foldl push t).visited.length := by
  induction es generalizing t with
  | nil => exact ⟨placed, List.Perm.refl _, rfl, counted⟩
  | cons e es ih =>
      obtain ⟨other, nodup⟩ := List.nodup_cons.mp nodup
      obtain ⟨placed', grown⟩ := push_placed placed (new e List.mem_cons_self)
      obtain ⟨placed'', grown', buckets, counted'⟩ := ih placed'
        (by
          rw [grown.length_eq, List.length_cons, ← counted]
          rfl) nodup (by
          intro e₁ at_e₁ e' mem
          rcases List.mem_cons.mp (grown.mem_iff.mp mem) with rfl | mem
          · exact fun same => other (same ▸ List.mem_map_of_mem at_e₁)
          · exact new e₁ (List.mem_cons_of_mem _ at_e₁) e' mem)
      refine ⟨placed'', ?_, buckets, counted'⟩
      exact (grown'.trans (grown.append_left es)).trans List.perm_middle

theorem Sound.buckets_eq_max (sound : t.Sound) {k : ℕ} (size : t.buckets = 2 ^ k) (large : ¬ k < 27) :
    t.buckets = maxBuckets := by
  obtain ⟨j, _, most, same⟩ := sound.power
  have alike : k = j := (Nat.pow_right_inj (by decide)).mp (size.symm.trans same)
  rw [size, Nat.le_antisymm (alike ▸ most) (Nat.le_of_not_lt large), maxBuckets]

/-- A full table is doubled, and holds what it held, unless it is the largest. -/
theorem Sound.rehash (sound : t.Sound) (small : t.buckets < maxBuckets) :
    t.rehash.Sound ∧ t.rehash.visited.Perm t.visited ∧ t.rehash.entries ≤ t.rehash.buckets := by
  obtain ⟨k, least, most, size⟩ := sound.power
  have below : k < 27 := by
    by_contra large
    exact Nat.ne_of_lt small (sound.buckets_eq_max size large)
  have made : create (2 * t.buckets) = some ⟨0, 2 * t.buckets, fun _ => []⟩ :=
    (create_twice least size).trans (if_pos below)
  obtain ⟨start, none, _⟩ := create_empty made
  obtain ⟨placed, same, buckets, counted⟩ := @foldl_push _ t.visited start.placed start.counted
    sound.placed.nodup (by
      rw [none]
      exact fun _ _ _ mem => absurd mem List.not_mem_nil)
  rw [none, List.append_nil] at same
  have run : t.rehash = t.visited.foldl push ⟨0, 2 * t.buckets, fun _ => []⟩ := by
    rw [HashTable.rehash, made]
  rw [run]
  have twice := buckets.trans (Eq.refl (2 * t.buckets))
  have length := counted.trans same.length_eq
  have before := sound.counted
  have loaded := sound.loaded
  have positive : 0 < t.buckets := Nat.lt_of_le_of_lt (Nat.zero_le _) (sound.placed.within [])
  refine ⟨⟨⟨k + 1, by omega, below, ?_⟩, placed, counted, by omega⟩, same, by omega⟩
  rw [buckets, size, Nat.pow_succ, Nat.mul_comm]

theorem Sound.rehash_max (sound : t.Sound) (max : ¬ t.buckets < maxBuckets) : t.rehash = t := by
  obtain ⟨k, least, most, size⟩ := sound.power
  have large : ¬ k < 27 := by
    intro below
    rw [size, maxBuckets, Nat.pow_lt_pow_iff_right (by decide)] at max
    exact max below
  rw [HashTable.rehash, create_twice least size, if_neg large]

/-! ### The operations -/

theorem view_isSome : (t.view key).isSome = (t.hashFind key).isSome := by
  rw [view, Option.isSome_map]

/-- The entries change, and the map under one key. -/
theorem view_cons {t' : HashTable} (sound : t.Sound) (sound' : t'.Sound) (grown : t'.visited.Perm (e :: t.visited)) :
    t'.view = Function.update t.view e.key (some e.value) := by
  funext key
  refine Option.ext fun value => ?_
  rw [sound'.view_eq_some, grown.mem_iff, List.mem_cons]
  by_cases here : key = e.key
  · subst here
    rw [Function.update_self, Option.some.injEq]
    constructor
    · rintro (same | mem)
      · exact (congrArg HashEntry.value same).symm
      · have nodup := (grown.map HashEntry.key).nodup_iff.mp sound'.placed.nodup
        exact absurd (List.mem_map_of_mem (f := HashEntry.key) mem) (List.nodup_cons.mp nodup).1
    · rintro rfl
      exact Or.inl rfl
  · rw [Function.update_of_ne here, sound.view_eq_some]
    exact or_iff_right fun same => here (congrArg HashEntry.key same)

/-- The key is there, or an entry for it finds room. -/
def Takes (t : HashTable) (key : List UInt8) : Prop :=
  t.view key ≠ none ∨ t.entries ≤ t.buckets ∨ t.buckets < maxBuckets

theorem Sound.hashFindOrAdd (sound : t.Sound) {key : List UInt8} (takes : t.Takes key) (value : ℤ) {fuel : ℕ}
    (enough : 2 ≤ fuel) :
    ∃ t', t.hashFindOrAdd fuel key value = some ((t.view key).isSome, ⟨key, (t.view key).getD value⟩, t') ∧
      t'.Sound ∧ t'.entries ≤ t.entries + 1 ∧
        t'.view = Function.update t.view key (some ((t.view key).getD value)) := by
  obtain ⟨fuel, rfl⟩ := Nat.exists_eq_add_of_le' enough
  rcases found : t.hashFind key with _ | e
  · have unseen : t.view key = none := by rw [view, found]; rfl
    have new := sound.placed.find_eq_none.mp found
    -- a table with room takes the entry
    have add : ∀ {r : HashTable} (fuel : ℕ), r.Sound → r.visited.Perm t.visited → r.entries ≤ r.buckets →
        ∃ t', r.hashFindOrAdd (fuel + 1) key value = some (false, ⟨key, value⟩, t') ∧ t'.Sound ∧
          t'.entries ≤ t.entries + 1 ∧ t'.view = Function.update t.view key (some value) := by
      intro r fuel sound_r same room
      have new_r : ∀ e ∈ r.visited, e.key ≠ key := fun e mem => new e (same.mem_iff.mp mem)
      have miss : r.hashFind key = none := sound_r.placed.find_eq_none.mpr new_r
      obtain ⟨placed, grown⟩ := sound_r.placed.insert (e := (⟨key, value⟩ : HashEntry)) new_r
        (List.perm_append_singleton _ _)
      have sound' : HashTable.Sound { r with
          entries := r.entries + 1
          bucket := Function.update r.bucket (r.index key) (r.bucket (r.index key) ++ [⟨key, value⟩]) } := by
        refine ⟨sound_r.power, placed, ?_, Nat.succ_le_succ room⟩
        change r.entries + 1 = _
        rw [sound_r.counted]
        exact grown.length_eq.symm
      refine ⟨_, ?_, sound', ?_, ?_⟩
      · rw [HashTable.hashFindOrAdd, miss]
        exact if_neg (Nat.not_lt.mpr room)
      · have length : r.entries = t.entries := by rw [sound_r.counted, sound.counted, same.length_eq]
        exact Nat.le_of_eq (congrArg (· + 1) length)
      · rw [view_cons sound_r sound' grown, view_of_perm sound sound_r same]
    rw [unseen]
    by_cases full : t.buckets < t.entries
    · have small : t.buckets < maxBuckets := by
        rcases takes with seen | room | small
        · exact absurd unseen seen
        · exact absurd full (Nat.not_lt.mpr room)
        · exact small
      obtain ⟨sound_r, same, room⟩ := sound.rehash small
      obtain ⟨t', run, rest⟩ := add fuel sound_r same room
      refine ⟨t', ?_, rest⟩
      rw [HashTable.hashFindOrAdd, found]
      dsimp only
      rw [if_pos full, run]
      rfl
    · obtain ⟨t', run, rest⟩ := add (fuel + 1) sound (List.Perm.refl _) (Nat.not_lt.mp full)
      exact ⟨t', run, rest⟩
  · obtain ⟨mem, rfl⟩ := sound.placed.find_eq_some.mp found
    have seen : t.view e.key = some e.value := by rw [view, found]; rfl
    refine ⟨t, ?_, sound, Nat.le_succ _, ?_⟩
    · rw [HashTable.hashFindOrAdd, found, seen]
      rfl
    · rw [seen, Option.getD_some, ← seen, Function.update_eq_self]

theorem Sound.least_buckets (sound : t.Sound) : 256 ≤ t.buckets := by
  obtain ⟨k, least, _, size⟩ := sound.power
  rw [size]
  exact Nat.pow_le_pow_right (n := 2) (by decide) least

/-- A new key never finds room in the largest table when it is full. -/
theorem Sound.hashFindOrAdd_full (sound : t.Sound) {key : List UInt8} (full : ¬ t.Takes key) (value : ℤ) (fuel : ℕ) :
    t.hashFindOrAdd fuel key value = none := by
  obtain ⟨unseen, more, max⟩ := not_or.mp full |>.imp not_not.mp not_or.mp
  have miss : t.hashFind key = none := by
    rw [view, Option.map_eq_none_iff] at unseen
    exact unseen
  induction fuel with
  | zero => rfl
  | succ fuel ih =>
      rw [HashTable.hashFindOrAdd, miss]
      dsimp only
      rw [if_pos (Nat.not_le.mp more), sound.rehash_max max]
      exact ih

theorem perm_eraseP {l : List HashEntry} (mem : e ∈ l) (nodup : (l.map HashEntry.key).Nodup) :
    l.Perm (e :: l.eraseP fun e' => e'.key = e.key) := by
  obtain ⟨e', before, after, _, same, split, erased⟩ := List.exists_of_eraseP
    (p := fun e' : HashEntry => decide (e'.key = e.key)) mem (decide_eq_true rfl)
  have alike : e' = e := List.inj_on_of_nodup_map nodup (split ▸ List.mem_append_right _ List.mem_cons_self) mem
    (of_decide_eq_true same)
  rw [erased, split, alike]
  exact List.perm_middle

theorem Sound.hashRemove (sound : t.Sound) (key : List UInt8) :
    (t.hashRemove key).Sound ∧ (t.hashRemove key).view = Function.update t.view key none := by
  rcases found : t.hashFind key with _ | e
  · have unseen : t.view key = none := by rw [view, found]; rfl
    rw [HashTable.hashRemove, found, ← unseen, Function.update_eq_self]
    exact ⟨sound, rfl⟩
  · obtain ⟨mem, rfl⟩ := sound.placed.find_eq_some.mp found
    have held := List.mem_of_find?_eq_some found
    have inner : (t.bucket (t.index e.key)).Sublist t.visited := by
      rw [visited, Buckets.entries, List.flatMap_def]
      exact List.sublist_flatten_of_mem (List.mem_map_of_mem (List.mem_range.mpr (sound.placed.within e.key)))
    have chain := sound.placed.nodup.sublist (inner.map HashEntry.key)
    obtain ⟨placed, shrunk⟩ := sound.placed.erase (perm_eraseP held chain)
    have run : t.hashRemove e.key = { t with
        entries := t.entries - 1
        bucket := Function.update t.bucket (t.index e.key) ((t.bucket (t.index e.key)).eraseP fun e' => e'.key = e.key) } := by
      rw [HashTable.hashRemove, found]
      rfl
    have gone : e.key ∉ (t.hashRemove e.key).visited.map HashEntry.key := by
      rw [run]
      exact (List.nodup_cons.mp ((shrunk.map HashEntry.key).nodup_iff.mp sound.placed.nodup)).1
    have length := shrunk.length_eq
    rw [List.length_cons] at length
    have counted := sound.counted
    have loaded := sound.loaded
    have sound' : (t.hashRemove e.key).Sound := by
      rw [run]
      refine ⟨sound.power, placed, ?_, Nat.le_trans (Nat.sub_le _ _) loaded⟩
      change t.entries - 1 = (Buckets.entries _ _).length
      rw [counted, visited, length]
      rfl
    refine ⟨sound', ?_⟩
    have back : t.view = Function.update (t.hashRemove e.key).view e.key (some e.value) := by
      refine view_cons sound' sound ?_
      rw [run]
      exact shrunk
    have none : (t.hashRemove e.key).view e.key = none := by
      refine Option.eq_none_iff_forall_ne_some.mpr fun value held => gone ?_
      have mem := sound'.view_eq_some.mp held
      exact List.mem_map.mpr ⟨_, mem, rfl⟩
    rw [back, Function.update_idem, ← none, Function.update_eq_self]

/-! ### Whole runs -/

/-- An operation and what it answers. -/
inductive TableCall
  | found (key : List UInt8) (answer : Option HashEntry)
  | added (key : List UInt8) (value : ℤ) (found : Bool) (entry : HashEntry)
  | removed (key : List UInt8)
  | count (n : ℕ)
  | mapped (seen : List HashEntry)

inductive TableStep (t : HashTable) : TableCall → HashTable → Prop
  | found (key : List UInt8) : TableStep t (.found key (t.hashFind key)) t
  | added {key : List UInt8} {value : ℤ} {fuel : ℕ} {found : Bool} {entry : HashEntry} {t' : HashTable}
      (enough : 2 ≤ fuel) (run : t.hashFindOrAdd fuel key value = some (found, entry, t')) :
      TableStep t (.added key value found entry) t'
  | removed (key : List UInt8) : TableStep t (.removed key) (t.hashRemove key)
  | count : TableStep t (.count t.entries) t
  | mapped : TableStep t (.mapped t.visited) t

/-- The keys of a map with their values, each once. -/
structure Lists (m : List UInt8 → Option ℤ) (seen : List HashEntry) : Prop where
  once : (seen.map HashEntry.key).Nodup
  all : ∀ key value, m key = some value ↔ ⟨key, value⟩ ∈ seen

/-- The same of a map. -/
inductive MapOf (m : List UInt8 → Option ℤ) : TableCall → (List UInt8 → Option ℤ) → Prop
  | found (key : List UInt8) : MapOf m (.found key ((m key).map fun value => ⟨key, value⟩)) m
  | added (key : List UInt8) (value : ℤ) :
      MapOf m (.added key value (m key).isSome ⟨key, (m key).getD value⟩)
        (Function.update m key (some ((m key).getD value)))
  | removed (key : List UInt8) : MapOf m (.removed key) (Function.update m key none)
  | count {seen : List HashEntry} (lists : Lists m seen) : MapOf m (.count seen.length) m
  | mapped {seen : List HashEntry} (lists : Lists m seen) : MapOf m (.mapped seen) m

theorem view_create {initSize : ℕ} (made : create initSize = some t) : t.view = fun _ => none := by
  obtain ⟨sound, none, _⟩ := create_empty made
  funext key
  refine Option.eq_none_iff_forall_ne_some.mpr fun value held => ?_
  have mem := sound.view_eq_some.mp held
  rw [none] at mem
  exact absurd mem List.not_mem_nil

theorem Sound.lists (sound : t.Sound) : Lists t.view t.visited :=
  ⟨sound.placed.nodup, fun _ _ => sound.view_eq_some⟩

theorem TableStep.refines {call : TableCall} {t' : HashTable} (sound : t.Sound) (step : TableStep t call t') :
    t'.Sound ∧ MapOf t.view call t'.view := by
  cases step with
  | found key =>
      refine ⟨sound, ?_⟩
      have answer : t.hashFind key = (t.view key).map fun value => ⟨key, value⟩ := by
        rcases found : t.hashFind key with _ | e
        · rw [view, found]
          rfl
        · obtain ⟨_, rfl⟩ := sound.placed.find_eq_some.mp found
          rw [view, found]
          rfl
      rw [answer]
      exact MapOf.found key
  | @added key value fuel found entry t' enough run =>
      by_cases takes : t.Takes key
      · obtain ⟨t₁, run', sound', _, same⟩ := sound.hashFindOrAdd takes value enough
        cases run.symm.trans run'
        exact ⟨sound', same ▸ MapOf.added key value⟩
      · cases run.symm.trans (sound.hashFindOrAdd_full takes value fuel)
  | removed key =>
      obtain ⟨sound', same⟩ := sound.hashRemove key
      exact ⟨sound', same ▸ MapOf.removed key⟩
  | count =>
      refine ⟨sound, ?_⟩
      rw [sound.counted]
      exact MapOf.count sound.lists
  | mapped => exact ⟨sound, MapOf.mapped sound.lists⟩

/-- Over any run from a new table, also through its doublings, what is found, added, removed, counted
and gone through is what one map holds, and there are never more entries than buckets, but for one.
Adding comes to an end exactly as long as the key is there, the table is not full or can be doubled. -/
theorem hash_table_refines_map {initSize : ℕ} {t₀ : HashTable} {T : List TableCall}
    (made : create initSize = some t₀) (run : Run TableStep t₀ T t) :
    Run MapOf (fun _ => none) T t.view ∧ t.entries ≤ t.buckets + 1 ∧ t.buckets ≤ maxBuckets ∧
      ∀ key value fuel, 2 ≤ fuel → ((t.hashFindOrAdd fuel key value).isSome ↔ t.Takes key) := by
  have both : t.Sound ∧ Run MapOf (fun _ => none) T t.view := by
    induction run with
    | nil => exact ⟨(create_empty made).1, view_create made ▸ .nil⟩
    | snoc _ last ih =>
        obtain ⟨sound, step⟩ := last.refines ih.1
        exact ⟨sound, .snoc ih.2 step⟩
  obtain ⟨sound, refines⟩ := both
  refine ⟨refines, sound.loaded, ?_, fun key value fuel enough => ⟨fun ends => ?_, fun takes => ?_⟩⟩
  · obtain ⟨k, _, most, size⟩ := sound.power
    rw [size]
    exact Nat.pow_le_pow_right (by decide) most
  · by_contra full
    rw [sound.hashFindOrAdd_full full value fuel] at ends
    cases ends
  · obtain ⟨t', run', _⟩ := sound.hashFindOrAdd takes value enough
    rw [run']
    rfl

/-- The tables that are made here. -/
theorem exists_create : ∃ t, create 383 = some t := by
  have size : doubled 383 256 = 512 := by rw [doubled, if_pos (by decide), doubled, if_neg (by decide)]
  rw [create, size]
  exact ⟨_, rfl⟩

theorem hash_table_refines_map_twice : ∃ t₀ t : HashTable, create 383 = some t₀ ∧
    Run TableStep t₀ [.added [97] 5 true ⟨[97], 4⟩, .added [97] 4 false ⟨[97], 4⟩] t ∧
      Run MapOf (fun _ => none) [.added [97] 5 true ⟨[97], 4⟩, .added [97] 4 false ⟨[97], 4⟩] t.view ∧
      t.entries ≤ t.buckets + 1 := by
  obtain ⟨t₀, made⟩ := exists_create
  obtain ⟨sound, _, empty⟩ := create_empty made
  have none : t₀.view [97] = none := congrFun (view_create made) [97]
  have room : t₀.Takes [97] := Or.inr (Or.inl (empty ▸ Nat.zero_le _))
  obtain ⟨t₁, run₁, sound₁, _, same₁⟩ := sound.hashFindOrAdd room 4 (Nat.le_refl 2)
  rw [none] at run₁ same₁
  have some : t₁.view [97] = some 4 := (congrFun same₁ [97]).trans (Function.update_self ..)
  have seen : t₁.Takes [97] := Or.inl (some ▸ Option.some_ne_none 4)
  obtain ⟨t₂, run₂, _, _⟩ := sound₁.hashFindOrAdd seen 5 (Nat.le_refl 2)
  rw [some] at run₂
  have run : Run TableStep t₀ _ t₂ :=
    .snoc (.single (.added (Nat.le_refl 2) run₁)) (.added (Nat.le_refl 2) run₂)
  obtain ⟨refines, loaded, _⟩ := hash_table_refines_map made run
  exact ⟨t₀, t₂, made, run, refines, loaded⟩

end HashTable

end BloomServer
