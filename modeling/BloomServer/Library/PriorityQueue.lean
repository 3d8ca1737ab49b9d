import Mathlib.Data.List.Basic
import Mathlib.Logic.Equiv.Basic
import Mathlib.Order.WithBot
import Mathlib.Tactic.Common

/-! A binary heap in an array, smallest key first, with the element moves of `push_heap` and
`pop_heap`: an element that is taken off the top leaves a hole that sinks to the bottom. -/
namespace PriorityQueue

def parent (i : ℕ) : ℕ := (i - 1) / 2

theorem parent_lt {i : ℕ} (positive : 0 < i) : parent i < i := by
  unfold parent
  omega

/-! ### Orders on positions -/

section Positions

variable {κ : Type*} [LinearOrder κ] {f : ℕ → κ} {i : ℕ}

/-- No position comes before its parent. -/
def Ordered (f : ℕ → κ) : Prop := ∀ j, 0 < j → f (parent j) ≤ f j

/-- The children of a position do not come before its parent. -/
def Grand (f : ℕ → κ) (i : ℕ) : Prop := ∀ j, 0 < j → parent j = i → 0 < i → f (parent i) ≤ f j

/-- Only the position itself may come before its parent. -/
structure OrderedAbove (f : ℕ → κ) (i : ℕ) : Prop where
  others : ∀ j, 0 < j → j ≠ i → f (parent j) ≤ f j
  grand : Grand f i

/-- Nothing is known of the position. -/
structure OrderedAround (f : ℕ → κ) (i : ℕ) : Prop where
  others : ∀ j, 0 < j → j ≠ i → parent j ≠ i → f (parent j) ≤ f j
  grand : Grand f i

theorem Ordered.least (ordered : Ordered f) (i : ℕ) : f 0 ≤ f i := by
  induction i using Nat.strong_induction_on with
  | _ i ih =>
      by_cases top : i = 0
      · rw [top]
      · have positive := Nat.pos_of_ne_zero top
        exact (ih (parent i) (parent_lt positive)).trans (ordered i positive)

theorem OrderedAbove.finish (above : OrderedAbove f i) (stop : 0 < i → f (parent i) ≤ f i) :
    Ordered f := by
  intro j positive
  by_cases same : j = i
  · subst same
    exact stop positive
  · exact above.others j positive same

theorem OrderedAround.finish (around : OrderedAround f i)
    (stop : ∀ j, 0 < j → parent j = i → f i ≤ f j) : OrderedAbove f i := by
  constructor
  · intro j positive other
    by_cases child : parent j = i
    · rw [child]
      exact stop j positive child
    · exact around.others j positive other child
  · exact around.grand

/-- An element that comes before its parent changes places with it. -/
theorem OrderedAbove.rise (above : OrderedAbove f i) (positive : 0 < i)
    (before : f i < f (parent i)) : OrderedAbove (f ∘ Equiv.swap i (parent i)) (parent i) := by
  have lower := parent_lt positive
  have atParent : (f ∘ Equiv.swap i (parent i)) (parent i) = f i := by
    rw [Function.comp_apply, Equiv.swap_apply_right]
  have atSelf : (f ∘ Equiv.swap i (parent i)) i = f (parent i) := by
    rw [Function.comp_apply, Equiv.swap_apply_left]
  have elsewhere (j : ℕ) (h : j ≠ i) (h' : j ≠ parent i) :
      (f ∘ Equiv.swap i (parent i)) j = f j := by
    rw [Function.comp_apply, Equiv.swap_apply_of_ne_of_ne h h']
  -- The children of the parent, the element's old siblings among them.
  have sibling (j : ℕ) (child : 0 < j) (same : parent j = parent i) (other : j ≠ i) :
      f (parent i) ≤ f j := by
    rw [← same]
    exact above.others j child other
  constructor
  · intro j child other
    by_cases self : j = i
    · rw [self, atSelf, atParent]
      exact before.le
    · rw [elsewhere j self other]
      by_cases below : parent j = i
      · rw [below, atSelf]
        exact above.grand j child below positive
      · by_cases beside : parent j = parent i
        · rw [beside, atParent]
          exact before.le.trans (sibling j child beside self)
        · rw [elsewhere _ below beside]
          exact above.others j child self
  · intro j child same high
    have upper : f (parent (parent i)) ≤ f (parent i) := above.others _ high lower.ne
    have smaller := parent_lt high
    rw [elsewhere _ (smaller.trans lower).ne smaller.ne]
    by_cases self : j = i
    · rw [self, atSelf]
      exact upper
    · have later := parent_lt child
      rw [same] at later
      rw [elsewhere j self later.ne']
      exact upper.trans (sibling j child same self)

/-- The least of the children moves up into the hole. -/
theorem OrderedAround.sink {c : ℕ} (around : OrderedAround f i) (positive : 0 < c)
    (child : parent c = i) (least : ∀ j, 0 < j → parent j = i → f c ≤ f j) :
    OrderedAround (f ∘ Equiv.swap i c) c := by
  have lower : i < c := by
    rw [← child]
    exact parent_lt positive
  have atHole : (f ∘ Equiv.swap i c) i = f c := by
    rw [Function.comp_apply, Equiv.swap_apply_left]
  have elsewhere (j : ℕ) (h : j ≠ i) (h' : j ≠ c) : (f ∘ Equiv.swap i c) j = f j := by
    rw [Function.comp_apply, Equiv.swap_apply_of_ne_of_ne h h']
  constructor
  · intro j above other below
    by_cases self : j = i
    · have higher := parent_lt above
      rw [self] at higher
      rw [self, atHole, elsewhere _ higher.ne (higher.trans lower).ne]
      exact around.grand c positive child (by rw [← self]; exact above)
    · rw [elsewhere j self other]
      by_cases beside : parent j = i
      · rw [beside, atHole]
        exact least j above beside
      · rw [elsewhere _ beside below]
        exact around.others j above self beside
  · intro j above below _
    have later := parent_lt above
    rw [below] at later
    rw [child, atHole, elsewhere j (lower.trans later).ne' later.ne']
    have edge := around.others j above (lower.trans later).ne' (by rw [below]; exact lower.ne')
    rwa [below] at edge

end Positions

/-! ### Heaps in arrays -/

section Heaps

variable {α κ : Type*} (key : α → κ)

/-- The key at a position; every position after the array comes last. -/
def rank (a : Array α) (i : ℕ) : WithTop κ := a[i]?.elim ⊤ fun x => (key x : WithTop κ)

section Rank

variable {key} {a : Array α} {i : ℕ}

theorem rank_eq_top (outside : a.size ≤ i) : rank key a i = ⊤ := by
  rw [rank, Array.getElem?_eq_none outside]
  rfl

theorem rank_eq (inside : i < a.size) : rank key a i = key a[i] := by
  rw [rank, Array.getElem?_eq_getElem inside]
  rfl

theorem rank_swap {j : ℕ} (inside : i < a.size) (inside' : j < a.size) :
    rank key (a.swapIfInBounds i j) = rank key a ∘ Equiv.swap i j := by
  funext k
  have cases := Array.getElem?_swap inside inside' (k := k)
  rw [Function.comp_apply, rank, Array.swapIfInBounds_def, dif_pos inside, dif_pos inside', cases]
  by_cases right : k = j
  · rw [if_pos right.symm, right, Equiv.swap_apply_right, rank_eq inside]
    rfl
  · rw [if_neg (Ne.symm right)]
    by_cases left : k = i
    · rw [if_pos left.symm, left, Equiv.swap_apply_left, rank_eq inside']
      rfl
    · rw [if_neg (Ne.symm left), Equiv.swap_apply_of_ne_of_ne left right]
      rfl

theorem rank_pop (inside : i + 1 < a.size) : rank key a.pop i = rank key a i := by
  rw [rank, Array.getElem?_pop, if_pos (by omega), ← rank]

end Rank

variable [LinearOrder κ]

/-- `__push_heap`, with as many rounds left as its first argument says. -/
def siftUp : ℕ → ℕ → Array α → Array α
  | 0, _, a => a
  | n + 1, i, a =>
      if 0 < i ∧ rank key a i < rank key a (parent i) then
        siftUp n (parent i) (a.swapIfInBounds i (parent i))
      else a

/-- The child that comes first. -/
def firstChild (a : Array α) (i : ℕ) : ℕ :=
  if rank key a (2 * i + 1) < rank key a (2 * i + 2) then 2 * i + 1 else 2 * i + 2

/-- The first loop of `__adjust_heap`, with the place the hole has come to. -/
def siftDown : ℕ → ℕ → Array α → ℕ × Array α
  | 0, i, a => (i, a)
  | n + 1, i, a =>
      if 2 * i + 1 < a.size then
        siftDown n (firstChild key a i) (a.swapIfInBounds i (firstChild key a i))
      else (i, a)

def push (a : Array α) (x : α) : Array α := siftUp key a.size a.size (a.push x)

/-- The array without its top. -/
def pop (a : Array α) : Array α :=
  let hole := siftDown key a.size 0 (a.swapIfInBounds 0 (a.size - 1)).pop
  siftUp key hole.1 hole.1 hole.2

/-- A heap: no element comes before its parent. -/
def IsHeap (a : Array α) : Prop := Ordered (rank key a)

/-- A heap but for its top. -/
def IsHeapBelow (a : Array α) : Prop :=
  ∀ j, 0 < j → parent j ≠ 0 → rank key a (parent j) ≤ rank key a j

variable {key} {a b : Array α}

theorem IsHeap.below (heap : IsHeap key a) : IsHeapBelow key a := fun j positive _ => heap j positive

theorem rank_parent_le_iff {i : ℕ} (positive : 0 < i) :
    rank key a (parent i) ≤ rank key a i ↔
      ∀ x y, a[parent i]? = some x → a[i]? = some y → key x ≤ key y := by
  constructor
  · intro le x y upper lower
    rw [rank, rank, upper, lower] at le
    exact WithTop.coe_le_coe.mp le
  · intro le
    by_cases inside : i < a.size
    · have higher := (parent_lt positive).trans inside
      rw [rank_eq inside, rank_eq higher]
      exact WithTop.coe_le_coe.mpr
        (le _ _ (Array.getElem?_eq_getElem higher) (Array.getElem?_eq_getElem inside))
    · rw [rank_eq_top (Nat.le_of_not_lt inside)]
      exact le_top

theorem isHeap_iff : IsHeap key a ↔
    ∀ i, 0 < i → ∀ x y, a[parent i]? = some x → a[i]? = some y → key x ≤ key y :=
  forall_congr' fun _ => forall_congr' rank_parent_le_iff

theorem isHeapBelow_iff : IsHeapBelow key a ↔ ∀ i, 0 < i → parent i ≠ 0 →
    ∀ x y, a[parent i]? = some x → a[i]? = some y → key x ≤ key y :=
  forall_congr' fun _ => forall_congr' fun positive => forall_congr' fun _ =>
    rank_parent_le_iff positive

/-- Being a heap is about the keys of the elements only. -/
theorem IsHeap.congr {key' : α → κ} (same : ∀ x ∈ a, key' x = key x) (heap : IsHeap key a) :
    IsHeap key' a := by
  rw [isHeap_iff] at heap ⊢
  intro i positive x y upper lower
  rw [same x (Array.mem_of_getElem? upper), same y (Array.mem_of_getElem? lower)]
  exact heap i positive x y upper lower

theorem lt_size_of_rank {i : ℕ} {k : WithTop κ} (before : rank key a i < k) : i < a.size := by
  by_contra outside
  rw [rank_eq_top (Nat.le_of_not_lt outside)] at before
  exact not_top_lt before

/-- The key of the top is a lower bound. -/
theorem IsHeap.least (heap : IsHeap key a) {x y : α} (top : a[0]? = some x) (mem : y ∈ a) :
    key x ≤ key y := by
  obtain ⟨i, inside, rfl⟩ := Array.getElem_of_mem mem
  have least := Ordered.least heap i
  rw [rank, top, Option.elim_some, rank_eq inside] at least
  exact WithTop.coe_le_coe.mp least

theorem siftUp_heap {n i : ℕ} (few : i ≤ n) (above : OrderedAbove (rank key a) i) :
    IsHeap key (siftUp key n i a) := by
  induction n generalizing i a with
  | zero => exact above.finish fun positive => absurd positive (by omega)
  | succ n ih =>
      rw [siftUp]
      split_ifs with before
      · have lower := parent_lt before.1
        have inside := lt_size_of_rank before.2
        apply ih (by omega)
        rw [rank_swap inside (by omega)]
        exact above.rise before.1 before.2
      · exact above.finish fun positive => not_lt.mp fun lt => before ⟨positive, lt⟩

theorem parent_firstChild (i : ℕ) : parent (firstChild key a i) = i := by
  unfold firstChild parent
  split_ifs <;> omega

theorem firstChild_pos (i : ℕ) : 0 < firstChild key a i := by
  unfold firstChild
  split_ifs <;> omega

theorem firstChild_lt {i : ℕ} (inside : 2 * i + 1 < a.size) : firstChild key a i < a.size := by
  unfold firstChild
  split_ifs with before
  · exact inside
  · rw [rank_eq inside] at before
    by_contra outside
    rw [rank_eq_top (Nat.le_of_not_lt outside)] at before
    exact before (WithTop.coe_lt_top _)

theorem firstChild_least {i j : ℕ} (positive : 0 < j) (child : parent j = i) :
    rank key a (firstChild key a i) ≤ rank key a j := by
  have either : j = 2 * i + 1 ∨ j = 2 * i + 2 := by
    unfold parent at child
    omega
  unfold firstChild
  rcases either with rfl | rfl
  · split_ifs with before
    · exact le_refl _
    · exact not_lt.mp before
  · split_ifs with before
    · exact before.le
    · exact le_refl _

/-- A hole without children. -/
theorem OrderedAround.bottom {i : ℕ} (around : OrderedAround (rank key a) i)
    (last : a.size ≤ 2 * i + 1) : OrderedAbove (rank key a) i := by
  apply around.finish
  intro j positive child
  have outside : a.size ≤ j := by
    unfold parent at child
    omega
  rw [rank_eq_top outside]
  exact le_top

theorem siftDown_around {n i : ℕ} (few : a.size ≤ n + i) (around : OrderedAround (rank key a) i) :
    OrderedAbove (rank key (siftDown key n i a).2) (siftDown key n i a).1 := by
  induction n generalizing i a with
  | zero => exact around.bottom (by omega)
  | succ n ih =>
      rw [siftDown]
      split_ifs with inside
      · have lower : i < firstChild key a i := by
          have below : parent (firstChild key a i) < firstChild key a i :=
            parent_lt (firstChild_pos i)
          rwa [parent_firstChild] at below
        have within : firstChild key a i < a.size := firstChild_lt inside
        apply ih
        · rw [Array.size_swapIfInBounds]
          omega
        · rw [rank_swap (by omega) within]
          exact around.sink (firstChild_pos i) (parent_firstChild i) fun j positive child =>
            firstChild_least positive child
      · exact around.bottom (by omega)

theorem push_heap (heap : IsHeap key a) (x : α) : IsHeap key (push key a x) := by
  apply siftUp_heap (Nat.le_refl _)
  have old {j : ℕ} (inside : j < a.size) : rank key (a.push x) j = rank key a j := by
    rw [rank, Array.getElem?_push, if_neg (by omega), ← rank]
  constructor
  · intro j positive other
    by_cases inside : j < a.size
    · have lower := parent_lt positive
      rw [old inside, old (lower.trans inside)]
      exact heap j positive
    · have outside : (a.push x).size ≤ j := by
        rw [Array.size_push]
        omega
      rw [rank_eq_top outside]
      exact le_top
  · intro j positive child _
    have later := parent_lt positive
    have outside : (a.push x).size ≤ j := by
      rw [Array.size_push]
      omega
    rw [rank_eq_top outside]
    exact le_top

/-- Taking the top off makes a heap again, whatever key it had. -/
theorem pop_heap (heap : IsHeapBelow key a) : IsHeap key (pop key a) := by
  apply siftUp_heap (Nat.le_refl _)
  apply siftDown_around
  · rw [Array.size_pop, Array.size_swapIfInBounds]
    omega
  constructor
  · intro j positive _ below
    have lower := parent_lt positive
    have root : parent j ≠ 0 := below
    by_cases inside : j + 1 < a.size
    · have moved (k : ℕ) (before : k ≤ j) (high : k ≠ 0) :
          rank key (a.swapIfInBounds 0 (a.size - 1)).pop k = rank key a k := by
        rw [rank_pop (by rw [Array.size_swapIfInBounds]; omega),
          rank_swap (by omega) (by omega), Function.comp_apply,
          Equiv.swap_apply_of_ne_of_ne high (by omega)]
      rw [moved j (Nat.le_refl j) positive.ne', moved (parent j) lower.le root]
      exact heap j positive root
    · have outside : (a.swapIfInBounds 0 (a.size - 1)).pop.size ≤ j := by
        rw [Array.size_pop, Array.size_swapIfInBounds]
        omega
      rw [rank_eq_top outside]
      exact le_top
  · intro _ _ _ high
    exact absurd high (Nat.lt_irrefl 0)

theorem heap_empty : IsHeap key (#[] : Array α) := by
  intro j _
  have outside : (#[] : Array α).size ≤ j := Nat.zero_le j
  rw [rank_eq_top outside]
  exact le_top

/-! ### What the moves leave alone -/

theorem swap_perm (a : Array α) (i j : ℕ) : (a.swapIfInBounds i j).toList.Perm a.toList := by
  rw [Array.swapIfInBounds_def]
  split_ifs with left right
  · exact (Array.swap_perm left right).toList
  · exact List.Perm.refl _
  · exact List.Perm.refl _

theorem siftUp_perm (n i : ℕ) (a : Array α) : (siftUp key n i a).toList.Perm a.toList := by
  induction n generalizing i a with
  | zero => exact List.Perm.refl _
  | succ n ih =>
      rw [siftUp]
      split_ifs
      · exact (ih _ _).trans (swap_perm a _ _)
      · exact List.Perm.refl _

theorem siftDown_perm (n i : ℕ) (a : Array α) : (siftDown key n i a).2.toList.Perm a.toList := by
  induction n generalizing i a with
  | zero => exact List.Perm.refl _
  | succ n ih =>
      rw [siftDown]
      split_ifs
      · exact (ih _ _).trans (swap_perm a _ _)
      · exact List.Perm.refl _

theorem push_perm (key : α → κ) (a : Array α) (x : α) : (push key a x).toList.Perm (x :: a.toList) := by
  apply (siftUp_perm _ _ _).trans
  rw [Array.toList_push]
  exact List.perm_append_singleton x a.toList

/-- Exactly the top is taken off. -/
theorem pop_perm (key : α → κ) {x : α} (top : a[0]? = some x) : a.toList.Perm (x :: (pop key a).toList) := by
  obtain ⟨inside, first⟩ := Array.getElem?_eq_some_iff.mp top
  have rest : (pop key a).toList.Perm (a.swapIfInBounds 0 (a.size - 1)).pop.toList :=
    (siftUp_perm _ _ _).trans (siftDown_perm _ _ _)
  have last : (a.swapIfInBounds 0 (a.size - 1)).toList =
      (a.swapIfInBounds 0 (a.size - 1)).pop.toList ++ [x] := by
    rw [Array.toList_pop]
    apply (List.dropLast_append_getLast? x _).symm
    have place : a.size - 1 < (a.swapIfInBounds 0 (a.size - 1)).size := by
      rw [Array.size_swapIfInBounds]
      omega
    rw [Option.mem_def, List.getLast?_eq_getElem?, Array.length_toList, Array.getElem?_toList,
      Array.size_swapIfInBounds, Array.getElem?_eq_getElem place,
      Array.getElem_swapIfInBounds_right inside, first]
  have whole := (swap_perm a 0 (a.size - 1)).symm
  rw [last] at whole
  exact (whole.trans (List.perm_append_singleton x _)).trans (rest.symm.cons x)

end Heaps
end PriorityQueue
