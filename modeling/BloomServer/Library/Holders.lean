import Mathlib.Data.List.Nodup
import Mathlib.Data.List.Perm.Basic
import Mathlib.Tactic.Common

/-! Who holds what: a list of pairs of a thing and its holder, in which no thing comes twice. -/
namespace Holders

variable {K T : Type*} {held : List (K × T)} {k k' : K} {t u : T}

theorem mem_keys : k ∈ held.map Prod.fst ↔ ∃ t, (k, t) ∈ held := by
  simp

theorem holder_unique (once : (held.map Prod.fst).Nodup) (first : (k, t) ∈ held)
    (second : (k, u) ∈ held) : t = u := by
  have same := List.inj_on_of_nodup_map once first second rfl
  exact congrArg Prod.snd same

variable [DecidableEq K] [DecidableEq T]

/-- Giving a thing back leaves exactly the other ones held. -/
theorem mem_keys_erase (once : (held.map Prod.fst).Nodup) (mem : (k, t) ∈ held) :
    k' ∈ (held.erase (k, t)).map Prod.fst ↔ k' ≠ k ∧ k' ∈ held.map Prod.fst := by
  have split : (held.map Prod.fst).Perm (k :: (held.erase (k, t)).map Prod.fst) :=
    (List.perm_cons_erase mem).map Prod.fst
  have apart := List.nodup_cons.mp (split.nodup_iff.mp once)
  rw [split.mem_iff, List.mem_cons]
  constructor
  · intro rest
    refine ⟨?_, Or.inr rest⟩
    rintro rfl
    exact apart.1 rest
  · rintro ⟨other, same | rest⟩
    · exact absurd same other
    · exact rest

theorem nodup_keys_erase (once : (held.map Prod.fst).Nodup) :
    ((held.erase (k, t)).map Prod.fst).Nodup :=
  once.sublist (List.erase_sublist.map _)

end Holders
