import Mathlib.Data.List.Nodup
import Mathlib.Logic.Relation

/-!
# Ledgers

A ledger is a list of groups of named items. A step appends a group as a whole, all of whose names
are new (`Step`). So names stay distinct (`Step.nodup`), no group is there twice (`groups_of_steps`),
and what was appended stays where it is (`extends_of_steps`).
-/

namespace Ledger

open Relation

variable {ν φ : Type*} {name : φ → ν} {l l' : List (List φ)}

/-- The names in a ledger. -/
def names (name : φ → ν) (l : List (List φ)) : List ν := l.flatten.map name

inductive Step (name : φ → ν) (l : List (List φ)) : List (List φ) → Prop
  | append {group : List φ} (some : group ≠ []) (once : (group.map name).Nodup)
      (new : ∀ x ∈ group, name x ∉ names name l) : Step name l (l ++ [group])

theorem Step.nodup (h : Step name l l') (hn : (names name l).Nodup) : (names name l').Nodup := by
  cases h with
  | @append group _ once new =>
    rw [names, List.flatten_append, List.flatten_singleton, List.map_append]
    refine List.nodup_append.2 ⟨hn, once, fun a ha b hb => ?_⟩
    obtain ⟨x, hx, rfl⟩ := List.mem_map.1 hb
    exact ne_of_mem_of_not_mem ha (new x hx)

/-- Names stay distinct. -/
theorem nodup_of_steps (h : ReflTransGen (Step name) l l') (hn : (names name l).Nodup) :
    (names name l').Nodup := by
  induction h with
  | refl => exact hn
  | tail _ hs ih => exact hs.nodup ih

/-- No group is there twice. -/
theorem groups_of_steps (h : ReflTransGen (Step name) l l') (hn : l.Nodup) : l'.Nodup := by
  induction h with
  | refl => exact hn
  | tail _ hs ih =>
    cases hs with
    | @append group some _ new =>
      refine List.nodup_append.2 ⟨ih, List.nodup_singleton _, fun g hg g' hg' => ?_⟩
      obtain ⟨x, hx⟩ := List.exists_mem_of_ne_nil _ some
      rw [List.mem_singleton.1 hg']
      rintro rfl
      exact new x hx (List.mem_map_of_mem (List.mem_flatten_of_mem hg hx))

/-- What was appended stays where it is. -/
theorem extends_of_steps (h : ReflTransGen (Step name) l l') : ∃ more, l' = l ++ more := by
  induction h with
  | refl => exact ⟨[], (List.append_nil l).symm⟩
  | tail _ hs ih =>
    obtain ⟨more, rfl⟩ := ih
    cases hs with
    | @append group _ _ _ => exact ⟨more ++ [group], List.append_assoc _ _ _⟩

end Ledger
