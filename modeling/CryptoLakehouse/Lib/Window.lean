import Mathlib.Data.List.Sort
import Mathlib.Data.List.Nodup
import Mathlib.Data.List.Induction

/-!
# Row numbers

`row_number() OVER (PARTITION BY part ORDER BY le)`. The order is any total preorder, so a sort may
resolve ties as it likes: `Window.Ordering le` is one way to do it. `rowNumber part rows` numbers
sorted rows within their partitions.

`firsts part rows` are the rows numbered 1: one for each partition (`nodup_firsts`,
`mem_map_firsts`), and a least one of it (`first_le`).
-/

namespace Window

variable {α π : Type*}

/-- A way to sort rows by `le`, ties included. -/
structure Ordering (le : α → α → Bool) where
  apply : List α → List α
  perm : ∀ rows, (apply rows).Perm rows
  sorted : ∀ rows, (apply rows).Pairwise fun a b => le a b = true

/-- Insertion sort: equal rows keep their order. -/
def Ordering.stable (le : α → α → Bool) (total : ∀ a b, le a b = true ∨ le b a = true)
    (trans : ∀ a b c, le a b = true → le b c = true → le a c = true) : Ordering le where
  apply rows := rows.insertionSort fun a b => le a b = true
  perm rows := List.perm_insertionSort _ rows
  sorted rows :=
    haveI : Std.Total fun a b => le a b = true := ⟨total⟩
    haveI : IsTrans α fun a b => le a b = true := ⟨trans⟩
    List.pairwise_insertionSort _ rows

section
variable [DecidableEq π] (part : α → π)

/-- The rows with their numbers, after rows of the partitions `seen`. -/
def numberFrom : List π → List α → List (α × Nat)
  | _, [] => []
  | seen, r :: rows => (r, seen.count (part r) + 1) :: numberFrom (part r :: seen) rows

/-- `row_number()` over sorted rows. -/
def rowNumber (rows : List α) : List (α × Nat) := numberFrom part [] rows

/-- The rows numbered 1, after rows of the partitions `seen`. -/
def firstsFrom (seen : List π) (rows : List α) : List α :=
  ((numberFrom part seen rows).filter fun p => p.2 == 1).map (·.1)

/-- The rows numbered 1. -/
def firsts (rows : List α) : List α := firstsFrom part [] rows

variable {part} {seen : List π} {rows : List α} {r r' : α} {p : π} {le : α → α → Bool}

theorem map_fst_numberFrom : (numberFrom part seen rows).map (·.1) = rows := by
  induction rows generalizing seen with
  | nil => rfl
  | cons r rows ih => rw [numberFrom, List.map_cons, ih]

/-- Numbering keeps the rows. -/
@[simp] theorem length_rowNumber : (rowNumber part rows).length = rows.length := by
  rw [← List.length_map (·.1), rowNumber, map_fst_numberFrom]

/-- Numbers start from 1. -/
theorem numberFrom_pos {q : α × Nat} (h : q ∈ numberFrom part seen rows) : 0 < q.2 := by
  induction rows generalizing seen with
  | nil => exact absurd h List.not_mem_nil
  | cons r rows ih =>
    rcases List.mem_cons.1 h with rfl | h
    · exact Nat.succ_pos _
    · exact ih h

@[simp] theorem firstsFrom_nil : firstsFrom part seen [] = [] := rfl

theorem firstsFrom_cons : firstsFrom part seen (r :: rows) =
    if part r ∈ seen then firstsFrom part (part r :: seen) rows
    else r :: firstsFrom part (part r :: seen) rows := by
  unfold firstsFrom
  rw [numberFrom, List.filter_cons]
  by_cases h : part r ∈ seen
  · have : ¬(seen.count (part r) + 1 == 1) = true := by
      have := List.count_pos_iff.2 h
      rw [beq_iff_eq]
      omega
    rw [if_pos h, if_neg this]
  · rw [if_neg h, List.count_eq_zero.2 h]
    rfl

theorem firstsFrom_sublist : (firstsFrom part seen rows).Sublist rows := by
  induction rows generalizing seen with
  | nil => exact List.Sublist.refl _
  | cons r rows ih =>
    rw [firstsFrom_cons]
    split
    · exact ih.cons r
    · exact ih.cons_cons r

/-- The partitions that come after `seen`. -/
theorem mem_map_firstsFrom :
    p ∈ (firstsFrom part seen rows).map part ↔ p ∈ rows.map part ∧ p ∉ seen := by
  induction rows generalizing seen with
  | nil => simp
  | cons r rows ih =>
    rw [firstsFrom_cons]
    by_cases h : part r ∈ seen
    · rw [if_pos h, ih, List.map_cons, List.mem_cons, List.mem_cons]
      refine ⟨fun ⟨h1, h2⟩ => ⟨.inr h1, fun hp => h2 (.inr hp)⟩, fun ⟨h1, h2⟩ => ?_⟩
      have hne : p ≠ part r := fun he => h2 (he ▸ h)
      exact ⟨h1.resolve_left hne, fun hp => hp.elim hne h2⟩
    · rw [if_neg h, List.map_cons, List.mem_cons, ih, List.map_cons, List.mem_cons, List.mem_cons]
      by_cases hp : p = part r
      · simp [hp, h]
      · simp [hp]

theorem nodup_firstsFrom : ((firstsFrom part seen rows).map part).Nodup := by
  induction rows generalizing seen with
  | nil => exact List.nodup_nil
  | cons r rows ih =>
    rw [firstsFrom_cons]
    split
    · exact ih
    · rw [List.map_cons, List.nodup_cons, mem_map_firstsFrom]
      exact ⟨fun h => h.2 List.mem_cons_self, ih⟩

/-- A row numbered 1 precedes the other rows of its partition. -/
theorem firstsFrom_le (hrefl : ∀ a, le a a = true)
    (hs : rows.Pairwise fun a b => le a b = true) (h : r ∈ firstsFrom part seen rows)
    (hr : r' ∈ rows) (hp : part r' = part r) : le r r' = true := by
  induction rows generalizing seen with
  | nil => exact absurd hr List.not_mem_nil
  | cons a rows ih =>
    obtain ⟨ha, hs⟩ := List.pairwise_cons.1 hs
    -- A later row of a partition that `a` is of is not numbered 1.
    have hlater : r ∈ firstsFrom part (part a :: seen) rows → part a ≠ part r := fun hm he =>
      (mem_map_firstsFrom.1 (List.mem_map_of_mem hm)).2 (he ▸ List.mem_cons_self)
    have hrest : r ∈ firstsFrom part (part a :: seen) rows → le r r' = true := fun hm => by
      rcases List.mem_cons.1 hr with rfl | hr
      · exact absurd hp (hlater hm)
      · exact ih hs hm hr
    rw [firstsFrom_cons] at h
    split at h
    · exact hrest h
    · rcases List.mem_cons.1 h with rfl | hm
      · rcases List.mem_cons.1 hr with rfl | hr
        · exact hrefl _
        · exact ha r' hr
      · exact hrest hm

/-- A last row is numbered 1 when its partition is new. -/
theorem firstsFrom_concat : firstsFrom part seen (rows ++ [r]) = firstsFrom part seen rows ++
    if part r ∈ seen ∨ part r ∈ rows.map part then [] else [r] := by
  induction rows generalizing seen with
  | nil => simp [firstsFrom_cons]
  | cons a rows ih =>
    have hc : (part r ∈ part a :: seen ∨ part r ∈ rows.map part) ↔
        (part r ∈ seen ∨ part r ∈ (a :: rows).map part) := by
      simp only [List.mem_cons, List.map_cons]
      tauto
    rw [List.cons_append, firstsFrom_cons, firstsFrom_cons, ih]
    simp only [hc]
    split <;> rfl

theorem firsts_sublist : (firsts part rows).Sublist rows := firstsFrom_sublist

theorem firsts_concat : firsts part (rows ++ [r]) =
    firsts part rows ++ if part r ∈ rows.map part then [] else [r] := by
  simp [firsts, firstsFrom_concat]

/-- **One row for each partition.** -/
theorem nodup_firsts : ((firsts part rows).map part).Nodup := nodup_firstsFrom

/-- Of rows of distinct partitions each is the first of its own. -/
theorem firsts_eq_self (h : (rows.map part).Nodup) : firsts part rows = rows := by
  induction rows using List.reverseRecOn with
  | nil => rfl
  | append_singleton rows r ih =>
    rw [List.map_append, List.nodup_append] at h
    rw [firsts_concat, ih h.1, if_neg fun hm => h.2.2 _ hm _ (List.mem_singleton_self _) rfl]

theorem mem_map_firsts : p ∈ (firsts part rows).map part ↔ p ∈ rows.map part := by
  rw [firsts, mem_map_firstsFrom]
  simp

/-- **The row numbered 1 is a least row of its partition.** -/
theorem first_le (hrefl : ∀ a, le a a = true) (hs : rows.Pairwise fun a b => le a b = true)
    (h : r ∈ firsts part rows) (hr : r' ∈ rows) (hp : part r' = part r) : le r r' = true :=
  firstsFrom_le hrefl hs h hr hp

end

end Window
