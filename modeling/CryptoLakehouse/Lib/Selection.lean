import Mathlib.Data.List.Perm.Subperm
import CryptoLakehouse.Lib.Window

/-!
# Selections

`Selection part le rows sel`: `sel` holds one row for each partition of `rows`, a least one. It is
what the rows numbered 1 are, however ties are resolved: for every ordering they are a selection
(`selection_firsts`), and every selection is what some ordering yields (`Selection.exists_ordering`).

Selections of rows without a partition in common add up (`Selection.append`), and rows of distinct
partitions are their own selection (`Selection.perm_of_nodup`).
-/

namespace Window

variable {α π : Type*}

structure Selection (part : α → π) (le : α → α → Bool) (rows sel : List α) : Prop where
  sub : sel.Subperm rows
  nodup : (sel.map part).Nodup
  covers : ∀ p, p ∈ sel.map part ↔ p ∈ rows.map part
  least : ∀ r ∈ sel, ∀ r' ∈ rows, part r' = part r → le r r' = true

section
variable {part : α → π} {le : α → α → Bool} {rows rows' sel sel' : List α}

theorem selection_nil : Selection part le [] [] where
  sub := List.Subperm.refl _
  nodup := List.nodup_nil
  covers _ := Iff.rfl
  least _ hr := absurd hr List.not_mem_nil

/-- **The rows numbered 1 are a selection.** -/
theorem selection_firsts [DecidableEq π] (hrefl : ∀ a, le a a = true) (ord : Ordering le) :
    Selection part le rows (firsts part (ord.apply rows)) where
  sub := firsts_sublist.subperm.trans (ord.perm rows).subperm
  nodup := nodup_firsts
  covers _ := mem_map_firsts.trans ((ord.perm rows).map part).mem_iff
  least _ hr _ hr' hp := first_le hrefl (ord.sorted rows) hr ((ord.perm rows).mem_iff.2 hr') hp

theorem Selection.perm_rows (h : Selection part le rows sel) (hp : rows.Perm rows') :
    Selection part le rows' sel where
  sub := h.sub.trans hp.subperm
  nodup := h.nodup
  covers p := (h.covers p).trans (hp.map part).mem_iff
  least r hr r' hr' := h.least r hr r' (hp.mem_iff.2 hr')

/-- Any two selections have a row for the same partitions. -/
theorem Selection.map_perm (h : Selection part le rows sel) (h' : Selection part le rows sel') :
    (sel.map part).Perm (sel'.map part) :=
  (List.perm_ext_iff_of_nodup h.nodup h'.nodup).2 fun p => (h.covers p).trans (h'.covers p).symm

theorem Selection.length_eq (h : Selection part le rows sel) (h' : Selection part le rows sel') :
    sel.length = sel'.length := by
  have hp := (h.map_perm h').length_eq
  rwa [List.length_map, List.length_map] at hp

/-- **Rows of distinct partitions** are selected whole. -/
theorem Selection.perm_of_nodup (h : Selection part le rows sel) (hn : (rows.map part).Nodup) :
    sel.Perm rows := by
  have hp : (sel.map part).Perm (rows.map part) :=
    (List.perm_ext_iff_of_nodup h.nodup hn).2 h.covers
  have hlen := hp.length_eq
  rw [List.length_map, List.length_map] at hlen
  exact h.sub.perm_of_length_le hlen.ge

/-- **Selections add up** when their rows have no partition in common. -/
theorem Selection.append (h : Selection part le rows sel) (h' : Selection part le rows' sel')
    (hd : ∀ a ∈ rows, ∀ b ∈ rows', part a ≠ part b) :
    Selection part le (rows ++ rows') (sel ++ sel') where
  sub := by
    obtain ⟨l, hl, hs⟩ := h.sub
    obtain ⟨l', hl', hs'⟩ := h'.sub
    exact ⟨l ++ l', hl.append hl', hs.append hs'⟩
  nodup := by
    rw [List.map_append, List.nodup_append]
    refine ⟨h.nodup, h'.nodup, fun p hp q hq => ?_⟩
    obtain ⟨a, ha, rfl⟩ := List.mem_map.1 ((h.covers p).1 hp)
    obtain ⟨b, hb, rfl⟩ := List.mem_map.1 ((h'.covers q).1 hq)
    exact hd a ha b hb
  covers p := by
    simp only [List.map_append, List.mem_append, h.covers, h'.covers]
  least r hr r' hr' hp := by
    rcases List.mem_append.1 hr with hr | hr <;> rcases List.mem_append.1 hr' with hr' | hr'
    · exact h.least r hr r' hr' hp
    · exact absurd hp.symm (hd r (h.sub.subset hr) r' hr')
    · exact absurd hp (hd r' hr' r (h'.sub.subset hr))
    · exact h'.least r hr r' hr' hp

end

/-! ## Ties -/

section
variable {le : α → α → Bool} {p : α → Bool} {a b c : α}

/-- `le`, and of two rows that tie, one with `p` first. -/
def preferLe (le : α → α → Bool) (p : α → Bool) (a b : α) : Bool :=
  le a b && (!le b a || !p b || p a)

theorem preferLe_iff : preferLe le p a b = true ↔
    le a b = true ∧ (le b a = true → p b = true → p a = true) := by
  unfold preferLe
  cases le a b <;> cases le b a <;> cases p a <;> cases p b <;> simp

theorem preferLe_total (total : ∀ a b, le a b = true ∨ le b a = true) (a b : α) :
    preferLe le p a b = true ∨ preferLe le p b a = true := by
  have h := total a b
  unfold preferLe
  cases hab : le a b <;> cases hba : le b a <;> cases p a <;> cases p b <;> simp_all

theorem preferLe_trans (trans : ∀ a b c, le a b = true → le b c = true → le a c = true)
    (h : preferLe le p a b = true) (h' : preferLe le p b c = true) : preferLe le p a c = true := by
  rw [preferLe_iff] at *
  refine ⟨trans a b c h.1 h'.1, fun hca hc => ?_⟩
  -- All three tie.
  exact h.2 (trans b c a h'.1 hca) (h'.2 (trans c a b hca h.1) hc)

/-- Sorts by `le`, and of the rows that tie those with `p` come first. -/
def Ordering.preferring (le : α → α → Bool) (total : ∀ a b, le a b = true ∨ le b a = true)
    (trans : ∀ a b c, le a b = true → le b c = true → le a c = true) (p : α → Bool) :
    Ordering (preferLe le p) :=
  .stable (preferLe le p) (preferLe_total total) fun _ _ _ => preferLe_trans trans

def Ordering.forget (ord : Ordering (preferLe le p)) : Ordering le where
  apply := ord.apply
  perm := ord.perm
  sorted rows := (ord.sorted rows).imp fun h => (preferLe_iff.1 h).1

/-- **Every selection is what some ordering yields.** -/
theorem Selection.exists_ordering [DecidableEq α] [DecidableEq π] {part : α → π}
    {rows sel : List α} (total : ∀ a b, le a b = true ∨ le b a = true)
    (trans : ∀ a b c, le a b = true → le b c = true → le a c = true)
    (h : Selection part le rows sel) :
    ∃ ord : Ordering le, sel.Perm (firsts part (ord.apply rows)) := by
  have hrefl : ∀ a, le a a = true := fun a => (total a a).elim id id
  let ord := Ordering.preferring le total trans fun a => decide (a ∈ sel)
  have hsel : Selection part (preferLe le fun a => decide (a ∈ sel)) rows
      (firsts part (ord.apply rows)) :=
    selection_firsts (fun a => preferLe_iff.2 ⟨hrefl a, fun _ ha => ha⟩) ord
  have hlen := (selection_firsts hrefl ord.forget : Selection part le rows _).length_eq h
  refine ⟨ord.forget, ?_⟩
  have hsub : sel ⊆ firsts part (ord.apply rows) := by
    intro r hr
    have hrow := h.sub.subset hr
    obtain ⟨f, hf, hpart⟩ := List.mem_map.1 ((hsel.covers _).2 (List.mem_map_of_mem hrow))
    -- The first row of the partition ties with `r`, so it is preferred as `r` is.
    obtain ⟨-, hpref⟩ := preferLe_iff.1 (hsel.least f hf r hrow hpart.symm)
    have hle := h.least r hr f (hsel.sub.subset hf) hpart
    have hfs : f ∈ sel := of_decide_eq_true (hpref hle (decide_eq_true hr))
    exact List.inj_on_of_nodup_map h.nodup hfs hr hpart ▸ hf
  exact (List.subperm_of_subset h.nodup.of_map hsub).perm_of_length_le (Nat.le_of_eq hlen)

end

end Window
