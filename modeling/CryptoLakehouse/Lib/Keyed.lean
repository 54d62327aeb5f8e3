import Mathlib.Data.List.Nodup
import Mathlib.Data.List.Perm.Basic
import Mathlib.Data.List.Perm.Subperm
import Mathlib.Data.List.Count

/-!
# Keyed rows

Rows of any type `α` with a partial key `key : α → Option κ`: `none` is a key with a NULL in it,
which equals no key, its own included. `Uniq key rows`: no key occurs twice. `antiJoin`: the left
rows without a match on the right (SQL's `LEFT ANTI JOIN`), and so the left keys that the right side
does not hold (`mem_keys_antiJoin`); `countP_matched` counts the others. `leftJoin`: SQL's
`LEFT JOIN`, which keeps the number of rows when the right side has distinct keys
(`leftJoin_of_uniq`).
-/

namespace Keyed

variable {α β κ : Type*}

/-- The keys of the rows that have one, in row order. -/
def keys (key : α → Option κ) (rows : List α) : List κ := rows.filterMap key

/-- No key occurs twice. -/
def Uniq (key : α → Option κ) (rows : List α) : Prop := (keys key rows).Nodup

section
variable {key : α → Option κ} {rows rows' : List α} {k : κ}

@[simp] theorem keys_append : keys key (rows ++ rows') = keys key rows ++ keys key rows' := by
  simp [keys]

theorem mem_keys : k ∈ keys key rows ↔ ∃ r ∈ rows, key r = some k := by simp [keys]

theorem mem_keys_of_mem {r : α} (hr : r ∈ rows) (hk : key r = some k) : k ∈ keys key rows :=
  mem_keys.2 ⟨r, hr, hk⟩

theorem keys_perm (h : rows.Perm rows') : (keys key rows).Perm (keys key rows') := h.filterMap key

theorem keys_sublist (h : rows.Sublist rows') : (keys key rows).Sublist (keys key rows') :=
  h.filterMap key

/-- Rows made of values with keys of their own. -/
theorem keys_map {g : β → α} {f : β → κ} (h : ∀ b, key (g b) = some (f b)) (l : List β) :
    keys key (l.map g) = l.map f := by
  induction l with
  | nil => rfl
  | cons b l ih =>
    rw [List.map_cons, keys, List.filterMap_cons_some (h b), List.map_cons, ← ih]
    rfl

theorem uniq_nil : Uniq key ([] : List α) := List.nodup_nil

theorem uniq_perm (h : rows.Perm rows') : Uniq key rows ↔ Uniq key rows' := (keys_perm h).nodup_iff

theorem Uniq.sublist (h : Uniq key rows') (hs : rows.Sublist rows') : Uniq key rows :=
  (keys_sublist hs).nodup h

theorem uniq_append : Uniq key (rows ++ rows') ↔
    Uniq key rows ∧ Uniq key rows' ∧ ∀ k ∈ keys key rows, k ∉ keys key rows' := by
  rw [Uniq, keys_append, List.nodup_append]
  refine and_congr_right fun _ => and_congr_right fun _ => ⟨fun h k hk hk' => h k hk k hk' rfl, ?_⟩
  rintro h a ha b hb rfl
  exact h a ha hb

/-- A key of distinct keys occurs exactly once. -/
theorem Uniq.count_eq_one [BEq κ] [LawfulBEq κ] (h : Uniq key rows) (hk : k ∈ keys key rows) :
    (keys key rows).count k = 1 := List.count_eq_one_of_mem h hk

end

/-! ## Numbers of keys -/

section
variable {key : α → Option κ} {rows rows' : List α} {k : κ}

theorem length_keys (h : ∀ r ∈ rows, (key r).isSome = true) :
    (keys key rows).length = rows.length := by
  rw [keys, List.length_filterMap_eq_countP, List.countP_eq_length]
  exact h

/-- Distinct keys, and the same ones. -/
theorem length_keys_eq {key' : β → Option κ} {l : List β} (h : Uniq key rows) (h' : Uniq key' l)
    (hk : ∀ k, k ∈ keys key rows ↔ k ∈ keys key' l) :
    (keys key rows).length = (keys key' l).length :=
  ((List.perm_ext_iff_of_nodup h h').2 hk).length_eq

/-- Distinct keys, and some more. -/
theorem length_keys_lt (h : Uniq key rows) (hs : ∀ k ∈ keys key rows, k ∈ keys key rows')
    (hk : k ∈ keys key rows') (hk' : k ∉ keys key rows) :
    (keys key rows).length < (keys key rows').length := by
  have hsub : (keys key rows).Subperm (keys key rows') := List.subperm_of_subset h hs
  by_contra hle
  exact hk' ((hsub.perm_of_length_le (Nat.le_of_not_lt hle)).mem_iff.2 hk)

end

/-! ## Anti-join -/

section
variable [DecidableEq κ]

/-- Whether a right row has the (non-NULL) key of `a`. -/
def matched (kl : α → Option κ) (kr : β → Option κ) (r : List β) (a : α) : Bool :=
  match kl a with
  | none => false
  | some k => r.any fun b => kr b == some k

/-- The left rows that no right row matches. -/
def antiJoin (kl : α → Option κ) (kr : β → Option κ) (l : List α) (r : List β) : List α :=
  l.filter fun a => !matched kl kr r a

variable {kl : α → Option κ} {kr : β → Option κ} {l : List α} {r : List β} {a : α} {k : κ}

theorem matched_iff : matched kl kr r a = true ↔ ∃ k, kl a = some k ∧ k ∈ keys kr r := by
  unfold matched
  cases kl a with
  | none => simp
  | some k => simp [mem_keys]

theorem mem_antiJoin :
    a ∈ antiJoin kl kr l r ↔ a ∈ l ∧ ∀ k, kl a = some k → k ∉ keys kr r := by
  rw [antiJoin, List.mem_filter, Bool.not_eq_true', ← Bool.not_eq_true, matched_iff]
  simp only [not_exists, not_and]

/-- The keys an anti-join leaves are the left keys the right side does not hold. -/
theorem mem_keys_antiJoin : k ∈ keys kl (antiJoin kl kr l r) ↔ k ∈ keys kl l ∧ k ∉ keys kr r := by
  refine ⟨fun h => ?_, fun hx => ?_⟩
  · obtain ⟨a, ha, hk⟩ := mem_keys.1 h
    obtain ⟨hl, hn⟩ := mem_antiJoin.1 ha
    exact ⟨mem_keys_of_mem hl hk, hn k hk⟩
  · obtain ⟨h, hn⟩ := hx
    obtain ⟨a, ha, hk⟩ := mem_keys.1 h
    refine mem_keys_of_mem (mem_antiJoin.2 ⟨ha, fun k' hk' => ?_⟩) hk
    rw [hk] at hk'
    cases hk'
    exact hn

/-- When every right key is a left key, each right key matches one left row. -/
theorem countP_matched (hl : Uniq kl l) (hr : Uniq kr r) (hs : ∀ k ∈ keys kr r, k ∈ keys kl l) :
    l.countP (matched kl kr r) = (keys kr r).length := by
  have hkey : ∀ a ∈ l.filter (matched kl kr r), (kl a).isSome = true := by
    intro a ha
    obtain ⟨k, hk, -⟩ := matched_iff.1 (List.mem_filter.1 ha).2
    rw [hk]
    rfl
  rw [List.countP_eq_length_filter, ← length_keys hkey]
  refine length_keys_eq (hl.sublist List.filter_sublist) hr fun k => ⟨fun h => ?_, fun h => ?_⟩
  · obtain ⟨a, ha, hk⟩ := mem_keys.1 h
    obtain ⟨k', hk', hm⟩ := matched_iff.1 (List.mem_filter.1 ha).2
    rw [hk] at hk'
    cases hk'
    exact hm
  · obtain ⟨a, ha, hk⟩ := mem_keys.1 (hs k h)
    exact mem_keys_of_mem (List.mem_filter.2 ⟨ha, matched_iff.2 ⟨k, hk, h⟩⟩) hk

end

/-! ## Left join -/

section
variable [DecidableEq κ]

/-- Whether two rows have one (non-NULL) key. -/
def joins (kl : α → Option κ) (kr : β → Option κ) (a : α) (b : β) : Bool :=
  (kl a).any fun k => kr b == some k

/-- Each left row with each right row of its key, or alone. -/
def leftJoin (kl : α → Option κ) (kr : β → Option κ) (l : List α) (r : List β) :
    List (α × Option β) :=
  l.flatMap fun a =>
    match r.filter (joins kl kr a) with
    | [] => [(a, none)]
    | b :: bs => (b :: bs).map fun b => (a, some b)

/-- The first right row of its key. -/
def partner (kl : α → Option κ) (kr : β → Option κ) (r : List β) (a : α) : Option β :=
  r.find? (joins kl kr a)

variable {kl : α → Option κ} {kr : β → Option κ} {l : List α} {r : List β} {a : α} {b : β} {k : κ}

theorem joins_iff : joins kl kr a b = true ↔ ∃ k, kl a = some k ∧ kr b = some k := by
  unfold joins
  cases kl a with
  | none => simp
  | some k => simp

theorem partner_isSome : (partner kl kr r a).isSome = matched kl kr r a := by
  rw [Bool.eq_iff_iff, partner, List.find?_isSome, matched_iff]
  simp only [joins_iff, mem_keys]
  exact ⟨fun h => by
    obtain ⟨b, hb, k, hk, hkb⟩ := h
    exact ⟨k, hk, b, hb, hkb⟩, fun h => by
    obtain ⟨k, hk, b, hb, hkb⟩ := h
    exact ⟨b, hb, k, hk, hkb⟩⟩

/-- **A join with rows of distinct keys does not fan out.** -/
theorem leftJoin_of_uniq (h : Uniq kr r) :
    leftJoin kl kr l r = l.map fun a => (a, partner kl kr r a) := by
  rw [leftJoin, List.map_eq_flatMap]
  congr 1
  funext a
  have hu : Uniq kr (r.filter (joins kl kr a)) := h.sublist List.filter_sublist
  have hp : partner kl kr r a = (r.filter (joins kl kr a)).head? := List.head?_filter.symm
  have hk : ∀ b ∈ r.filter (joins kl kr a), ∃ k, kl a = some k ∧ kr b = some k := fun b hb =>
    joins_iff.1 (List.mem_filter.1 hb).2
  rw [hp]
  cases hf : r.filter (joins kl kr a) with
  | nil => rfl
  | cons b bs =>
    cases bs with
    | nil => rfl
    | cons b' bs =>
      -- Two partners would have one key.
      rw [hf] at hu hk
      obtain ⟨k, ha, hb⟩ := hk b List.mem_cons_self
      obtain ⟨k', ha', hb'⟩ := hk b' (List.mem_cons_of_mem _ List.mem_cons_self)
      obtain rfl := Option.some.inj (ha.symm.trans ha')
      rw [Uniq, keys, List.filterMap_cons_some hb, List.filterMap_cons_some hb',
        List.nodup_cons] at hu
      exact absurd List.mem_cons_self hu.1

end

end Keyed
