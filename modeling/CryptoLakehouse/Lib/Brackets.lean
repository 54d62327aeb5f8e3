import Mathlib.Order.Lattice
import Mathlib.Order.MinMax

/-!
# Brackets

A fold over pairs `(group, value)` that keeps, per group, the smallest and the largest value: a map
of groups to bounds whose new entries start from two sentinels (`top`, `bot`) above and below
every value. The map is kept as a list in first-seen order. `Bracket.mem_ofList` characterises its
entries: the bounds of a group are its least and its greatest value.
-/

namespace Bracket

variable {γ α : Type*} [DecidableEq γ] [LinearOrder α]

/-- Enters `(g, t)`: a missing entry starts from the sentinels. -/
def touch (top bot : α) (g : γ) (t : α) : List (γ × α × α) → List (γ × α × α)
  | [] => [(g, min top t, max bot t)]
  | (g', lo, hi) :: rest =>
    if g' = g then (g', min lo t, max hi t) :: rest else (g', lo, hi) :: touch top bot g t rest

/-- The brackets of a list of pairs, in order. -/
def ofList (top bot : α) (xs : List (γ × α)) : List (γ × α × α) :=
  xs.foldl (fun m x => touch top bot x.1 x.2 m) []

/-- `lo` and `hi` are the least and the greatest value of group `g` in `xs`. -/
def IsBracket (xs : List (γ × α)) (g : γ) (lo hi : α) : Prop :=
  (g, lo) ∈ xs ∧ (g, hi) ∈ xs ∧ ∀ t, (g, t) ∈ xs → lo ≤ t ∧ t ≤ hi

variable {top bot : α} {xs : List (γ × α)} {m : List (γ × α × α)} {g : γ} {t lo hi : α}

omit [DecidableEq γ] in
theorem IsBracket.unique {lo' hi' : α} (h : IsBracket xs g lo hi) (h' : IsBracket xs g lo' hi') :
    lo = lo' ∧ hi = hi' :=
  ⟨le_antisymm (h.2.2 _ h'.1).1 (h'.2.2 _ h.1).1, le_antisymm (h'.2.2 _ h.2.1).2 (h.2.2 _ h'.2.1).2⟩

theorem map_fst_touch : (touch top bot g t m).map (·.1) =
    if g ∈ m.map (·.1) then m.map (·.1) else m.map (·.1) ++ [g] := by
  induction m with
  | nil => simp [touch]
  | cons e m ih =>
    obtain ⟨g', lo, hi⟩ := e
    unfold touch
    by_cases hg : g' = g
    · simp [hg]
    · simp only [if_neg hg, List.map_cons, ih, List.mem_cons, Ne.symm hg, false_or]
      split <;> rfl

/-- Another group's entry is untouched. -/
theorem mem_touch_of_ne {e : γ × α × α} (hne : e.1 ≠ g) : e ∈ touch top bot g t m ↔ e ∈ m := by
  induction m with
  | nil =>
    simp only [touch, List.mem_singleton, List.not_mem_nil, iff_false]
    rintro rfl
    exact hne rfl
  | cons e' m ih =>
    obtain ⟨g', lo, hi⟩ := e'
    unfold touch
    by_cases hg : g' = g
    · subst hg
      simp only [if_true, List.mem_cons]
      refine or_congr_left ⟨?_, ?_⟩ <;> rintro rfl <;> exact absurd rfl hne
    · simp only [if_neg hg, List.mem_cons, ih]

/-- The entry of the touched group: widened, or new. -/
theorem mem_touch_self (hn : (m.map (·.1)).Nodup) (h : (g, lo, hi) ∈ touch top bot g t m) :
    (∃ lo' hi', (g, lo', hi') ∈ m ∧ lo = min lo' t ∧ hi = max hi' t) ∨
      (g ∉ m.map (·.1) ∧ lo = min top t ∧ hi = max bot t) := by
  induction m with
  | nil =>
    simp only [touch, List.mem_singleton, Prod.mk.injEq, true_and] at h
    exact .inr ⟨by simp, h⟩
  | cons e m ih =>
    obtain ⟨g', lo', hi'⟩ := e
    rw [List.map_cons, List.nodup_cons] at hn
    unfold touch at h
    by_cases hg : g' = g
    · subst hg
      simp only [if_true, List.mem_cons, Prod.mk.injEq, true_and] at h
      rcases h with ⟨rfl, rfl⟩ | h
      · exact .inl ⟨lo', hi', by simp, rfl, rfl⟩
      · exact absurd (List.mem_map_of_mem h) hn.1
    · simp only [if_neg hg, List.mem_cons, Prod.mk.injEq, Ne.symm hg, false_and, false_or] at h
      rcases ih hn.2 h with ⟨lo'', hi'', hm, hl, hh⟩ | ⟨hm, hl, hh⟩
      · exact .inl ⟨lo'', hi'', List.mem_cons_of_mem _ hm, hl, hh⟩
      · exact .inr ⟨by simp [hm, Ne.symm hg], hl, hh⟩

/-- What the fold keeps: one entry per group seen, with the group's least and greatest value. -/
structure Inv (m : List (γ × α × α)) (xs : List (γ × α)) : Prop where
  nodup : (m.map (·.1)).Nodup
  seen : ∀ g, g ∈ m.map (·.1) ↔ g ∈ xs.map (·.1)
  bracket : ∀ g lo hi, (g, lo, hi) ∈ m → IsBracket xs g lo hi

theorem Inv.touch (htop : ∀ t : α, t ≤ top) (hbot : ∀ t : α, bot ≤ t) (h : Inv m xs) :
    Inv (Bracket.touch top bot g t m) (xs ++ [(g, t)]) := by
  refine ⟨?_, fun g' => ?_, fun g' lo hi hm => ?_⟩
  · rw [map_fst_touch]
    split
    · exact h.nodup
    · rename_i hg
      refine List.nodup_append.2 ⟨h.nodup, by simp, fun a ha b hb => ?_⟩
      rw [List.mem_singleton] at hb
      subst hb
      exact fun he => hg (he ▸ ha)
  · rw [map_fst_touch, List.map_append, List.mem_append, ← h.seen]
    split
    · rename_i hg
      simp only [List.map_cons, List.map_nil, List.mem_singleton]
      exact ⟨.inl, fun h => h.elim id fun he => he ▸ hg⟩
    · simp
  · by_cases hg : g' = g
    · subst hg
      rcases mem_touch_self h.nodup hm with ⟨lo', hi', hm', rfl, rfl⟩ | ⟨hg, rfl, rfl⟩
      · obtain ⟨h1, h2, h3⟩ := h.bracket _ _ _ hm'
        refine ⟨?_, ?_, fun t' ht' => ?_⟩
        · rcases min_choice lo' t with he | he <;> simp [he, h1]
        · rcases max_choice hi' t with he | he <;> simp [he, h2]
        · rcases List.mem_append.1 ht' with ht' | ht'
          · obtain ⟨hl, hh⟩ := h3 t' ht'
            exact ⟨(min_le_left _ _).trans hl, hh.trans (le_max_left _ _)⟩
          · simp only [List.mem_singleton, Prod.mk.injEq, true_and] at ht'
            subst ht'
            exact ⟨min_le_right _ _, le_max_right _ _⟩
      · rw [min_eq_right (htop t), max_eq_right (hbot t)]
        refine ⟨by simp, by simp, fun t' ht' => ?_⟩
        rcases List.mem_append.1 ht' with ht' | ht'
        · exact absurd ((h.seen _).2 (List.mem_map_of_mem ht')) hg
        · simp only [List.mem_singleton, Prod.mk.injEq, true_and] at ht'
          subst ht'
          exact ⟨le_rfl, le_rfl⟩
    · obtain ⟨h1, h2, h3⟩ := h.bracket _ _ _ ((mem_touch_of_ne (by exact hg)).1 hm)
      refine ⟨List.mem_append_left _ h1, List.mem_append_left _ h2, fun t' ht' => ?_⟩
      rcases List.mem_append.1 ht' with ht' | ht'
      · exact h3 t' ht'
      · simp only [List.mem_singleton, Prod.mk.injEq, hg, false_and] at ht'

theorem inv_foldl (htop : ∀ t : α, t ≤ top) (hbot : ∀ t : α, bot ≤ t) :
    ∀ (ys : List (γ × α)) {m : List (γ × α × α)} {xs : List (γ × α)}, Inv m xs →
      Inv (ys.foldl (fun m x => touch top bot x.1 x.2 m) m) (xs ++ ys)
  | [], _, _, h => by simpa using h
  | y :: ys, _, xs, h => by
    have := inv_foldl htop hbot ys (h.touch (g := y.1) (t := y.2) htop hbot)
    rwa [List.append_assoc] at this

theorem inv_ofList (xs : List (γ × α)) (htop : ∀ t : α, t ≤ top) (hbot : ∀ t : α, bot ≤ t) :
    Inv (ofList top bot xs) xs := by
  have h0 : Inv ([] : List (γ × α × α)) [] := ⟨by simp, by simp, by simp⟩
  simpa [ofList] using inv_foldl htop hbot xs h0

/-- A group that occurs has a bracket. -/
theorem exists_isBracket (htop : ∀ t : α, t ≤ top) (hbot : ∀ t : α, bot ≤ t) (h : (g, t) ∈ xs) :
    ∃ lo hi, IsBracket xs g lo hi := by
  have hi := inv_ofList xs htop hbot
  obtain ⟨⟨g', lo, hi'⟩, hm, rfl⟩ := List.mem_map.1 ((hi.seen g).2 (List.mem_map_of_mem h))
  exact ⟨lo, hi', hi.bracket _ _ _ hm⟩

/-- **The entries of the map**: the groups that occur, each with its least and greatest value. -/
theorem mem_ofList (htop : ∀ t : α, t ≤ top) (hbot : ∀ t : α, bot ≤ t) :
    (g, lo, hi) ∈ ofList top bot xs ↔ IsBracket xs g lo hi := by
  have h := inv_ofList xs htop hbot
  refine ⟨h.bracket g lo hi, fun hb => ?_⟩
  obtain ⟨⟨g', lo', hi'⟩, hm, rfl⟩ := List.mem_map.1 ((h.seen g).2 (List.mem_map_of_mem hb.1))
  obtain ⟨rfl, rfl⟩ := hb.unique (h.bracket _ _ _ hm)
  exact hm

end Bracket
