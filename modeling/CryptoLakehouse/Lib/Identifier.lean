import Mathlib.Data.List.Basic

/-!
# Unquoted identifiers

SQL's unquoted identifiers: a letter or underscore, then letters, digits and underscores. They are
folded to lower case.

`Resolves catalog resolve`: what is known of an engine that reads the name of a table out of
unquoted text. A name made of identifiers is read part by part (`reads`); whatever is read out of
plain text, its parts are folded identifiers (`folds`). `nameOf` is such an engine
(`resolves_nameOf`).
-/

namespace Identifier

/-! ## Characters -/

def isStart (c : Char) : Bool := c.isAlpha || c == '_'

def isContinue (c : Char) : Bool := isStart c || c.isDigit

/-- A character of a name, the dot between names, or the operator `-`. -/
def isPlain (c : Char) : Bool := isContinue c || c == '-' || c == '.'

theorem toLower_of_not_isUpper {c : Char} (h : c.isUpper = false) : c.toLower = c := by
  unfold Char.toLower
  exact dif_neg (of_decide_eq_false h)

/-- An upper-case letter becomes a lower-case one. -/
theorem isLower_toLower {c : Char} (h : c.isUpper = true) : c.toLower.isLower = true := by
  have h := of_decide_eq_true h
  unfold Char.toLower
  rw [dif_pos h]
  simp only [ge_iff_le, UInt32.le_iff_toNat_le] at h
  show (decide (c.val + ('a'.val - 'A'.val) ≥ 'a'.val) &&
    decide (c.val + ('a'.val - 'A'.val) ≤ 'z'.val)) = true
  simp only [Bool.and_eq_true, decide_eq_true_iff, ge_iff_le, UInt32.le_iff_toNat_le,
    UInt32.toNat_add]
  have hA : 'A'.val.toNat = 65 := rfl
  have hZ : 'Z'.val.toNat = 90 := rfl
  have ha : 'a'.val.toNat = 97 := rfl
  have hz : 'z'.val.toNat = 122 := rfl
  have hd : ('a'.val - 'A'.val).toNat = 32 := rfl
  omega

theorem not_isUpper_of_isLower {c : Char} (h : c.isLower = true) : c.isUpper = false := by
  obtain ⟨hl, -⟩ := Bool.and_eq_true_iff.1 h
  have hl := of_decide_eq_true hl
  refine decide_eq_false fun hu => ?_
  simp only [ge_iff_le, UInt32.le_iff_toNat_le] at hl hu
  have hZ : 'Z'.val.toNat = 90 := rfl
  have ha : 'a'.val.toNat = 97 := rfl
  omega

theorem isAlpha_of_isLower {c : Char} (h : c.isLower = true) : c.isAlpha = true :=
  Bool.or_eq_true_iff.2 (.inr h)

/-- Folding leaves no upper-case letter. -/
theorem isUpper_toLower (c : Char) : c.toLower.isUpper = false := by
  cases h : c.isUpper with
  | true => exact not_isUpper_of_isLower (isLower_toLower h)
  | false => rw [toLower_of_not_isUpper h, h]

theorem isStart_toLower {c : Char} (h : isStart c = true) : isStart c.toLower = true := by
  cases hu : c.isUpper with
  | true => simp [isStart, isAlpha_of_isLower (isLower_toLower hu)]
  | false => rwa [toLower_of_not_isUpper hu]

theorem isContinue_toLower {c : Char} (h : isContinue c = true) : isContinue c.toLower = true := by
  cases hu : c.isUpper with
  | true => simp [isContinue, isStart, isAlpha_of_isLower (isLower_toLower hu)]
  | false => rwa [toLower_of_not_isUpper hu]

/-! ## Identifiers -/

/-- An unquoted identifier. -/
def isUnquoted : List Char → Bool
  | [] => false
  | c :: cs => isStart c && cs.all isContinue

/-- An unquoted identifier that folding leaves as it is. -/
def isFolded (s : List Char) : Bool := isUnquoted s && s.all fun c => !c.isUpper

def fold (s : List Char) : List Char := s.map Char.toLower

variable {s : List Char}

theorem isContinue_of_mem (h : isUnquoted s = true) : ∀ c ∈ s, isContinue c = true := by
  cases s with
  | nil => exact absurd h Bool.false_ne_true
  | cons a s =>
    obtain ⟨ha, hs⟩ := Bool.and_eq_true_iff.1 h
    intro c hc
    rcases List.mem_cons.1 hc with rfl | hc
    · exact Bool.or_eq_true_iff.2 (.inl ha)
    · exact List.all_eq_true.1 hs c hc

theorem fold_of_isFolded (h : isFolded s = true) : fold s = s := by
  obtain ⟨-, hs⟩ := Bool.and_eq_true_iff.1 h
  refine (List.map_congr_left fun c hc => toLower_of_not_isUpper ?_).trans (List.map_id' s)
  simpa using List.all_eq_true.1 hs c hc

theorem isFolded_fold (h : isUnquoted s = true) : isFolded (fold s) = true := by
  refine Bool.and_eq_true_iff.2 ⟨?_, ?_⟩
  · cases s with
    | nil => exact absurd h Bool.false_ne_true
    | cons a s =>
      obtain ⟨ha, hs⟩ := Bool.and_eq_true_iff.1 h
      refine Bool.and_eq_true_iff.2 ⟨isStart_toLower ha, ?_⟩
      rw [List.all_map, List.all_eq_true]
      exact fun c hc => isContinue_toLower (List.all_eq_true.1 hs c hc)
  · rw [fold, List.all_map, List.all_eq_true]
    intro c _
    rw [Function.comp_apply, isUpper_toLower, Bool.not_false]

/-! ## Names of tables -/

/-- The text of a name in three parts. -/
def dotted (catalog ns table : List Char) : String :=
  String.ofList (catalog ++ '.' :: ns ++ '.' :: table)

/-- What is known of an engine whose unquoted text names the tables of a catalog. -/
structure Resolves (catalog : List Char) (resolve : String → Option (List (List Char))) : Prop where
  reads : ∀ ns table, isUnquoted ns = true → isUnquoted table = true →
    resolve (dotted catalog ns table) = some [fold catalog, fold ns, fold table]
  folds : ∀ text parts, text.toList.all isPlain = true → resolve text = some parts →
    ∀ part ∈ parts, isFolded part = true

/-- Two hyphens start a comment. -/
def beforeComment : List Char → List Char
  | [] => []
  | '-' :: '-' :: _ => []
  | c :: cs => c :: beforeComment cs

/-- The name that unquoted text starts with. -/
def nameOf (text : String) : Option (List (List Char)) :=
  let parts := (beforeComment text.toList).splitOn '.'
  if parts.all isUnquoted then some (parts.map fold) else none

theorem beforeComment_of_not_mem (h : '-' ∉ s) : beforeComment s = s := by
  induction s with
  | nil => rfl
  | cons c s ih =>
    obtain ⟨hc, hs⟩ := not_or.1 (mt List.mem_cons.2 h)
    rw [beforeComment, ih hs]
    intro _ he
    exact absurd he.symm hc

theorem not_mem_of_isUnquoted {c : Char} (hc : isContinue c = false) (h : isUnquoted s = true) :
    c ∉ s := by
  intro hm
  rw [isContinue_of_mem h c hm] at hc
  cases hc

theorem resolves_nameOf {catalog : List Char} (h : isUnquoted catalog = true) :
    Resolves catalog nameOf where
  reads ns table hn ht := by
    have hdot := fun {s} => @not_mem_of_isUnquoted s '.' (by decide)
    have hdash := fun {s} => @not_mem_of_isUnquoted s '-' (by decide)
    have hcomment : '-' ∉ catalog ++ '.' :: ns ++ '.' :: table := by
      simp [hdash h, hdash hn, hdash ht]
    rw [nameOf, dotted, String.toList_ofList, beforeComment_of_not_mem hcomment, List.append_assoc,
      List.cons_append, List.splitOn_append_cons_self_of_not_mem (hdot h),
      List.splitOn_append_cons_self_of_not_mem (hdot hn), List.splitOn_eq_singleton (hdot ht)]
    simp [h, hn, ht]
  folds text parts _ hr part hp := by
    simp only [nameOf] at hr
    split at hr
    · cases hr
      obtain ⟨s, hs, rfl⟩ := List.mem_map.1 hp
      exact isFolded_fold (List.all_eq_true.1 ‹_› s hs)
    · cases hr

end Identifier
