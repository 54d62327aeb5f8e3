import Mathlib.Algebra.Ring.Nat
import CryptoLakehouse.Query.Proof.Rewrite

/-!
# Deduplicating day by day

`pieces` cuts a range at points of time. When the rows of a key have one `trade_ts`, no key has rows
in two pieces (`partKey_ne_of_split`), so the rewrites of the pieces add up to a selection of the
whole range (`selection_pieces`) and their duplicates to those of the whole (`rewrite_pieces`).
-/

namespace Query.Dedup

open Trades Window

/-- The windows between consecutive cut points. -/
def pieces : Int64 → List Int64 → List (Int64 × Int64)
  | _, [] => []
  | t, t' :: ts => (t, t') :: pieces t' ts

/-- The rewrites of the pieces, each with a resolution of ties of its own. -/
def rewritePieces (order : Int64 → RowOrder) (source : List TradeRow) (t : Int64)
    (ts : List Int64) : List TradeRow :=
  (pieces t ts).flatMap fun p => rewrite (order p.1) source p.1 p.2

/-- The duplicates that the audits of the pieces count. -/
def duplicatesOfPieces (order : Int64 → RowOrder) (source : List TradeRow) (t : Int64)
    (ts : List Int64) : Nat :=
  ((pieces t ts).map fun p => (audit (order p.1) source p.1 p.2).duplicateRows).sum

/-- Rows of one key have one `trade_ts`. -/
def OneTime (source : List TradeRow) : Prop :=
  ∀ a ∈ source, ∀ b ∈ source, partKey a = partKey b → a.tradeTs = b.tradeTs

section
variable {source : List TradeRow} {a b c t : Int64} {ts : List Int64} {r r' : TradeRow}

/-! ## One cut -/

theorem inRange_iff : inRange a b r = true ↔ ∃ t, r.tradeTs = some t ∧ a ≤ t ∧ t < b := by
  unfold inRange
  cases r.tradeTs <;> simp

theorem inRange_split (hab : a ≤ b) (hbc : b ≤ c) :
    inRange a c r = true ↔ inRange a b r = true ∨ inRange b c r = true := by
  simp only [inRange_iff]
  refine ⟨fun h => ?_, fun h => ?_⟩
  · obtain ⟨t, ht, hat, htc⟩ := h
    rcases lt_or_ge t b with hlt | hge
    · exact .inl ⟨t, ht, hat, hlt⟩
    · exact .inr ⟨t, ht, hge, htc⟩
  · rcases h with ⟨t, ht, hat, htb⟩ | ⟨t, ht, hbt, htc⟩
    · exact ⟨t, ht, hat, lt_of_lt_of_le htb hbc⟩
    · exact ⟨t, ht, le_trans hab hbt, htc⟩

/-- A row on the boundary is in the later piece only. -/
theorem not_inRange_of_inRange (h : inRange a b r = true) : inRange b c r = false := by
  obtain ⟨t, ht, -, htb⟩ := inRange_iff.1 h
  rw [← Bool.not_eq_true, inRange_iff]
  intro hx
  obtain ⟨t', ht', hbt', -⟩ := hx
  obtain rfl := Option.some.inj (ht.symm.trans ht')
  exact absurd hbt' (not_le.2 htb)

/-- **Every row of the range is in one of two pieces.** -/
theorem filter_split (hab : a ≤ b) (hbc : b ≤ c) (source : List TradeRow) :
    (source.filter (inRange a b) ++ source.filter (inRange b c)).Perm
      (source.filter (inRange a c)) := by
  have hl : source.filter (inRange a b) = (source.filter (inRange a c)).filter (inRange a b) := by
    rw [List.filter_filter]
    refine List.filter_congr fun r _ => Bool.eq_iff_iff.2 ?_
    rw [Bool.and_eq_true, inRange_split hab hbc]
    tauto
  have hr : source.filter (inRange b c) =
      (source.filter (inRange a c)).filter fun r => !inRange a b r := by
    rw [List.filter_filter]
    refine List.filter_congr fun r _ => Bool.eq_iff_iff.2 ?_
    rw [Bool.and_eq_true, inRange_split hab hbc, Bool.not_eq_true']
    refine ⟨fun h => ?_, fun h => ?_⟩
    · refine ⟨?_, .inr h⟩
      by_contra hx
      rw [Bool.not_eq_false] at hx
      rw [not_inRange_of_inRange hx] at h
      cases h
    · exact h.2.resolve_left (by simp [h.1])
  rw [hl, hr]
  exact List.filter_append_perm _ _

/-- **No key has rows in two pieces.** -/
theorem partKey_ne_of_split (h : OneTime source) (hr : r ∈ source.filter (inRange a b))
    (hr' : r' ∈ source.filter (inRange b c)) : partKey r ≠ partKey r' := by
  intro hk
  obtain ⟨hs, hab⟩ := List.mem_filter.1 hr
  obtain ⟨hs', hbc⟩ := List.mem_filter.1 hr'
  have hcut : inRange b c r = inRange b c r' := by
    unfold inRange
    rw [h r hs r' hs' hk]
  rw [not_inRange_of_inRange hab, hbc] at hcut
  cases hcut

/-! ## Any number of cuts -/

theorem le_getLastD (h : (t :: ts).Pairwise (· < ·)) : t ≤ ts.getLastD t := by
  rw [List.getLastD_eq_getLast?]
  cases hl : ts.getLast? with
  | none => exact le_refl t
  | some t' => exact ((List.pairwise_cons.1 h).1 t' (List.mem_of_getLast? hl)).le

theorem filter_empty : source.filter (inRange t t) = [] := by
  refine List.filter_eq_nil_iff.2 fun r _ => ?_
  rw [inRange_iff]
  intro h
  obtain ⟨t', -, hle, hlt⟩ := h
  exact absurd hlt (not_lt.2 hle)

/-- **The pieces add up**: the rewrites to a selection of the range, and with the duplicates to all
of its rows. -/
theorem selection_pieces (h : OneTime source) (order order' : Int64 → RowOrder)
    (hlt : (t :: ts).Pairwise (· < ·)) :
    Selection partKey rowLe (source.filter (inRange t (ts.getLastD t)))
      (rewritePieces order source t ts) ∧
    (rewritePieces order source t ts).length + duplicatesOfPieces order' source t ts =
      (source.filter (inRange t (ts.getLastD t))).length := by
  induction ts generalizing t with
  | nil =>
    have hnil : source.filter (inRange t (([] : List Int64).getLastD t)) = [] := filter_empty
    rw [hnil]
    exact ⟨selection_nil, rfl⟩
  | cons t' ts ih =>
    obtain ⟨hhead, htail⟩ := List.pairwise_cons.1 hlt
    obtain ⟨hsel, hsum⟩ := ih htail
    have hle := le_getLastD htail
    have hperm := filter_split (hhead t' List.mem_cons_self).le hle source
    have hfirst := rewrite_selects (order t) source t t'
    have haudit := audit_rowsInRange (order' t) (order t) source t t'
    have hrange : (audit (order' t) source t t').rowsInRange =
        (source.filter (inRange t t')).length := rowsInRange_eq
    rw [List.getLastD_cons]
    constructor
    · exact (hfirst.append hsel fun _ ha _ hb => partKey_ne_of_split h ha hb).perm_rows hperm
    · rw [← hperm.length_eq, List.length_append, ← hsum, ← hrange, haudit]
      show (rewrite (order t) source t t' ++ rewritePieces order source t' ts).length +
        ((audit (order' t) source t t').duplicateRows + duplicatesOfPieces order' source t' ts) = _
      rw [List.length_append]
      omega

end

/-- **Day by day as at once**: between increasing cut points the rewrites of the pieces together are
a selection of the whole range, so a rewrite of it under some resolution of ties, and the duplicates
of the pieces add up to those of the whole. -/
theorem rewrite_pieces (source : List TradeRow) (h : OneTime source)
    (order order' : Int64 → RowOrder) (t : Int64) (ts : List Int64)
    (hlt : (t :: ts).Pairwise (· < ·)) :
    Selection partKey rowLe (source.filter (inRange t (ts.getLastD t)))
      (rewritePieces order source t ts) ∧
    (∃ whole : RowOrder,
      (rewritePieces order source t ts).Perm (rewrite whole source t (ts.getLastD t))) ∧
    ∀ whole : RowOrder, duplicatesOfPieces order' source t ts =
      (audit whole source t (ts.getLastD t)).duplicateRows := by
  obtain ⟨hsel, hsum⟩ := selection_pieces h order order' hlt
  refine ⟨hsel, hsel.exists_ordering rowLe_total rowLe_trans, fun whole => ?_⟩
  have hall := audit_rowsInRange whole whole source t (ts.getLastD t)
  have hlen := hsel.length_eq (rewrite_selects whole source t (ts.getLastD t))
  rw [rowsInRange_eq] at hall
  omega

/-- Two days, with two copies of a trade that tie on the first and one trade on the boundary. -/
theorem rewrite_pieces_two :
    duplicatesOfPieces (fun _ => stableOrder) [.ofEvent (btcTrade 1 1000),
        .ofEvent (btcTrade 1 1000), .ofEvent (btcTrade 2 86400000)] 0
        [86400000000, 172800000000] =
      (audit stableOrder [.ofEvent (btcTrade 1 1000), .ofEvent (btcTrade 1 1000),
        .ofEvent (btcTrade 2 86400000)] 0 172800000000).duplicateRows :=
  (rewrite_pieces _ (by unfold OneTime; decide +kernel) (fun _ => stableOrder)
    (fun _ => stableOrder) 0 [86400000000, 172800000000] (by decide)).2.2 stableOrder

end Query.Dedup
