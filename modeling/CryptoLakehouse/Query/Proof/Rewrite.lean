import CryptoLakehouse.Lib.Selection
import CryptoLakehouse.Query.Proof.Dedup

/-!
# What crypto-dedup selects

* `rewrite_selects` — the rewrite is a selection (`Window.Selection`) of the rows in range: one row
  for each `(exchange, symbol, trade_id)`, a least one by `event_ts, trade_ts`.
* `audit_rowsInRange` — the audit counts the rows in range, and as duplicates those that are not
  selected.
* `rewrite_audit` — so a table of rewritten rows has no duplicates, and is rewritten as it is.

Both hold for every resolution of ties, and the rewrite and the audit may resolve them differently.
-/

namespace Query.Dedup

open Trades Window

section
variable {order order' : RowOrder} {source out : List TradeRow} {start stop : Int64} {r : TradeRow}

/-- **The rewrite is a selection** of the rows in range. -/
theorem rewrite_selects (order : RowOrder) (source : List TradeRow) (start stop : Int64) :
    Selection partKey rowLe (source.filter (inRange start stop))
      (rewrite order source start stop) :=
  selection_firsts rowLe_refl order

theorem inRange_of_mem_rewrite (h : r ∈ rewrite order source start stop) :
    inRange start stop r = true :=
  (List.mem_filter.1 ((rewrite_selects order source start stop).sub.subset h)).2

theorem length_ranked : (ranked order source start stop).length =
    (source.filter (inRange start stop)).length := by
  rw [ranked, length_rowNumber, (order.perm _).length_eq]

/-- A row in range is numbered 1, or a duplicate. -/
theorem audit_rowsInRange (order order' : RowOrder) (source : List TradeRow)
    (start stop : Int64) : (audit order source start stop).rowsInRange =
      (rewrite order' source start stop).length + (audit order source start stop).duplicateRows := by
  have hsel := (rewrite_selects order source start stop).length_eq
    (rewrite_selects order' source start stop)
  show (ranked order source start stop).length =
    _ + (ranked order source start stop).countP _
  rw [← hsel, rewrite, List.length_map, ← List.countP_eq_length_filter,
    List.length_eq_countP_add_countP fun p => p.2 == 1]
  refine congrArg _ (List.countP_congr fun p hp => ?_)
  have hpos := numberFrom_pos hp
  simp only [beq_iff_eq, decide_eq_true_iff]
  omega

theorem rowsInRange_eq : (audit order source start stop).rowsInRange =
    (source.filter (inRange start stop)).length := length_ranked

/-- Rows that a rewrite has selected are in range, and of distinct keys. -/
theorem filter_of_perm_rewrite (h : out.Perm (rewrite order source start stop)) :
    out.filter (inRange start stop) = out ∧ (out.map partKey).Nodup := by
  refine ⟨List.filter_eq_self.2 fun r hr => inRange_of_mem_rewrite (h.mem_iff.1 hr), ?_⟩
  rw [(h.map partKey).nodup_iff]
  exact (rewrite_selects order source start stop).nodup

/-- **Rewriting what was rewritten** changes nothing. -/
theorem rewrite_rewritten (h : out.Perm (rewrite order source start stop)) (order' : RowOrder) :
    (rewrite order' out start stop).Perm out := by
  obtain ⟨hf, hn⟩ := filter_of_perm_rewrite h
  have hsel := rewrite_selects order' out start stop
  rw [hf] at hsel
  exact hsel.perm_of_nodup hn

theorem duplicateRows_rewritten (h : out.Perm (rewrite order source start stop))
    (order' : RowOrder) : (audit order' out start stop).duplicateRows = 0 := by
  have hsum := audit_rowsInRange order' order' out start stop
  rw [rowsInRange_eq, (filter_of_perm_rewrite h).1, (rewrite_rewritten h order').length_eq] at hsum
  omega

end

/-- **The rewrite and the audit**: the rewrite selects one earliest row for each key of the window,
the audit counts the rows of the window and those that are not selected, and over the rewrite's own
output the audit finds no duplicates and a further rewrite the same rows. -/
theorem rewrite_audit (order order' : RowOrder) (source : List TradeRow) (start stop : Int64) :
    Selection partKey rowLe (source.filter (inRange start stop))
      (rewrite order source start stop) ∧
    (audit order' source start stop).rowsInRange = (source.filter (inRange start stop)).length ∧
    (audit order' source start stop).rowsInRange =
      (rewrite order source start stop).length + (audit order' source start stop).duplicateRows ∧
    ∀ out : List TradeRow, out.Perm (rewrite order source start stop) → ∀ order'' : RowOrder,
      (audit order'' out start stop).duplicateRows = 0 ∧
      (rewrite order'' out start stop).Perm out := by
  refine ⟨rewrite_selects order source start stop, rowsInRange_eq, ?_, fun out h order'' => ?_⟩
  · exact audit_rowsInRange order' order source start stop
  · exact ⟨duplicateRows_rewritten h order'', rewrite_rewritten h order''⟩

/-- Two copies of a trade that tie, and an earlier one of another trade. -/
def tiedCopies : List TradeRow :=
  [.ofEvent (btcTrade 2 2000), .ofEvent (btcTrade 1 1000),
    { TradeRow.ofEvent (btcTrade 2 2000) with price := some 7 }]

example : audit stableOrder tiedCopies 0 86400000000 = ⟨3, 1⟩ ∧
    rewrite stableOrder tiedCopies 0 86400000000 =
      [.ofEvent (btcTrade 1 1000), .ofEvent (btcTrade 2 2000)] := by
  decide +kernel

end Query.Dedup
