import CryptoLakehouse.Query.Proof.Output

/-!
# First rows

The rows of a window with `row_number()` 1, seen through `TradeRow.key`: one row for each key of the
window (`uniq_firstRows`, `mem_keys_firstRows`), and no row of its partition sorts before it
(`firstRow_le`).
-/

namespace Query

open Trades Sink

section
variable {order : RowOrder} {rows : List TradeRow} {r r' : TradeRow} {k : Key}

theorem key_eq_keyOf (r : TradeRow) : r.key = keyOf (partKey r) := by
  unfold TradeRow.key keyOf partKey
  cases r.exchange <;> cases r.symbol <;> cases r.tradeId <;> rfl

theorem keyOf_eq_some {p : Option String × Option String × Option Int64} :
    keyOf p = some k ↔ p = (some k.1, some k.2.1, some k.2.2) := by
  obtain ⟨e, s, i⟩ := p
  obtain ⟨e', s', i'⟩ := k
  unfold keyOf
  cases e <;> cases s <;> cases i <;> simp

theorem partKey_eq_of_key (h : r.key = some k) (h' : r'.key = some k) : partKey r = partKey r' := by
  rw [key_eq_keyOf, keyOf_eq_some] at h h'
  rw [h, h']

theorem keys_eq_filterMap (rows : List TradeRow) :
    Keyed.keys TradeRow.key rows = (rows.map partKey).filterMap keyOf := by
  rw [Keyed.keys, List.filterMap_map]
  exact List.filterMap_congr fun r _ => key_eq_keyOf r

/-- A row without NULLs in its key has one. -/
theorem exists_key_of_isSome (he : r.exchange.isSome) (hs : r.symbol.isSome)
    (hi : r.tradeId.isSome) : ∃ k, r.key = some k := by
  obtain ⟨e, he⟩ := Option.isSome_iff_exists.1 he
  obtain ⟨s, hs⟩ := Option.isSome_iff_exists.1 hs
  obtain ⟨i, hi⟩ := Option.isSome_iff_exists.1 hi
  exact ⟨(e, s, i), TradeRow.key_eq_some.2 ⟨he, hs, hi⟩⟩

theorem exists_key (h : r.full = true) : ∃ k, r.key = some k := by
  obtain ⟨-, hs, he, hi, -⟩ := full_iff.1 h
  exact exists_key_of_isSome he hs hi

theorem firstRows_subperm : (firstRows order rows).Subperm rows :=
  Window.firsts_sublist.subperm.trans (order.perm rows).subperm

theorem mem_of_mem_firstRows (h : r ∈ firstRows order rows) : r ∈ rows :=
  firstRows_subperm.subset h

/-- **No key twice.** -/
theorem uniq_firstRows : Keyed.Uniq TradeRow.key (firstRows order rows) := by
  rw [Keyed.Uniq, keys_eq_filterMap]
  refine List.Nodup.filterMap (fun p p' k hp hp' => ?_) Window.nodup_firsts
  rw [keyOf_eq_some.1 hp, keyOf_eq_some.1 hp']

/-- **Every key once.** -/
theorem mem_keys_firstRows :
    k ∈ Keyed.keys TradeRow.key (firstRows order rows) ↔ k ∈ Keyed.keys TradeRow.key rows := by
  simp only [keys_eq_filterMap, List.mem_filterMap]
  refine exists_congr fun p => and_congr_left fun _ => ?_
  rw [firstRows, Window.mem_map_firsts]
  exact ((order.perm rows).map partKey).mem_iff

/-- **The least row of its partition.** -/
theorem firstRow_le (h : r ∈ firstRows order rows) (hr : r' ∈ rows) (hp : partKey r' = partKey r) :
    rowLe r r' = true :=
  Window.first_le rowLe_refl (order.sorted rows) h ((order.perm rows).mem_iff.2 hr) hp

end

end Query
