import Mathlib.Data.List.TakeDrop
import CryptoLakehouse.Query.QualifiedName

/-!
# What a table name denotes

`denotes_iff`: which accepted names denote, in SQL, the table that is opened. An accepted name is
two words of letters, digits, `_` and `-` (`Accepted`); the catalog takes them as they are, and SQL
reads them as unquoted identifiers.
-/

namespace Query

open Identifier

section
variable {table name : String} {ns tb : List Char} {fromEnv : Reply}
  {connect : Destination → Reply} {d : Destination}

/-! ## Accepted names -/

/-- A name of two words without dots. -/
structure Accepted (table : String) (ns tb : List Char) : Prop where
  toList : table.toList = ns ++ '.' :: tb
  ns_dot : '.' ∉ ns
  tb_dot : '.' ∉ tb
  plain : table.toList.all isPlain = true

theorem isPlain_of_allowed {c : Char} (h : (c.isAlphanum || c == '_' || c == '-') = true) :
    isPlain c = true := by
  simp only [Char.isAlphanum, Bool.or_eq_true] at h
  simp only [isPlain, isContinue, isStart, Bool.or_eq_true]
  tauto

/-- **What the allow-list accepts.** -/
theorem accepted_of_checked (h : checkedQualifiedName table = .ok name) :
    name = table ∧ ∃ ns tb, Accepted table ns tb := by
  simp only [checkedQualifiedName] at h
  split at h
  · cases h
  rename_i hok
  simp only [Bool.not_eq_true', Bool.not_eq_false, Bool.and_eq_true, beq_iff_eq] at hok
  obtain ⟨⟨-, hcount⟩, hparts⟩ := hok
  refine ⟨by cases h; rfl, ?_⟩
  obtain ⟨ns, tb, hl⟩ := List.append_of_mem (List.count_pos_iff.1 (hcount ▸ Nat.one_pos))
  rw [hl, List.count_append, List.count_cons_self] at hcount
  have hns : '.' ∉ ns := List.count_eq_zero.1 (by omega)
  have htb : '.' ∉ tb := List.count_eq_zero.1 (by omega)
  rw [hl, List.splitOn_append_cons_self_of_not_mem hns, List.splitOn_eq_singleton htb] at hparts
  simp only [List.all_cons, List.all_nil, Bool.and_true, Bool.and_eq_true] at hparts
  obtain ⟨⟨-, hn⟩, -, ht⟩ := hparts
  refine ⟨ns, tb, hl, hns, htb, ?_⟩
  rw [hl, List.all_append, List.all_cons, Bool.and_eq_true, Bool.and_eq_true]
  refine ⟨?_, by decide, ?_⟩
  · exact List.all_eq_true.2 fun c hc => isPlain_of_allowed (List.all_eq_true.1 hn c hc)
  · exact List.all_eq_true.2 fun c hc => isPlain_of_allowed (List.all_eq_true.1 ht c hc)

theorem Accepted.splitOn (h : Accepted table ns tb) : table.toList.splitOn '.' = [ns, tb] := by
  rw [h.toList, List.splitOn_append_cons_self_of_not_mem h.ns_dot, List.splitOn_eq_singleton h.tb_dot]

theorem Accepted.splitOnce (h : Accepted table ns tb) :
    splitOnce table = some (String.ofList ns, String.ofList tb) := by
  have hspan : table.toList.span (· != '.') = (ns, '.' :: tb) := by
    rw [h.toList, List.span_eq_takeWhile_dropWhile, List.takeWhile_append_of_pos,
      List.dropWhile_append_of_pos]
    · simp
    all_goals
      intro c hc
      exact bne_iff_ne.2 fun he => h.ns_dot (he ▸ hc)
  rw [Query.splitOnce, hspan]

theorem toList_qualified : (qualified table).toList = CATALOG.toList ++ '.' :: table.toList := by
  simp [qualified, toString]

theorem Accepted.qualified (h : Accepted table ns tb) :
    qualified table = dotted CATALOG.toList ns tb := by
  refine String.toList_injective ?_
  rw [toList_qualified, dotted, String.toList_ofList, h.toList, List.append_assoc]
  rfl

theorem Accepted.plain_qualified (h : Accepted table ns tb) :
    (Query.qualified table).toList.all isPlain = true := by
  rw [toList_qualified, List.all_append, List.all_cons, h.plain]
  decide

/-! ## Two readings -/

/-- The catalog takes the words as they are. -/
theorem Accepted.openTable (h : Accepted table ns tb)
    (ho : openTable fromEnv connect table = .ok d) : d = ⟨String.ofList ns, String.ofList tb⟩ := by
  simp only [Query.openTable, Except.bind_eq_ok] at ho
  obtain ⟨name, hc, ho⟩ := ho
  obtain ⟨rfl, -⟩ := accepted_of_checked hc
  simp only [h.splitOnce] at ho
  cases fromEnv with
  | error e => cases ho
  | ok _ =>
    cases hr : connect ⟨String.ofList ns, String.ofList tb⟩ with
    | error e =>
      simp only [hr] at ho
      cases ho
    | ok _ =>
      simp only [hr] at ho
      cases ho
      rfl

/-- An accepted name is opened when nothing fails. -/
theorem openTable_ok (h : checkedQualifiedName table = .ok name) :
    ∃ d, openTable (.ok ()) (fun _ => .ok ()) table = .ok d := by
  obtain ⟨rfl, ns, tb, ha⟩ := accepted_of_checked h
  refine ⟨⟨String.ofList ns, String.ofList tb⟩, ?_⟩
  simp only [Query.openTable, h, bind, Except.bind, ha.splitOnce]
  rfl

/-- SQL reads them as unquoted identifiers. -/
theorem Accepted.resolve_iff {resolve : String → Option (List (List Char))}
    (h : Accepted table ns tb) (hr : Resolves CATALOG.toList resolve) :
    resolve (Query.qualified table) = some [CATALOG.toList, ns, tb] ↔
      isFolded ns = true ∧ isFolded tb = true := by
  refine ⟨fun he => ?_, fun hf => ?_⟩
  · have hf := hr.folds _ _ h.plain_qualified he
    exact ⟨hf ns (by simp), hf tb (by simp)⟩
  · have hu : ∀ s, isFolded s = true → isUnquoted s = true := fun s hs =>
      (Bool.and_eq_true_iff.1 hs).1
    have hc : fold CATALOG.toList = CATALOG.toList := by decide
    rw [h.qualified, hr.reads ns tb (hu ns hf.1) (hu tb hf.2), hc, fold_of_isFolded hf.1,
      fold_of_isFolded hf.2]

/-- **The table opened is the one that SQL reads** exactly for names of folded identifiers. -/
theorem Accepted.resolve_path_iff {resolve : String → Option (List (List Char))}
    (h : Accepted table ns tb) (hr : Resolves CATALOG.toList resolve)
    (ho : Query.openTable fromEnv connect table = .ok d) :
    resolve (Query.qualified table) = some d.path ↔
      ∀ part ∈ table.toList.splitOn '.', isFolded part = true := by
  rw [h.openTable ho, Destination.path, String.toList_ofList, String.toList_ofList,
    h.resolve_iff hr, h.splitOn]
  simp

/-- The names of a run are one text, opened and resolved. -/
theorem backfillTables_ok {resolve : String → Option (List (List Char))} {source into : String}
    {t : Tables} (h : backfillTables resolve fromEnv connect source into = .ok t) :
    openTable fromEnv connect into = .ok t.written ∧
      t.antiJoined = resolve (qualified into) ∧ t.verified = resolve (qualified into) := by
  simp only [backfillTables, Except.bind_eq_ok] at h
  obtain ⟨source', -, into', hi, d, ho, h⟩ := h
  obtain ⟨rfl, -⟩ := accepted_of_checked hi
  cases h
  exact ⟨ho, rfl, rfl⟩

end

/-- What SQL names `table` is what `open` opens for it, so a backfill reads, and checks, the table
that it writes. -/
structure Denotes (resolve : String → Option (List (List Char))) (table : String) : Prop where
  opened : ∀ fromEnv connect d, openTable fromEnv connect table = .ok d →
    resolve (qualified table) = some d.path
  backfill : ∀ fromEnv connect source t,
    backfillTables resolve fromEnv connect source table = .ok t →
      t.antiJoined = some t.written.path ∧ t.verified = some t.written.path

/-- **An accepted name denotes one table exactly if both its parts are lower-case identifiers**: an
upper-case letter, a hyphen or a leading digit passes the allow-list and denotes another table in
SQL, or none. -/
theorem denotes_iff {resolve : String → Option (List (List Char))} {table name : String}
    (hr : Resolves CATALOG.toList resolve) (h : checkedQualifiedName table = .ok name) :
    Denotes resolve table ↔ ∀ part ∈ table.toList.splitOn '.', isFolded part = true := by
  obtain ⟨-, ns, tb, ha⟩ := accepted_of_checked h
  refine ⟨fun hd => ?_, fun hf => ?_⟩
  · obtain ⟨d, ho⟩ := openTable_ok h
    exact (ha.resolve_path_iff hr ho).1 (hd.opened _ _ d ho)
  · refine ⟨fun _ _ d ho => (ha.resolve_path_iff hr ho).2 hf, fun _ _ _ t ht => ?_⟩
    obtain ⟨ho, hj, hv⟩ := backfillTables_ok ht
    rw [hj, hv, (ha.resolve_path_iff hr ho).2 hf]
    exact ⟨rfl, rfl⟩

/-- The default table. -/
theorem denotes_iff_trades : Denotes nameOf "trades.trades" ↔
    ∀ part ∈ "trades.trades".toList.splitOn '.', isFolded part = true :=
  denotes_iff (resolves_nameOf (by decide))
    (show checkedQualifiedName "trades.trades" = .ok "trades.trades" by decide +kernel)

/-- `--into trades.Trades` opens the table `Trades` and joins against the table `trades`. -/
theorem upper_case_denotes_another : checkedQualifiedName "trades.Trades" = .ok "trades.Trades" ∧
    Resolves CATALOG.toList nameOf ∧ ¬Denotes nameOf "trades.Trades" := by
  have ho : openTable (.ok ()) (fun _ => .ok ()) "trades.Trades" = .ok ⟨"trades", "Trades"⟩ := by
    decide +kernel
  have hn : nameOf (qualified "trades.Trades") ≠
      some (Destination.path ⟨"trades", "Trades"⟩) := by
    decide +kernel
  exact ⟨by decide +kernel, resolves_nameOf (by decide), fun h => hn (h.opened _ _ _ ho)⟩

end Query
