import CryptoLakehouse.Sink.Proof.AppendRecords
import CryptoLakehouse.Writers.System

/-!
# The invariant of one writer

`Ready tsOf lake wr rest`: what `wr` has on its way to the table, and the rows `rest` that it has
checked and not yet put into files, have distinct keys, and the table holds such a key only if it has
got it since the writer read it.

* `Ready.foreign` — another writer's commit keeps it.
* `Ready.turn` — so does a turn of its own commit loop.
* `uniq_turn_iff` — a turn leaves the table's keys distinct exactly when it clashes with nothing that
  was committed since.
-/

namespace Writers

open Arrow Trades Sink Fallible

/-- Every row with a key has the `trade_ts` of its key. -/
def Agrees (tsOf : Key → Int64) (rows : List TradeRow) : Prop :=
  ∀ r ∈ rows, ∀ k, r.key = some k → r.tradeTs = some (tsOf k)

/-- Distinct keys, which the table holds only if it has got them since. -/
structure Checked (lake : Lake) (since rows : List TradeRow) : Prop where
  uniq : Keyed.Uniq TradeRow.key rows
  absent : ∀ k ∈ Keyed.keys TradeRow.key rows, k ∈ Keyed.keys TradeRow.key lake.rows →
    k ∈ Keyed.keys TradeRow.key since

/-- Files with names of the sink's own. -/
structure Pending.Owned (p : Pending) (sink : IcebergSink) : Prop where
  ne_nil : p.files ≠ []
  uuid : ∀ f ∈ p.files, f.path.uuid = sink.fileNameGen.uuid
  count : ∀ f ∈ p.files, f.path.count < sink.fileNameGen.next

/-- The invariant of a writer (module doc). -/
structure Ready (tsOf : Key → Int64) (lake : Lake) (wr : Writer) (rest : List TradeRow) : Prop where
  opened : Opened Trades.schema ⟨wr.sink, lake⟩
  since : ∀ r ∈ wr.since, r ∈ lake.rows
  checked : Checked lake wr.since rest
  checkedAgrees : Agrees tsOf rest
  owned : ∀ p, wr.pending = some p → p.Owned wr.sink
  agrees : ∀ p, wr.pending = some p → Agrees tsOf p.rows
  due : ∀ p, wr.pending = some p → Unreferenced lake p.files →
    Checked lake wr.since (p.rows ++ rest)

/-- The request takes effect, unless the table references the files already. -/
def takesEffect : CommitReply → Prop
  | .refused _ => False
  | _ => True

/-- A turn that would append these files clashes with nothing committed since. -/
def Pending.Clear (p : Pending) (lake : Lake) (since : List TradeRow) (reply : CommitReply) : Prop :=
  takesEffect reply → Unreferenced lake p.files →
    ∀ k ∈ Keyed.keys TradeRow.key p.rows, k ∉ Keyed.keys TradeRow.key since

instance decidableTakesEffect : DecidablePred takesEffect := fun reply =>
  match reply with
  | .refused _ => isFalse not_false
  | .applied => isTrue trivial
  | .lost _ => isTrue trivial

instance decidableUnreferenced (lake : Lake) (files : List DataFile) :
    Decidable (Unreferenced lake files) :=
  inferInstanceAs (Decidable (∀ f ∈ files, ∀ g ∈ lake.table.files, g.path ≠ f.path))

instance decidableClear (p : Pending) (lake : Lake) (since : List TradeRow) (reply : CommitReply) :
    Decidable (p.Clear lake since reply) :=
  inferInstanceAs (Decidable (takesEffect reply → Unreferenced lake p.files →
    ∀ k ∈ Keyed.keys TradeRow.key p.rows, k ∉ Keyed.keys TradeRow.key since))

section
variable {tsOf : Key → Int64} {lake lake' : Lake} {since rows rest : List TradeRow}
  {files : List DataFile} {wr : Writer} {p : Pending} {w w' : World} {reply : CommitReply}
  {reloaded : Reply}

theorem agrees_append : Agrees tsOf (rows ++ rest) ↔ Agrees tsOf rows ∧ Agrees tsOf rest :=
  List.forall_mem_append

theorem Agrees.perm (h : Agrees tsOf rows) (hp : rows.Perm rest) : Agrees tsOf rest :=
  fun r hr => h r (hp.mem_iff.2 hr)

/-! ## What a turn does to the table -/

@[simp] theorem gained_self : gained lake lake = [] := by simp [gained]

@[simp] theorem gained_append : gained lake (lake.append files) = files.flatMap (·.rows) := by
  simp [gained]

theorem turn_turn (p : Pending) (reply : CommitReply) (reloaded : Reply) (w : World) :
    Turn p.files w (final (p.turn reply reloaded w)) :=
  (commitTurn_turn _ p.files p.left p.attempt w).1

theorem turn_lake_refused (h : ¬(takesEffect reply ∧ Unreferenced w.lake p.files)) :
    (final (p.turn reply reloaded w)).lake = w.lake := by
  have he : ∃ e, commitOnce ((answering reply reloaded).commits p.attempt) p.files w =
      .error e w := by
    cases reply with
    | refused why => exact commitOnce_refused
    | applied => exact commitOnce_referenced fun hu => h ⟨trivial, hu⟩
    | lost why => exact commitOnce_referenced fun hu => h ⟨trivial, hu⟩
  obtain ⟨e, he⟩ := he
  rcases commitTurn_of_error p.left he with ⟨e', h'⟩ | ⟨-, h'⟩
  · rw [Pending.turn, h']
    rfl
  · rw [Pending.turn, h']
    rfl

theorem turn_lake_applied (h : takesEffect reply) (hu : Unreferenced w.lake p.files) :
    (final (p.turn reply reloaded w)).lake = w.lake.append p.files := by
  cases reply with
  | refused why => exact absurd h not_false
  | applied =>
    have ha : commitOnce ((answering .applied reloaded).commits p.attempt) p.files w = _ :=
      commitOnce_applied hu
    rw [Pending.turn, commitTurn_of_ok ha]
    rfl
  | lost why =>
    have he : ∃ e, commitOnce ((answering (.lost why) reloaded).commits p.attempt) p.files w =
        .error e { w with lake := w.lake.append p.files } := commitOnce_lost hu
    obtain ⟨e, he⟩ := he
    rcases commitTurn_of_error p.left he with ⟨e', h'⟩ | ⟨-, h'⟩
    · rw [Pending.turn, h']
      rfl
    · rw [Pending.turn, h']
      rfl

/-! ## Checked rows -/

theorem checked_nil : Checked lake since [] := ⟨Keyed.uniq_nil, fun _ hk => absurd hk List.not_mem_nil⟩

theorem Checked.perm (h : Checked lake since rows) (hp : rows.Perm rest) : Checked lake since rest :=
  ⟨(Keyed.uniq_perm hp).1 h.uniq,
    fun k hk => h.absent k ((Keyed.keys_perm hp).mem_iff.2 hk)⟩

theorem Checked.sublist (h : Checked lake since rows) (hs : rest.Sublist rows) :
    Checked lake since rest :=
  ⟨h.uniq.sublist hs, fun k hk => h.absent k ((Keyed.keys_sublist hs).subset hk)⟩

/-- Others commit. -/
theorem Checked.foreign (h : Checked lake since rows) :
    Checked (lake.append files) (since ++ files.flatMap (·.rows)) rows where
  uniq := h.uniq
  absent k hk hl := by
    rw [append_rows, Keyed.keys_append, List.mem_append] at hl
    rw [Keyed.keys_append, List.mem_append]
    exact hl.imp_left (h.absent k hk)

/-- The first of the checked rows are committed. -/
theorem Checked.own (h : Checked lake since (files.flatMap (·.rows) ++ rest)) :
    Checked (lake.append files) since rest where
  uniq := (Keyed.uniq_append.1 h.uniq).2.1
  absent k hk hl := by
    rw [append_rows, Keyed.keys_append, List.mem_append] at hl
    rcases hl with hl | hl
    · refine h.absent k ?_ hl
      rw [Keyed.keys_append]
      exact List.mem_append_right _ hk
    · exact absurd hk ((Keyed.uniq_append.1 h.uniq).2.2 k hl)

/-! ## The other writer's commits -/

theorem Ready.foreign (h : Ready tsOf lake wr rest)
    (hf : ∀ f ∈ files, f.path.uuid ≠ wr.sink.fileNameGen.uuid) :
    Ready tsOf (lake.append files) { wr with since := wr.since ++ files.flatMap (·.rows) } rest where
  opened := h.opened.foreign hf
  since r hr := by
    rw [append_rows]
    rcases List.mem_append.1 hr with hr | hr
    · exact List.mem_append_left _ (h.since r hr)
    · exact List.mem_append_right _ hr
  checked := h.checked.foreign
  checkedAgrees := h.checkedAgrees
  owned := h.owned
  agrees := h.agrees
  due p hp hu := (h.due p hp fun f hf g hg => hu f hf g (List.mem_append_left _ hg)).foreign

/-- A turn of another writer. -/
theorem Ready.foreignTurn (h : Ready tsOf lake wr rest) (ht : Turn files w w') (hw : w.lake = lake)
    (hf : ∀ f ∈ files, f.path.uuid ≠ wr.sink.fileNameGen.uuid) :
    Ready tsOf w'.lake { wr with since := wr.since ++ gained lake w'.lake } rest := by
  rcases ht.lake with hl | ⟨-, hl⟩
  · rw [hl, hw, gained_self, List.append_nil]
    exact h
  · rw [hl, hw, gained_append]
    exact h.foreign hf

/-! ## Its own turns -/

/-- **A turn of a writer** keeps its invariant, with one attempt fewer or none. -/
theorem Ready.turn (h : Ready tsOf lake wr rest) (hp : wr.pending = some p) (reply : CommitReply)
    (reloaded : Reply) :
    Ready tsOf (final (p.turn reply reloaded ⟨wr.sink, lake⟩)).lake
      ⟨(final (p.turn reply reloaded ⟨wr.sink, lake⟩)).sink,
        p.next (p.turn reply reloaded ⟨wr.sink, lake⟩), wr.since⟩ rest := by
  have ht := turn_turn p reply reloaded ⟨wr.sink, lake⟩
  generalize p.turn reply reloaded ⟨wr.sink, lake⟩ = r at ht ⊢
  have hown := h.owned p hp
  have hgen : (final r).sink.fileNameGen = wr.sink.fileNameGen := by rw [ht.sink]
  -- What is left to do after the turn is what there was before it.
  have hnext : ∀ q, p.next r = some q → q.files = p.files := fun q hq => by
    unfold Pending.next at hq
    split at hq
    · cases hq
      rfl
    · cases hq
  refine ⟨h.opened.turn hown.count ht, fun x hx => ?_, ?_, h.checkedAgrees, fun q hq => ?_,
    fun q hq => ?_, fun q hq hu => ?_⟩
  · rcases ht.lake with hl | ⟨-, hl⟩ <;> rw [hl]
    · exact h.since x hx
    · rw [append_rows]
      exact List.mem_append_left _ (h.since x hx)
  · rcases ht.lake with hl | ⟨hu, hl⟩ <;> rw [hl]
    · exact h.checked
    · exact (h.due p hp hu).own
  · refine ⟨?_, ?_, ?_⟩ <;> rw [hnext q hq]
    · exact hown.ne_nil
    · rw [hgen]
      exact hown.uuid
    · rw [hgen]
      exact hown.count
  · rw [Pending.rows, hnext q hq]
    exact h.agrees p hp
  · rw [hnext q hq] at hu
    rcases ht.lake with hl | ⟨-, hl⟩
    · rw [hl] at hu ⊢
      rw [Pending.rows, hnext q hq]
      exact h.due p hp hu
    -- The files are in the table now.
    · rw [hl] at hu
      exact absurd hu (not_unreferenced_append hown.ne_nil)

/-- The rows of the table after a turn agree on `trade_ts`. -/
theorem Ready.agrees_turn (h : Ready tsOf lake wr rest) (hp : wr.pending = some p)
    (ha : Agrees tsOf lake.rows) (reply : CommitReply) (reloaded : Reply) :
    Agrees tsOf (final (p.turn reply reloaded ⟨wr.sink, lake⟩)).lake.rows := by
  rcases (turn_turn p reply reloaded ⟨wr.sink, lake⟩).lake with hl | ⟨-, hl⟩ <;> rw [hl]
  · exact ha
  · rw [append_rows]
    exact agrees_append.2 ⟨ha, h.agrees p hp⟩

/-- **When a turn keeps the keys distinct**: when nothing it appends was committed since. -/
theorem Ready.uniq_turn_iff (h : Ready tsOf lake wr rest) (hp : wr.pending = some p)
    (hu : Keyed.Uniq TradeRow.key lake.rows) (reply : CommitReply) (reloaded : Reply) :
    Keyed.Uniq TradeRow.key (final (p.turn reply reloaded ⟨wr.sink, lake⟩)).lake.rows ↔
      p.Clear lake wr.since reply := by
  by_cases ht : takesEffect reply ∧ Unreferenced lake p.files
  · have hc := h.due p hp ht.2
    rw [turn_lake_applied (w := ⟨wr.sink, lake⟩) ht.1 ht.2, append_rows, Keyed.uniq_append]
    refine ⟨fun hall _ _ k hk hs => ?_, fun hclear => ?_⟩
    · obtain ⟨r, hr, hrk⟩ := Keyed.mem_keys.1 hs
      exact hall.2.2 k (Keyed.mem_keys_of_mem (h.since r hr) hrk) hk
    · refine ⟨hu, (Keyed.uniq_append.1 hc.uniq).1, fun k hk hk' => ?_⟩
      refine hclear ht.1 ht.2 k hk' (hc.absent k ?_ hk)
      rw [Keyed.keys_append]
      exact List.mem_append_left _ hk'
  · rw [turn_lake_refused (w := ⟨wr.sink, lake⟩) ht]
    exact iff_of_true hu fun he hun => absurd ⟨he, hun⟩ ht

end

end Writers
