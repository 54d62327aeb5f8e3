import CryptoLakehouse.Sink.Write

/-!
# Commits

What a commit request, a turn of the commit loop and the whole loop can do to the table.

* `commitTurn_turn` — a turn leaves the table as it was, or appends files none of which the table
  references yet; it ends the loop only in the second case.
* `commit_spec` — a commit appends its files at most once, and exactly once when it returns `Ok`,
  however many of its requests were refused or applied without an answer.
-/

namespace Sink

open Fallible

/-- The table references none of the files. -/
def Unreferenced (l : Lake) (files : List DataFile) : Prop :=
  ∀ f ∈ files, ∀ g ∈ l.table.files, g.path ≠ f.path

section
variable {ops : CommitOps} {reply : CommitReply} {files : List DataFile} {w w' : World} {l : Lake}
  {left attempt : Nat}

theorem any_referenced_iff : (files.any fun f => l.table.files.any fun g => g.path == f.path) = true ↔
    ¬Unreferenced l files := by
  simp [Unreferenced]

@[simp] theorem append_schema : (l.append files).table.schema = l.table.schema := rfl

@[simp] theorem append_rows : (l.append files).rows = l.rows ++ files.flatMap (·.rows) := by
  simp [Lake.rows, Table.rows, Lake.append]

/-- Files that were appended once are referenced. -/
theorem not_unreferenced_append (h : files ≠ []) : ¬Unreferenced (l.append files) files := by
  obtain ⟨f, hf⟩ := List.exists_mem_of_ne_nil _ h
  exact fun hu => hu f hf f (List.mem_append_right _ hf) rfl

/-! ## One request -/

theorem commitOnce_referenced (h : ¬Unreferenced w.lake files) :
    ∃ e, commitOnce reply files w = .error e w := by
  simp only [commitOnce, bind_apply, get_apply, if_pos (any_referenced_iff.2 h), throw_apply]
  exact ⟨_, rfl⟩

theorem commitOnce_applied (h : Unreferenced w.lake files) :
    commitOnce .applied files w =
      .ok (w.lake.append files).table { w with lake := w.lake.append files } := by
  have : ¬(files.any fun f => w.lake.table.files.any fun g => g.path == f.path) = true :=
    fun hn => any_referenced_iff.1 hn h
  simp only [commitOnce, bind_apply, get_apply, if_neg this, set_apply, pure_apply]

theorem commitOnce_refused {why : String} : ∃ e, commitOnce (.refused why) files w = .error e w := by
  by_cases h : Unreferenced w.lake files
  · have : ¬(files.any fun f => w.lake.table.files.any fun g => g.path == f.path) = true :=
      fun hn => any_referenced_iff.1 hn h
    simp only [commitOnce, bind_apply, get_apply, if_neg this, throw_apply]
    exact ⟨_, rfl⟩
  · exact commitOnce_referenced h

theorem commitOnce_lost {why : String} (h : Unreferenced w.lake files) :
    ∃ e, commitOnce (.lost why) files w = .error e { w with lake := w.lake.append files } := by
  have : ¬(files.any fun f => w.lake.table.files.any fun g => g.path == f.path) = true :=
    fun hn => any_referenced_iff.1 hn h
  simp only [commitOnce, bind_apply, get_apply, if_neg this, throw_apply, set_apply]
  exact ⟨_, rfl⟩

/-- The ways a request ends. -/
theorem commitOnce_cases (reply : CommitReply) (files : List DataFile) (w : World) :
    (Unreferenced w.lake files ∧ commitOnce reply files w =
      .ok (w.lake.append files).table { w with lake := w.lake.append files }) ∨
    (∃ e, commitOnce reply files w = .error e w) ∨
    (Unreferenced w.lake files ∧
      ∃ e, commitOnce reply files w = .error e { w with lake := w.lake.append files }) := by
  by_cases h : Unreferenced w.lake files
  · cases reply with
    | applied => exact .inl ⟨h, commitOnce_applied h⟩
    | refused why => exact .inr (.inl commitOnce_refused)
    | lost why => exact .inr (.inr ⟨h, commitOnce_lost h⟩)
  · exact .inr (.inl (commitOnce_referenced h))

/-! ## One turn of the loop -/

/-- What a turn does: it may adopt other metadata, and the table may have grown by the files. -/
structure Turn (files : List DataFile) (w w' : World) : Prop where
  sink : w'.sink = { w.sink with table := w'.sink.table }
  schema : w.sink.table.schema = w.lake.table.schema →
    w'.sink.table.schema = w'.lake.table.schema
  lake : w'.lake = w.lake ∨ Unreferenced w.lake files ∧ w'.lake = w.lake.append files

theorem commitTurn_of_ok {t : Table} (h : commitOnce (ops.commits attempt) files w = .ok t w') :
    commitTurn ops files left attempt w =
      .ok true { w' with sink := { w'.sink with table := t } } := by
  rw [commitTurn, bind_of_ok (observe_of_ok h)]
  rfl

/-- A failed request is the last one when no attempt is left, or when the reload after it fails. -/
theorem commitTurn_gives_up {e : Error} (h0 : left = 0 ∨ ops.reloads attempt ≠ .ok ())
    (h : commitOnce (ops.commits attempt) files w = .error e w') :
    ∃ e', commitTurn ops files left attempt w = .error e' w' := by
  rw [commitTurn, bind_of_ok (observe_of_error h)]
  by_cases hl : left = 0
  · exact ⟨_, by simp only [if_pos hl]; rfl⟩
  · simp only [if_neg hl]
    cases hr : ops.reloads attempt with
    | ok u => exact absurd hr (h0.resolve_left hl)
    | error why => exact ⟨_, rfl⟩

/-- Otherwise the catalog's metadata is adopted, and another turn follows. -/
theorem commitTurn_again {e : Error} (h0 : left ≠ 0) (hr : ops.reloads attempt = .ok ())
    (h : commitOnce (ops.commits attempt) files w = .error e w') :
    commitTurn ops files left attempt w =
      .ok false { w' with sink := { w'.sink with table := w'.lake.table } } := by
  rw [commitTurn, bind_of_ok (observe_of_error h)]
  simp only [if_neg h0, hr]
  rfl

/-- After a failed request: the error, or the catalog's metadata and another turn. -/
theorem commitTurn_of_error {e : Error} (left : Nat)
    (h : commitOnce (ops.commits attempt) files w = .error e w') :
    (∃ e', commitTurn ops files left attempt w = .error e' w') ∨
      left ≠ 0 ∧ commitTurn ops files left attempt w =
        .ok false { w' with sink := { w'.sink with table := w'.lake.table } } := by
  by_cases h0 : left = 0 ∨ ops.reloads attempt ≠ .ok ()
  · exact .inl (commitTurn_gives_up h0 h)
  · obtain ⟨hl, hr⟩ := not_or.1 h0
    exact .inr ⟨hl, commitTurn_again hl (not_not.1 hr) h⟩

/-- **A turn** appends its files or not, and ends the loop only after it did. -/
theorem commitTurn_turn (ops : CommitOps) (files : List DataFile) (left attempt : Nat) (w : World) :
    Turn files w (final (commitTurn ops files left attempt w)) ∧
    (∀ w', commitTurn ops files left attempt w = .ok true w' →
      Unreferenced w.lake files ∧ w'.lake = w.lake.append files) ∧
    (left = 0 → ∀ w', commitTurn ops files left attempt w ≠ .ok false w') := by
  -- What follows a failed request, in the state it left.
  have hfail : ∀ {e : Error} {w₁ : World},
      commitOnce (ops.commits attempt) files w = .error e w₁ → w₁.sink = w.sink →
      (w₁.lake = w.lake ∨ Unreferenced w.lake files ∧ w₁.lake = w.lake.append files) →
      Turn files w (final (commitTurn ops files left attempt w)) ∧
        (∀ w', commitTurn ops files left attempt w = .ok true w' →
          Unreferenced w.lake files ∧ w'.lake = w.lake.append files) ∧
        (left = 0 → ∀ w', commitTurn ops files left attempt w ≠ .ok false w') := by
    intro e w₁ he hs hl
    have hlake : w₁.lake.table.schema = w.lake.table.schema := by
      rcases hl with hl | ⟨-, hl⟩ <;> simp [hl]
    rcases commitTurn_of_error left he with ⟨e', h⟩ | ⟨h0, h⟩
    · rw [h]
      exact ⟨⟨by rw [final_error, hs], fun h => by rw [final_error, hs, hlake, h], hl⟩, nofun, nofun⟩
    · rw [h]
      exact ⟨⟨by rw [final_ok, hs], fun _ => rfl, hl⟩, nofun, fun h => absurd h h0⟩
  rcases commitOnce_cases (ops.commits attempt) files w with ⟨hu, h⟩ | ⟨e, h⟩ | ⟨hu, e, h⟩
  · rw [commitTurn_of_ok h]
    exact ⟨⟨rfl, fun _ => rfl, .inr ⟨hu, rfl⟩⟩, fun w' hw' => ⟨hu, by cases hw'; rfl⟩, nofun⟩
  · exact hfail h rfl (.inl rfl)
  · exact hfail h rfl (.inr ⟨hu, rfl⟩)

/-! ## The whole loop -/

/-- A turn that fails is the last one. -/
theorem commitLoop_of_error {e : Error} (h : commitTurn ops files left attempt w = .error e w') :
    commitLoop ops files left attempt w = .error e w' := by
  cases left with
  | zero => rw [commitLoop, bind_of_error h]
  | succ left => rw [commitLoop, bind_of_error h]

/-- So is one that commits. -/
theorem commitLoop_of_done (h : commitTurn ops files left attempt w = .ok true w') :
    commitLoop ops files left attempt w = .ok ⟨⟩ w' := by
  cases left with
  | zero => rw [commitLoop, bind_of_ok h]; rfl
  | succ left => rw [commitLoop, bind_of_ok h]; rfl

theorem commitLoop_of_again (h : commitTurn ops files (left + 1) attempt w = .ok false w') :
    commitLoop ops files (left + 1) attempt w = commitLoop ops files left (attempt + 1) w' := by
  rw [commitLoop, bind_of_ok h]
  rfl

/-- What a commit of `files` to `l` has done when it ends as `r`. -/
structure Commits (files : List DataFile) (l : Lake) (w : World)
    (r : EStateM.Result Error World Unit) : Prop where
  sink : (final r).sink = { w.sink with table := (final r).sink.table }
  schema : w.sink.table.schema = l.table.schema → (final r).sink.table.schema = l.table.schema
  lake : (final r).lake = l ∨ Unreferenced l files ∧ (final r).lake = l.append files
  ok : succeeded r = true → (final r).lake = l.append files

/-- A commit is a turn to those who only see its ends. -/
theorem Commits.toTurn {r : EStateM.Result Error World Unit} (h : Commits files w.lake w r) :
    Turn files w (final r) where
  sink := h.sink
  schema hs := by
    rw [h.schema hs]
    rcases h.lake with hl | ⟨-, hl⟩ <;> simp [hl]
  lake := h.lake

/-- The files have reached the table `l` or not. -/
def Reached (files : List DataFile) (l l' : Lake) : Prop :=
  l' = l ∨ Unreferenced l files ∧ l' = l.append files

theorem Reached.schema (h : Reached files l w.lake) : w.lake.table.schema = l.table.schema := by
  rcases h with h | ⟨-, h⟩ <;> simp [h]

theorem Reached.eq (hne : files ≠ []) (h : Reached files l w.lake)
    (hu : Unreferenced w.lake files) : w.lake = l := by
  rcases h with h | ⟨-, h⟩
  · exact h
  · exact absurd (h ▸ hu) (not_unreferenced_append hne)

/-- No turn appends them a second time. -/
theorem Reached.turn (hne : files ≠ []) (h : Reached files l w.lake) (ht : Turn files w w') :
    Reached files l w'.lake := by
  rcases ht.lake with h' | h'
  · rwa [h']
  · rw [← h.eq hne h'.1]
    exact .inr h'

/-- A loop that goes on after a turn. -/
theorem Commits.turn {r : EStateM.Result Error World Unit} (h : Reached files l w.lake)
    (h' : Reached files l w'.lake) (ht : Turn files w w') (hr : Commits files l w' r) :
    Commits files l w r where
  sink := by rw [hr.sink, ht.sink]
  schema hs := hr.schema ((ht.schema (hs.trans h.schema.symm)).trans h'.schema)
  lake := hr.lake
  ok := hr.ok

/-- A loop that ends with a turn. -/
theorem Commits.last {r : EStateM.Result Error World Unit} (h : Reached files l w.lake)
    (h' : Reached files l w'.lake) (ht : Turn files w w') (hr : final r = w')
    (hok : succeeded r = true → w'.lake = l.append files) : Commits files l w r where
  sink := by rw [hr, ht.sink]
  schema hs := by rw [hr, ht.schema (hs.trans h.schema.symm), h'.schema]
  lake := by rw [hr]; exact h'
  ok hs := by rw [hr, hok hs]

/-- A loop whose next turn is its last. -/
theorem Commits.ended (hne : files ≠ []) (h : Reached files l w.lake)
    (hend : ∀ w', commitTurn ops files left attempt w ≠ .ok false w') :
    Commits files l w (commitLoop ops files left attempt w) := by
  obtain ⟨ht, hok, -⟩ := commitTurn_turn ops files left attempt w
  have h' := h.turn hne ht
  cases hc : commitTurn ops files left attempt w with
  | error e w' =>
    rw [hc] at ht h'
    rw [commitLoop_of_error hc]
    exact .last h h' ht rfl nofun
  | ok done w' =>
    rw [hc] at ht h'
    cases done with
    | false => exact absurd hc (hend w')
    | true =>
      obtain ⟨hu, hl⟩ := hok w' hc
      rw [commitLoop_of_done hc]
      exact .last h h' ht rfl fun _ => by rw [final_ok, hl, h.eq hne hu]

/-- The loop from any attempt on, before or after its files reached the table. -/
theorem commitLoop_spec (hne : files ≠ []) {left attempt : Nat} {w : World}
    (h : Reached files l w.lake) : Commits files l w (commitLoop ops files left attempt w) := by
  induction left generalizing attempt w with
  | zero => exact .ended hne h ((commitTurn_turn ops files 0 attempt w).2.2 rfl)
  | succ left ih =>
    by_cases hagain : ∃ w', commitTurn ops files (left + 1) attempt w = .ok false w'
    · obtain ⟨w', hc⟩ := hagain
      have ht := (commitTurn_turn ops files (left + 1) attempt w).1
      rw [hc] at ht
      rw [commitLoop_of_again hc]
      have h' := h.turn hne ht
      exact .turn h h' ht (ih h')
    · exact .ended hne h fun w' hc => hagain ⟨w', hc⟩

theorem commit_nil : commit ops [] w = .ok ⟨⟩ w := rfl

theorem commit_eq (hne : files ≠ []) : commit ops files w =
    commitLoop ops files (max w.sink.cfg.commitRetries 1 - 1) 1 w := by
  have : ¬files.isEmpty = true := by simpa using hne
  rw [commit, if_neg this]
  rfl

/-- **A commit** appends its files at most once, and exactly once when it succeeds. -/
theorem commit_spec (ops : CommitOps) (w : World) (hne : files ≠ []) :
    Commits files w.lake w (commit ops files w) := by
  rw [commit_eq hne]
  exact commitLoop_spec hne (.inl rfl)

/-- The first request is enough when it is applied. -/
theorem commit_ok (hne : files ≠ []) (hu : Unreferenced w.lake files)
    (h : ops.commits 1 = .applied) : ∃ w', commit ops files w = .ok ⟨⟩ w' := by
  have hc : commitOnce (ops.commits 1) files w = _ := h ▸ commitOnce_applied hu
  rw [commit_eq hne]
  exact ⟨_, commitLoop_of_done (commitTurn_of_ok hc)⟩

end

end Sink
